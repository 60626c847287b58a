import VeritableLasagna.AsyncPool.Basic

/-!
# Blocks and node positions of the asynchronous pool

The blocks of a pool are apart in memory and are never moved, resized or freed while threads use the
pool; only the `taken` counters and the links between them change. Different positions of different
or equal blocks have different addresses, as long as the arithmetic of sizes does not wrap.
-/

namespace VeritableLasagna

/-- The distance between nodes is the sum of the two padded sizes, which 16 bits hold. -/
structure AsyncPoolLayout.Unwrapped (l : AsyncPoolLayout) : Prop where
  nodeSize : l.nodeSize = l.headerOffset + l.elementSize
  headerOffset : 0 < l.headerOffset
  bound : l.nodeSize < 2 ^ 16

/-- The sizes of a layout that 16 bits hold. -/
theorem asyncPoolLayout_unwrapped {elementSize elementAlign : ℕ} (halign : 0 < elementAlign)
    (hfits : vlMemoryPadUp AsyncPoolLayout.headerBytes elementAlign +
      vlMemoryPadUp elementSize elementAlign < 2 ^ 16) :
    (AsyncPoolLayout.init elementSize elementAlign).Unwrapped := by
  have hpad : AsyncPoolLayout.headerBytes ≤
      vlMemoryPadUp AsyncPoolLayout.headerBytes elementAlign :=
    le_vlMemoryPadUp halign
  have helement : vlMemoryPadUp elementSize elementAlign % 2 ^ 16 =
      vlMemoryPadUp elementSize elementAlign := Nat.mod_eq_of_lt (by omega)
  refine ⟨?_, ?_, Nat.mod_lt _ (by norm_num)⟩
  · change (_ + _) % 2 ^ 16 = vlMemoryPadUp AsyncPoolLayout.headerBytes elementAlign + _
    rw [helement, Nat.mod_eq_of_lt hfits]
    exact congrArg _ helement.symm
  · exact lt_of_lt_of_le (by norm_num [AsyncPoolLayout.headerBytes]) hpad

variable {l : AsyncPoolLayout} {blocks : ℕ → Option AsyncBlock} {allocated : List ℕ}
  {a a' k k' n : ℕ} {b b' : AsyncBlock}

/-- The node at a position of an allocated block that was taken at some time. -/
def Issued (l : AsyncPoolLayout) (blocks : ℕ → Option AsyncBlock) (n : ℕ) : Prop :=
  ∃ a b k, blocks a = some b ∧ k < b.taken ∧ n = l.node a k

/-- The blocks are apart in memory, their sizes do not wrap, and no more nodes are taken than there
are. -/
structure BlocksOk (l : AsyncPoolLayout) (blocks : ℕ → Option AsyncBlock) (allocated : List ℕ) :
    Prop where
  listed : ∀ a b, blocks a = some b → a ∈ allocated
  pos : ∀ a b, blocks a = some b → a ≠ 0
  fits : ∀ a b, blocks a = some b → b.elements * l.nodeSize < 2 ^ 32
  taken : ∀ a b, blocks a = some b → b.taken ≤ b.elements
  linked : ∀ a b, blocks a = some b → b.next ≠ 0 → (blocks b.next).isSome
  apart : ∀ a a' b b', blocks a = some b → blocks a' = some b' → a ≠ a' →
    a + l.blockSize b.elements ≤ a' ∨ a' + l.blockSize b'.elements ≤ a

/-- A position of a block whose size does not wrap is where it should be. -/
theorem node_eq (h : b.elements * l.nodeSize < 2 ^ 32) (hk : k < b.elements) :
    l.node a k = a + l.headerSize + l.nodeSize * k := by
  have hle : l.nodeSize * k ≤ l.nodeSize * b.elements := Nat.mul_le_mul_left _ hk.le
  rw [AsyncPoolLayout.node, Nat.mod_eq_of_lt]
  rw [Nat.mul_comm b.elements] at h
  omega

/-- A node ends inside its block. -/
theorem node_end_le (h : b.elements * l.nodeSize < 2 ^ 32) (hk : k < b.elements) :
    a + l.headerSize + l.nodeSize * k + l.nodeSize ≤ a + l.blockSize b.elements := by
  have hle : l.nodeSize * (k + 1) ≤ l.nodeSize * b.elements := Nat.mul_le_mul_left _ hk
  rw [AsyncPoolLayout.blockSize, Nat.mod_eq_of_lt h, Nat.mul_comm b.elements]
  rw [Nat.mul_succ] at hle
  omega

namespace BlocksOk

/-- **Different positions have different addresses**. -/
theorem node_inj (h : BlocksOk l blocks allocated) (hsize : 0 < l.nodeSize)
    (hb : blocks a = some b) (hb' : blocks a' = some b') (hk : k < b.elements)
    (hk' : k' < b'.elements) (heq : l.node a k = l.node a' k') : a = a' ∧ k = k' := by
  have hend := node_end_le (a := a) (h.fits a b hb) hk
  have hend' := node_end_le (a := a') (h.fits a' b' hb') hk'
  rw [node_eq (h.fits a b hb) hk, node_eq (h.fits a' b' hb') hk'] at heq
  by_cases haa : a = a'
  · subst haa
    refine ⟨rfl, Nat.eq_of_mul_eq_mul_left hsize ?_⟩
    omega
  · rcases h.apart a a' b b' hb hb' haa with hle | hle
    · omega
    · omega

/-- The node about to be taken from a block was not taken before. -/
theorem fresh (h : BlocksOk l blocks allocated) (hsize : 0 < l.nodeSize) (hb : blocks a = some b)
    (hk : b.taken < b.elements) : ¬ Issued l blocks (l.node a b.taken) := by
  rintro ⟨a', b', k', hb', hk', heq⟩
  obtain ⟨rfl, rfl⟩ := h.node_inj hsize hb hb' hk (hk'.trans_le (h.taken a' b' hb')) heq
  obtain rfl := Option.some_injective _ (hb.symm.trans hb')
  exact absurd hk' (lt_irrefl _)

theorem issued_ne_zero (h : BlocksOk l blocks allocated) (hn : Issued l blocks n) : n ≠ 0 := by
  obtain ⟨a, b, k, hb, -, rfl⟩ := hn
  have hpos := h.pos a b hb
  rw [AsyncPoolLayout.node]
  omega

/-- A step that changes a block without moving or resizing it. -/
theorem setBlock (h : BlocksOk l blocks allocated) (hb : blocks a = some b)
    (helements : b'.elements = b.elements) (htaken : b'.taken ≤ b.elements)
    (hnext : b'.next ≠ 0 → (blocks b'.next).isSome) :
    BlocksOk l (Function.update blocks a (some b')) allocated := by
  have hold : ∀ x y, Function.update blocks a (some b') x = some y →
      ∃ z, blocks x = some z ∧ y.elements = z.elements ∧ (y = z ∨ x = a ∧ y = b') := by
    intro x y hy
    by_cases hx : x = a
    · subst hx
      obtain rfl : b' = y := by simpa using hy
      exact ⟨b, hb, helements, Or.inr ⟨rfl, rfl⟩⟩
    · exact ⟨y, by simpa [hx] using hy, rfl, Or.inl rfl⟩
  have hsome : ∀ x, (blocks x).isSome → (Function.update blocks a (some b') x).isSome := by
    intro x hx
    by_cases hxa : x = a
    · simp [hxa]
    · simpa [hxa] using hx
  refine ⟨fun x y hy => ?_, fun x y hy => ?_, fun x y hy => ?_, fun x y hy => ?_,
    fun x y hy hne => ?_, fun x x' y y' hy hy' hne => ?_⟩
  · obtain ⟨z, hz, -⟩ := hold x y hy
    exact h.listed x z hz
  · obtain ⟨z, hz, -⟩ := hold x y hy
    exact h.pos x z hz
  · obtain ⟨z, hz, hel, -⟩ := hold x y hy
    rw [hel]
    exact h.fits x z hz
  · obtain ⟨z, hz, hel, rfl | ⟨rfl, rfl⟩⟩ := hold x y hy
    · exact h.taken x y hz
    · rwa [helements]
  · obtain ⟨z, hz, -, rfl | ⟨rfl, rfl⟩⟩ := hold x y hy
    · exact hsome _ (h.linked x y hz hne)
    · exact hsome _ (hnext hne)
  · obtain ⟨z, hz, hel, -⟩ := hold x y hy
    obtain ⟨z', hz', hel', -⟩ := hold x' y' hy'
    rw [hel, hel']
    exact h.apart x x' z z' hz hz' hne

/-- A new block in free memory: nothing was there, and nothing is taken from it yet. -/
theorem allocate (h : BlocksOk l blocks allocated) {elements : ℕ} (primary : ℕ) (hpos : a ≠ 0)
    (hfree : ∀ x ∈ allocated, ∀ b ∈ blocks x,
      a + l.blockSize elements ≤ x ∨ x + l.blockSize b.elements ≤ a)
    (hfits : elements * l.nodeSize < 2 ^ 32) (hsize : 0 < l.headerSize) :
    blocks a = none ∧
      BlocksOk l (Function.update blocks a (some ⟨0, primary, elements, 0⟩)) (a :: allocated) := by
  have hnone : blocks a = none := by
    by_contra hne
    obtain ⟨b, hb⟩ := Option.ne_none_iff_exists'.mp hne
    have := hfree a (h.listed a b hb) b hb
    simp only [AsyncPoolLayout.blockSize] at this
    omega
  have hold : ∀ x y, Function.update blocks a (some ⟨0, primary, elements, 0⟩) x = some y →
      x = a ∧ y = ⟨0, primary, elements, 0⟩ ∨ x ≠ a ∧ blocks x = some y := by
    intro x y hy
    by_cases hx : x = a
    · subst hx
      exact Or.inl ⟨rfl, by simpa [eq_comm] using hy⟩
    · exact Or.inr ⟨hx, by simpa [hx] using hy⟩
  refine ⟨hnone, fun x y hy => ?_, fun x y hy => ?_, fun x y hy => ?_, fun x y hy => ?_,
    fun x y hy hne => ?_, fun x x' y y' hy hy' hne => ?_⟩
  · rcases hold x y hy with ⟨rfl, -⟩ | ⟨-, hy⟩
    · exact List.mem_cons_self
    · exact List.mem_cons_of_mem _ (h.listed x y hy)
  · rcases hold x y hy with ⟨rfl, -⟩ | ⟨-, hy⟩
    · exact hpos
    · exact h.pos x y hy
  · rcases hold x y hy with ⟨rfl, rfl⟩ | ⟨-, hy⟩
    · exact hfits
    · exact h.fits x y hy
  · rcases hold x y hy with ⟨rfl, rfl⟩ | ⟨-, hy⟩
    · exact Nat.zero_le _
    · exact h.taken x y hy
  · rcases hold x y hy with ⟨rfl, rfl⟩ | ⟨-, hy⟩
    · exact absurd rfl hne
    · have hlinked := h.linked x y hy hne
      have hya : y.next ≠ a := by
        rintro heq
        rw [heq, hnone] at hlinked
        cases hlinked
      simpa [hya] using hlinked
  · rcases hold x y hy with ⟨rfl, rfl⟩ | ⟨-, hz⟩
    · rcases hold x' y' hy' with ⟨rfl, -⟩ | ⟨-, hz'⟩
      · exact absurd rfl hne
      · exact hfree x' (h.listed x' y' hz') y' hz'
    · rcases hold x' y' hy' with ⟨rfl, rfl⟩ | ⟨-, hz'⟩
      · exact (hfree x (h.listed x y hz) y hz).symm
      · exact h.apart x x' y y' hz hz' hne

end BlocksOk

end VeritableLasagna
