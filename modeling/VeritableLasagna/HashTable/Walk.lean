import VeritableLasagna.HashTable.Basic
import VeritableLasagna.Arena.Realloc

/-!
# The walk over the arena

`VL_HASHTABLE_FOREACH` does not follow the chains: it steps through the memory of the arena, from block
to block, and jumps over a free node where one starts at the next address. On the tiles of the arena,
`vlHashTableFront` is the handle of the first used tile, and `vlHashTableNext` that of the next one
(`vlHashTableFront_spec`, `vlHashTableNext_spec`); both rest on the tiling being coalesced, since a
free node is jumped over once. So the walk passes the handles of the used blocks in order
(`vlHashTableForeach_spec`).
-/

namespace VeritableLasagna

open Tiling

variable {arena : VlArena} {freeSet : VlSet VlArenaNode} {table : VlHashTable}
  {ts l₁ l₂ r : List Tile} {bs : List Block} {b : Block} {base n o : ℕ} {f : Bool}

/-! ### Addresses of a tiling -/

/-- The handle of the first used block from an address on, zero if there is none. -/
def firstHandle (base : ℕ) (ts : List Tile) : ℕ :=
  ((blocks false base ts).head?.map fun b => b.offset + 8).getD 0

@[simp] theorem firstHandle_nil : firstHandle base [] = 0 := rfl

@[simp] theorem firstHandle_used : firstHandle base (⟨false, n⟩ :: ts) = base + 8 := by
  simp [firstHandle]

@[simp] theorem firstHandle_free : firstHandle base (⟨true, n⟩ :: ts) = firstHandle (base + n) ts := by
  simp [firstHandle]

/-- The block at the address where the tiling is cut is its next tile. -/
theorem exists_tile_at (hpos : Positive (l₁ ++ l₂)) (hb : b ∈ blocks f 0 (l₁ ++ l₂))
    (ho : b.offset = span l₁) : ∃ r, l₂ = ⟨f, b.size⟩ :: r := by
  obtain ⟨k₁, k₂, hsplit, hoff⟩ := mem_blocks.mp hb
  have hspan : span l₁ = span k₁ := by omega
  obtain ⟨-, hl₂⟩ := append_inj_of_span hsplit hspan hpos
  exact ⟨k₂, hl₂⟩

/-- Where no free tile comes next, the next handle is right behind, unless the memory ends. -/
theorem firstHandle_eq (hpos : Positive r) (hused : UsedFirst r) :
    firstHandle base r = if base = base + span r then 0 else base + 8 := by
  cases r with
  | nil => simp
  | cons t r =>
    obtain ⟨f, n⟩ := t
    obtain rfl : f = false := hused ⟨f, n⟩ rfl
    have hn : 0 < n := (positive_cons.mp hpos).1
    rw [firstHandle_used, if_neg (by rw [span_cons_mk]; omega)]

/-! ### One step -/

/-- **`vlHashTableFront`** returns the handle of the first used tile. -/
theorem vlHashTableFront_spec (hts : table.data.Tiled ts) :
    vlHashTableFront table = .ok (firstHandle 0 ts) := by
  have hspan := hts.span_eq
  have hbound := hts.bound
  have hnonempty := hts.nonempty
  rw [vlHashTableFront]
  rcases hts.free.front with ⟨hfront, hnone⟩ | ⟨i, node, rest, hfront, hsample, hblocks⟩
  · -- no free tile at all
    have hused : UsedFirst ts := fun t ht => by
      obtain ⟨r, rfl⟩ := List.head?_eq_some_iff.mp ht
      obtain ⟨f, n⟩ := t
      cases f with
      | false => rfl
      | true => simp at hnone
    rw [hfront, ok_bind, firstHandle_eq hts.positive hused, if_neg (by omega)]
    rfl
  · rw [hfront, ok_bind]
    simp only [hsample, deref_some, ok_bind]
    have hmem : node ∈ blocks true 0 ts := hblocks ▸ List.mem_cons_self
    by_cases hzero : node.offset = 0
    · -- the memory starts with the free tile
      obtain ⟨r, rfl⟩ : ∃ r, ts = ⟨true, node.size⟩ :: r := by
        have hpos : Positive ([] ++ ts) := hts.positive
        exact exists_tile_at hpos hmem hzero
      have hco : Coalesced ([] ++ ⟨true, node.size⟩ :: r) := hts.coalesced
      obtain ⟨-, -, -, hused⟩ := coalesced_free.mp hco
      have hpos := (positive_cons.mp hts.positive).2
      rw [span_cons_mk] at hspan
      have hend : (node.size + node.offset) % 2 ^ 64 = node.size := by
        rw [hzero, Nat.add_zero]
        exact Nat.mod_eq_of_lt (by omega)
      rw [if_neg (not_not.mpr hzero), firstHandle_free, Nat.zero_add, firstHandle_eq hpos hused, hend,
        vlMemSize, ← hspan, Nat.mod_eq_of_lt (by omega)]
      simp only [eq_comm, pure_eq_ok]
    · -- the first tile is used
      have hused : UsedFirst ts := fun t ht => by
        obtain ⟨r, rfl⟩ := List.head?_eq_some_iff.mp ht
        obtain ⟨f, n⟩ := t
        cases f with
        | false => rfl
        | true =>
          rw [blocks_cons_self, List.cons.injEq] at hblocks
          exact absurd (hblocks.1 ▸ rfl) hzero
      rw [if_pos hzero, firstHandle_eq hts.positive hused, if_neg (by omega)]
      rfl

/-- **`vlHashTableNext`** returns the handle of the next used tile. -/
theorem vlHashTableNext_spec (hts : table.data.Tiled (l₁ ++ ⟨false, n⟩ :: l₂)) :
    vlHashTableNext table (span l₁ + 8) = .ok (firstHandle (span l₁ + n) l₂) := by
  have hinv : table.data.Inv (blocks false 0 (l₁ ++ ⟨false, n⟩ :: l₂)) := ⟨_, hts, List.Perm.refl _⟩
  have hb : (⟨span l₁, n⟩ : Block) ∈ blocks false 0 (l₁ ++ ⟨false, n⟩ :: l₂) :=
    mem_blocks.mpr ⟨l₁, l₂, rfl, (Nat.zero_add _).symm⟩
  have hsize := (hinv.header hb).1
  have hspan := hts.span_eq
  have hbound := hts.bound
  have hpos := hts.positive
  have hco := hts.coalesced
  simp only at hsize
  rw [List.append_cons] at hspan hpos hco
  have hposr := (positive_append.mp hpos).2
  have hcut : span (l₁ ++ [⟨false, n⟩]) = span l₁ + n := by simp
  rw [span_append, hcut] at hspan
  have hnext : (span l₁ + 8 + (n - 8)) % 2 ^ 64 = span l₁ + n := by
    rw [show span l₁ + 8 + (n - 8) = span l₁ + n by omega]
    exact Nat.mod_eq_of_lt (by omega)
  have hread := vlArenaMemSize_spec hinv hb
  simp only at hread
  have hmem : vlMemSize table.data.data = table.data.data.size := rfl
  rw [vlHashTableNext, hread, ok_bind]
  simp only [hnext]
  rcases hts.free.find (span l₁ + n) with ⟨hfind, hnone⟩ | ⟨i, node, hfind, hsample, hnode, hoff⟩
  · -- no free tile starts where the block ends
    have hused : UsedFirst l₂ := fun t ht => by
      obtain ⟨r, rfl⟩ := List.head?_eq_some_iff.mp ht
      obtain ⟨f, m⟩ := t
      cases f with
      | false => rfl
      | true => exact absurd rfl (hnone ⟨span l₁ + n, m⟩ (by simp))
    rw [hfind, ok_bind, ok_bind, firstHandle_eq hposr hused, hspan, hmem]
    split_ifs
    · rfl
    · rw [Nat.mod_eq_of_lt (by omega)]
      rfl
  · -- the free tile behind the block is jumped over
    rw [List.append_cons] at hnode
    obtain ⟨r, rfl⟩ := exists_tile_at hpos hnode (hoff.trans hcut.symm)
    obtain ⟨-, -, -, hused⟩ := coalesced_free.mp hco
    have hposr := (positive_cons.mp hposr).2
    rw [span_cons_mk, ← Nat.add_assoc] at hspan
    have hend : (node.offset + node.size) % 2 ^ 64 = span l₁ + n + node.size := by
      rw [hoff]
      exact Nat.mod_eq_of_lt (by omega)
    rw [hfind, ok_bind]
    simp only [hsample, deref_some, ok_bind, pure_eq_ok, hend, hmem]
    rw [firstHandle_free, firstHandle_eq hposr hused, hspan]
    split_ifs
    · rfl
    · rw [Nat.mod_eq_of_lt (by omega)]

/-! ### The whole walk -/

/-- From the tiles `l₂` on, the walk passes the handles of their used blocks. -/
theorem vlHashTableForeachFrom_spec (hts : table.data.Tiled (l₁ ++ l₂)) {rounds : ℕ}
    (hrounds : (blocks false (span l₁) l₂).length ≤ rounds) :
    vlHashTableForeachFrom table rounds (firstHandle (span l₁) l₂) =
      .ok ((blocks false (span l₁) l₂).map fun b => b.offset + 8) := by
  induction l₂ generalizing l₁ rounds with
  | nil => cases rounds <;> rfl
  | cons t l₂ ih =>
    obtain ⟨f, n⟩ := t
    have hcut : span (l₁ ++ [⟨f, n⟩]) = span l₁ + n := by simp
    have hts' : table.data.Tiled ((l₁ ++ [⟨f, n⟩]) ++ l₂) := by rwa [List.append_assoc]
    cases f with
    | true =>
      rw [blocks_false_cons_free, ← hcut] at hrounds ⊢
      rw [firstHandle_free, ← hcut]
      exact ih hts' hrounds
    | false =>
      rw [blocks_cons_self, List.length_cons] at hrounds
      obtain ⟨rounds, rfl⟩ := Nat.exists_eq_succ_of_ne_zero (Nat.ne_zero_of_lt hrounds)
      have hrest := ih hts' (hcut ▸ Nat.le_of_succ_le_succ hrounds)
      rw [hcut] at hrest
      rw [blocks_cons_self, firstHandle_used, vlHashTableForeachFrom, if_neg (Nat.succ_ne_zero _),
        vlHashTableNext_spec hts, ok_bind, hrest]
      rfl

/-- **The walk** passes the handles of the used blocks. -/
theorem vlHashTableForeach_spec (hts : table.data.Tiled ts) {rounds : ℕ}
    (hrounds : (blocks false 0 ts).length ≤ rounds) :
    vlHashTableForeach table rounds = .ok ((blocks false 0 ts).map fun b => b.offset + 8) := by
  rw [vlHashTableForeach, vlHashTableFront_spec hts, ok_bind]
  have hfront : table.data.Tiled ([] ++ ts) := hts
  exact vlHashTableForeachFrom_spec hfront hrounds

/-- What the walk passes first is where it starts. -/
theorem vlHashTableForeachFrom_head {rounds iter i : ℕ} {l : List ℕ}
    (h : vlHashTableForeachFrom table rounds iter = .ok (i :: l)) : i = iter := by
  cases rounds with
  | zero =>
    rw [vlHashTableForeachFrom] at h
    split_ifs at h
    cases h
  | succ rounds =>
    rw [vlHashTableForeachFrom] at h
    split_ifs at h
    · cases h
    · obtain ⟨next, -, h⟩ := exists_of_bind_eq_ok h
      obtain ⟨iters, -, h⟩ := exists_of_bind_eq_ok h
      exact (List.cons.inj (Except.ok.inj h)).1.symm

theorem vlHashTableForeach_head {rounds i : ℕ} {l : List ℕ}
    (h : vlHashTableForeach table rounds = .ok (i :: l)) : vlHashTableFront table = .ok i := by
  obtain ⟨front, hfront, h⟩ := exists_of_bind_eq_ok h
  rw [hfront, vlHashTableForeachFrom_head h]

end VeritableLasagna
