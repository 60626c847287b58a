import Mathlib

/-!
# Tilings of an address range

An allocator cuts a range of addresses into **tiles**, each free or used, one right behind the
other. A list of tiles with their sizes says everything: where a tile lies follows from the sizes
before it, so tiles cannot overlap and nothing can be lost between them.

`blocks f base ts` reads off the blocks of the free (or used) tiles, in order. The tiling is
**coalesced** when no two free tiles are neighbours; `release` frees a tile and merges it with the
free tiles on both sides, which keeps a tiling coalesced.
-/

namespace VeritableLasagna

/-- A range of addresses. -/
@[ext]
structure Block where
  offset : ℕ
  size : ℕ
  deriving DecidableEq, Repr

namespace Block

/-- The first address behind a block. -/
def stop (b : Block) : ℕ := b.offset + b.size

/-- The block contains an address. -/
def Contains (b : Block) (x : ℕ) : Prop := b.offset ≤ x ∧ x < b.stop

/-- Two blocks share no address. -/
def Disjoint (a b : Block) : Prop := a.stop ≤ b.offset ∨ b.stop ≤ a.offset

instance (b : Block) (x : ℕ) : Decidable (b.Contains x) := inferInstanceAs (Decidable (_ ∧ _))

instance (a b : Block) : Decidable (a.Disjoint b) := inferInstanceAs (Decidable (_ ∨ _))

@[simp] theorem stop_mk (o n : ℕ) : (⟨o, n⟩ : Block).stop = o + n := rfl

theorem Disjoint.symm {a b : Block} (h : a.Disjoint b) : b.Disjoint a := Or.symm h

instance : Std.Symm Block.Disjoint := ⟨fun _ _ h => h.symm⟩

end Block

/-- A tile of a tiling. -/
structure Tile where
  free : Bool
  size : ℕ
  deriving DecidableEq, Repr

namespace Tiling

variable {f : Bool} {base base' n o e : ℕ} {s t : Tile} {ts us l₁ l₂ r : List Tile}
  {a b : Block} {bs cs : List Block}

/-- The number of addresses the tiles cover. -/
def span (ts : List Tile) : ℕ := (ts.map Tile.size).sum

@[simp] theorem span_nil : span [] = 0 := rfl

@[simp] theorem span_cons : span (t :: ts) = t.size + span ts := by simp [span]

theorem span_cons_mk : span (⟨f, n⟩ :: ts) = n + span ts := span_cons

@[simp] theorem span_append : span (ts ++ us) = span ts + span us := by simp [span]

/-- The blocks of the free tiles, or of the used ones, when the first tile starts at `base`. -/
def blocks (f : Bool) : ℕ → List Tile → List Block
  | _, [] => []
  | base, t :: ts =>
    if t.free = f then ⟨base, t.size⟩ :: blocks f (base + t.size) ts
    else blocks f (base + t.size) ts

@[simp] theorem blocks_nil : blocks f base [] = [] := rfl

@[simp] theorem blocks_cons_self :
    blocks f base (⟨f, n⟩ :: ts) = ⟨base, n⟩ :: blocks f (base + n) ts := by simp [blocks]

@[simp] theorem blocks_true_cons_used :
    blocks true base (⟨false, n⟩ :: ts) = blocks true (base + n) ts := by simp [blocks]

@[simp] theorem blocks_false_cons_free :
    blocks false base (⟨true, n⟩ :: ts) = blocks false (base + n) ts := by simp [blocks]

@[simp] theorem blocks_append :
    blocks f base (ts ++ us) = blocks f base ts ++ blocks f (base + span ts) us := by
  induction ts generalizing base with
  | nil => simp
  | cons t ts ih =>
    rw [List.cons_append, blocks, blocks, ih, span_cons, Nat.add_assoc]
    split_ifs
    · rfl
    · rfl

/-- A block comes from one tile, and the blocks around it from the tiles around that one. -/
theorem blocks_split (h : blocks f base ts = bs ++ b :: cs) :
    ∃ l₁ l₂, ts = l₁ ++ ⟨f, b.size⟩ :: l₂ ∧ b.offset = base + span l₁ ∧
      bs = blocks f base l₁ ∧ cs = blocks f (base + span l₁ + b.size) l₂ := by
  induction ts generalizing base bs with
  | nil => simp at h
  | cons t ts ih =>
    rw [blocks] at h
    split_ifs at h with hf
    · cases bs with
      | nil =>
        obtain ⟨rfl, rfl⟩ := List.cons.inj h
        exact ⟨[], ts, by rw [← hf]; rfl, rfl, rfl, rfl⟩
      | cons c bs =>
        rw [List.cons_append, List.cons.injEq] at h
        obtain ⟨rfl, h⟩ := h
        obtain ⟨l₁, l₂, rfl, ho, rfl, rfl⟩ := ih h
        refine ⟨t :: l₁, l₂, rfl, by rw [ho, span_cons, Nat.add_assoc], ?_, ?_⟩
        · rw [blocks, if_pos hf]
        · rw [span_cons, Nat.add_assoc base]
    · obtain ⟨l₁, l₂, rfl, ho, rfl, rfl⟩ := ih h
      refine ⟨t :: l₁, l₂, rfl, by rw [ho, span_cons, Nat.add_assoc], ?_, ?_⟩
      · rw [blocks, if_neg hf]
      · rw [span_cons, Nat.add_assoc base]

theorem mem_blocks : b ∈ blocks f base ts ↔
    ∃ l₁ l₂, ts = l₁ ++ ⟨f, b.size⟩ :: l₂ ∧ b.offset = base + span l₁ := by
  constructor
  · intro h
    obtain ⟨bs, cs, hsplit⟩ := List.append_of_mem h
    obtain ⟨l₁, l₂, hts, ho, -, -⟩ := blocks_split hsplit
    exact ⟨l₁, l₂, hts, ho⟩
  · rintro ⟨l₁, l₂, rfl, ho⟩
    rw [blocks_append, List.mem_append, blocks_cons_self, ← ho]
    exact Or.inr List.mem_cons_self

/-- Blocks lie in the range the tiles cover. -/
theorem blocks_bounds (h : b ∈ blocks f base ts) :
    base ≤ b.offset ∧ b.stop ≤ base + span ts := by
  obtain ⟨l₁, l₂, rfl, ho⟩ := mem_blocks.mp h
  rw [Block.stop, ho, span_append, span_cons_mk]
  omega

/-- Blocks of one kind lie in order. -/
theorem blocks_sorted : (blocks f base ts).Pairwise fun a b => a.stop ≤ b.offset := by
  induction ts generalizing base with
  | nil => exact .nil
  | cons t ts ih =>
    rw [blocks]
    split_ifs
    · exact List.pairwise_cons.mpr ⟨fun b hb => (blocks_bounds hb).1, ih⟩
    · exact ih

/-- A free block and a used one share no address. -/
theorem blocks_disjoint (ha : a ∈ blocks true base ts) (hb : b ∈ blocks false base ts) :
    a.Disjoint b := by
  obtain ⟨l₁, l₂, rfl, ho⟩ := mem_blocks.mp ha
  rw [blocks_append, blocks_false_cons_free, List.mem_append] at hb
  rcases hb with hb | hb
  · refine Or.inr ?_
    rw [ho]
    exact (blocks_bounds hb).2
  · refine Or.inl ?_
    rw [Block.stop, ho]
    exact (blocks_bounds hb).1

/-- Every address the tiles cover lies in a block. -/
theorem exists_block {x : ℕ} (hb : base ≤ x) (hx : x < base + span ts) :
    ∃ b ∈ blocks true base ts ++ blocks false base ts, b.Contains x := by
  induction ts generalizing base with
  | nil => simp only [span_nil] at hx; omega
  | cons t ts ih =>
    obtain ⟨f, n⟩ := t
    rcases Nat.lt_or_ge x (base + n) with hlt | hge
    · refine ⟨⟨base, n⟩, ?_, hb, hlt⟩
      cases f with
      | true => exact List.mem_append_left _ (by simp)
      | false => exact List.mem_append_right _ (by simp)
    · obtain ⟨b, hmem, hcont⟩ := ih hge (by rw [span_cons_mk] at hx; omega)
      refine ⟨b, ?_, hcont⟩
      rw [List.mem_append] at hmem ⊢
      cases f with
      | true => exact hmem.imp (List.mem_cons_of_mem _ <| by simpa using ·) (by simpa using ·)
      | false => exact hmem.imp (by simpa using ·) (List.mem_cons_of_mem _ <| by simpa using ·)

/-- The sizes of all blocks add up to the range. -/
theorem sum_blocks (base : ℕ) (ts : List Tile) : ((blocks true base ts).map Block.size).sum +
    ((blocks false base ts).map Block.size).sum = span ts := by
  induction ts generalizing base with
  | nil => rfl
  | cons t ts ih =>
    obtain ⟨f, n⟩ := t
    have hrest := ih (base + n)
    cases f with
    | true => simp only [blocks_cons_self, blocks_false_cons_free, List.map_cons, List.sum_cons,
        span_cons]; omega
    | false => simp only [blocks_cons_self, blocks_true_cons_used, List.map_cons, List.sum_cons,
        span_cons]; omega

/-! ### Coalesced tilings -/

/-- Every tile has a size. -/
def Positive (ts : List Tile) : Prop := ∀ t ∈ ts, 0 < t.size

/-- No two neighbours are free. -/
def Coalesced (ts : List Tile) : Prop := ts.IsChain fun s t => ¬ (s.free = true ∧ t.free = true)

@[simp] theorem positive_nil : Positive [] := by simp [Positive]

@[simp] theorem positive_cons : Positive (t :: ts) ↔ 0 < t.size ∧ Positive ts := by
  simp [Positive]

@[simp] theorem positive_append : Positive (ts ++ us) ↔ Positive ts ∧ Positive us := by
  simp only [Positive, List.mem_append]
  exact ⟨fun h => ⟨fun t ht => h t (Or.inl ht), fun t ht => h t (Or.inr ht)⟩,
    fun h t ht => ht.elim (h.1 t) (h.2 t)⟩

/-- The last tile is used, if there is one. -/
def UsedLast (ts : List Tile) : Prop := ∀ t ∈ ts.getLast?, t.free = false

/-- The first tile is used, if there is one. -/
def UsedFirst (ts : List Tile) : Prop := ∀ t ∈ ts.head?, t.free = false

theorem coalesced_append : Coalesced (ts ++ us) ↔ Coalesced ts ∧ Coalesced us ∧
    ∀ s ∈ ts.getLast?, ∀ t ∈ us.head?, ¬ (s.free = true ∧ t.free = true) :=
  List.isChain_append

/-- A used tile separates what is before it from what is behind it. -/
theorem coalesced_used :
    Coalesced (l₁ ++ ⟨false, n⟩ :: l₂) ↔ Coalesced l₁ ∧ Coalesced l₂ := by
  rw [coalesced_append, Coalesced, Coalesced, Coalesced, List.isChain_cons]
  simp

/-- A free tile needs used neighbours. -/
theorem coalesced_free : Coalesced (l₁ ++ ⟨true, n⟩ :: l₂) ↔
    Coalesced l₁ ∧ Coalesced l₂ ∧ UsedLast l₁ ∧ UsedFirst l₂ := by
  rw [coalesced_append, Coalesced, Coalesced, Coalesced, List.isChain_cons]
  simp only [UsedLast, UsedFirst, List.head?_cons, Option.mem_def, Option.some.injEq,
    forall_eq', true_and, and_true, Bool.not_eq_true]
  tauto

/-- Behind a used last tile, every free block ends before the range does. -/
theorem stop_lt_of_usedLast (hpos : Positive ts) (h : UsedLast ts) (hb : b ∈ blocks true base ts) :
    b.stop < base + span ts := by
  rcases List.eq_nil_or_concat' ts with rfl | ⟨us, t, rfl⟩
  · cases hb
  · obtain ⟨f, n⟩ := t
    obtain rfl : f = false := h ⟨f, n⟩ (by simp)
    have hn : 0 < n := (positive_append.mp hpos).2 ⟨false, n⟩ (by simp)
    rw [blocks_append, blocks_true_cons_used, blocks_nil, List.append_nil] at hb
    have hbound := (blocks_bounds hb).2
    rw [span_append, span_cons_mk]
    omega

/-- Before a used first tile, every free block starts after the range does. -/
theorem lt_offset_of_usedFirst (hpos : Positive ts) (h : UsedFirst ts)
    (hb : b ∈ blocks true base ts) : base < b.offset := by
  cases ts with
  | nil => cases hb
  | cons t ts =>
    obtain ⟨f, n⟩ := t
    obtain rfl : f = false := h ⟨f, n⟩ rfl
    have hn : 0 < n := (positive_cons.mp hpos).1
    rw [blocks_true_cons_used] at hb
    have hbound := (blocks_bounds hb).1
    omega

/-- In a coalesced tiling, free blocks are apart. -/
theorem blocks_apart (hpos : Positive ts) (h : Coalesced ts) :
    (blocks true base ts).Pairwise fun a b => a.stop < b.offset := by
  induction ts generalizing base with
  | nil => exact .nil
  | cons t ts ih =>
    obtain ⟨f, n⟩ := t
    have hpos' := (positive_cons.mp hpos).2
    cases f with
    | true =>
      obtain ⟨-, hts, -, hfirst⟩ := (@coalesced_free _ [] _).mp h
      rw [blocks_cons_self]
      exact List.pairwise_cons.mpr
        ⟨fun b hb => lt_offset_of_usedFirst hpos' hfirst hb, ih hpos' hts⟩
    | false =>
      rw [blocks_true_cons_used]
      exact ih hpos' ((@coalesced_used _ [] _).mp h).2

/-- No free block of a coalesced tiling ends where another starts. -/
theorem stop_ne_offset (hpos : Positive ts) (h : Coalesced ts) (ha : a ∈ blocks true base ts)
    (hb : b ∈ blocks true base ts) : a.stop ≠ b.offset := by
  have happart : (blocks true base ts).Pairwise _ := blocks_apart hpos h
  refine List.Pairwise.forall_of_forall_of_flip ?_ (happart.imp fun hlt => hlt.ne) ?_ ha hb
  · intro c hc
    obtain ⟨l₁, l₂, rfl, -⟩ := mem_blocks.mp hc
    have hn : 0 < c.size := (positive_cons.mp (positive_append.mp hpos).2).1
    exact (Nat.lt_add_of_pos_right hn).ne'
  · refine happart.imp fun {c d} hlt heq => ?_
    simp only [Block.stop] at hlt heq
    omega

/-- **The blocks partition the first `n` addresses**: they are not empty, they share no address, and
every address lies in one. -/
structure Partitions (bs : List Block) (n : ℕ) : Prop where
  nonempty : ∀ b ∈ bs, 0 < b.size
  stop_le : ∀ b ∈ bs, b.stop ≤ n
  disjoint : bs.Pairwise Block.Disjoint
  cover : ∀ x < n, ∃ b ∈ bs, b.Contains x

theorem Partitions.perm {bs cs : List Block} {n : ℕ} (h : Partitions bs n) (hp : bs.Perm cs) :
    Partitions cs n :=
  ⟨fun b hb => h.nonempty b (hp.mem_iff.mpr hb), fun b hb => h.stop_le b (hp.mem_iff.mpr hb),
    (hp.pairwise_iff fun hab => hab.symm).mp h.disjoint,
    fun x hx => (h.cover x hx).imp fun _ hb => ⟨hp.mem_iff.mp hb.1, hb.2⟩⟩

/-- **The blocks of a tiling** partition its range. -/
theorem partitions_blocks (hpos : Positive ts) :
    Partitions (blocks true 0 ts ++ blocks false 0 ts) (span ts) := by
  refine ⟨fun b hb => ?_, fun b hb => ?_, ?_, fun x hx => exists_block (Nat.zero_le x) ?_⟩
  · rcases List.mem_append.mp hb with hb | hb
    · obtain ⟨l₁, l₂, rfl, -⟩ := mem_blocks.mp hb
      exact (positive_cons.mp (positive_append.mp hpos).2).1
    · obtain ⟨l₁, l₂, rfl, -⟩ := mem_blocks.mp hb
      exact (positive_cons.mp (positive_append.mp hpos).2).1
  · rcases List.mem_append.mp hb with hb | hb
    · simpa using (blocks_bounds hb).2
    · simpa using (blocks_bounds hb).2
  · refine List.pairwise_append.mpr ⟨?_, ?_, fun a ha b hb => blocks_disjoint ha hb⟩
    · exact blocks_sorted.imp fun hab => Or.inl hab
    · exact blocks_sorted.imp fun hab => Or.inl hab
  · rwa [Nat.zero_add]

/-- In a positive tiling, an offset is the start of one tile only. -/
theorem append_inj_of_span {r₁ r₂ : List Tile} (h : l₁ ++ r₁ = l₂ ++ r₂)
    (hspan : span l₁ = span l₂) (hpos : Positive (l₁ ++ r₁)) : l₁ = l₂ ∧ r₁ = r₂ := by
  have hnil : ∀ xs : List Tile, Positive xs → span xs = 0 → xs = [] := by
    intro xs hxs hzero
    cases xs with
    | nil => rfl
    | cons x xs =>
      have := (positive_cons.mp hxs).1
      rw [span_cons] at hzero
      omega
  rcases List.append_eq_append_iff.mp h with ⟨xs, rfl, rfl⟩ | ⟨xs, rfl, rfl⟩
  · have hxs := (positive_append.mp (positive_append.mp hpos).2).1
    rw [span_append] at hspan
    obtain rfl := hnil xs hxs (by omega)
    simp
  · have hxs := (positive_append.mp (positive_append.mp hpos).1).2
    rw [span_append] at hspan
    obtain rfl := hnil xs hxs (by omega)
    simp

/-! ### Runs of abutting blocks -/

/-- The blocks lie one right behind the other, from address `o` to address `e`. -/
def Abutting : ℕ → List Block → ℕ → Prop
  | o, [], e => o = e
  | o, b :: bs, e => b.offset = o ∧ Abutting b.stop bs e

@[simp] theorem abutting_nil : Abutting o [] e ↔ o = e := Iff.rfl

@[simp] theorem abutting_cons :
    Abutting o (b :: bs) e ↔ b.offset = o ∧ Abutting b.stop bs e := Iff.rfl

theorem abutting_append :
    Abutting o (bs ++ cs) e ↔ ∃ m, Abutting o bs m ∧ Abutting m cs e := by
  induction bs generalizing o with
  | nil => simp
  | cons b bs ih =>
    rw [List.cons_append, abutting_cons, ih]
    simp only [abutting_cons, and_assoc, exists_and_left]

theorem Abutting.le (h : Abutting o bs e) : o ≤ e := by
  induction bs generalizing o with
  | nil => exact h.le
  | cons b bs ih =>
    obtain ⟨rfl, h⟩ := h
    exact (Nat.le_add_right _ _).trans (ih h)

/-- Free tiles in a row give abutting blocks. -/
theorem abutting_blocks (base : ℕ) (h : ∀ t ∈ r, t.free = true) :
    Abutting base (blocks true base r) (base + span r) := by
  induction r generalizing base with
  | nil => rfl
  | cons t r ih =>
    obtain ⟨f, n⟩ := t
    obtain rfl : f = true := h ⟨f, n⟩ List.mem_cons_self
    have hrest := ih (base + n) fun t ht => h t (List.mem_cons_of_mem _ ht)
    rw [blocks_cons_self, span_cons, ← Nat.add_assoc]
    exact ⟨rfl, hrest⟩

/-! ### Releasing a tile -/

/-- Free a tile of size `n` between `l₁` and `l₂`, merged with the free tiles on both sides. -/
def release (l₁ : List Tile) (n : ℕ) (l₂ : List Tile) : List Tile :=
  l₁.rdropWhile Tile.free ++
    ⟨true, span (l₁.rtakeWhile Tile.free) + n + span (l₂.takeWhile Tile.free)⟩ ::
      l₂.dropWhile Tile.free

/-- The tiles around a released one: free ones next to it, and used ones beyond. -/
structure Surroundings (l₁ l₂ k₁ r₁ r₂ k₂ : List Tile) : Prop where
  left : l₁ = k₁ ++ r₁
  right : l₂ = r₂ ++ k₂
  free_left : ∀ t ∈ r₁, t.free = true
  free_right : ∀ t ∈ r₂, t.free = true
  used_left : UsedLast k₁
  used_right : UsedFirst k₂

theorem surroundings (l₁ l₂ : List Tile) :
    Surroundings l₁ l₂ (l₁.rdropWhile Tile.free) (l₁.rtakeWhile Tile.free)
      (l₂.takeWhile Tile.free) (l₂.dropWhile Tile.free) := by
  refine ⟨List.rdropWhile_append_rtakeWhile.symm, List.takeWhile_append_dropWhile.symm,
    fun t ht => List.mem_rtakeWhile_imp ht, fun t ht => List.mem_takeWhile_imp ht, ?_, ?_⟩
  · intro t ht
    obtain ⟨hne, rfl⟩ := List.mem_getLast?_eq_getLast ht
    exact Bool.eq_false_iff.mpr (List.rdropWhile_last_not _ _ hne)
  · intro t ht
    have hhead := List.head?_dropWhile_not Tile.free l₂
    rw [ht] at hhead
    exact hhead

theorem span_release : span (release l₁ n l₂) = span l₁ + n + span l₂ := by
  have h := surroundings l₁ l₂
  have h₁ := congrArg span h.left
  have h₂ := congrArg span h.right
  simp only [span_append] at h₁ h₂
  simp only [release, span_append, span_cons]
  omega

theorem blocks_of_free (h : ∀ t ∈ r, t.free = true) : blocks false base r = [] := by
  refine List.eq_nil_iff_forall_not_mem.mpr fun b hb => ?_
  obtain ⟨l₁, l₂, rfl, -⟩ := mem_blocks.mp hb
  exact absurd (h ⟨false, b.size⟩ (by simp)) (by simp)

/-- **Releasing a tile** leaves the other used blocks where they are. -/
theorem blocks_release : blocks false base (release l₁ n l₂) =
    blocks false base l₁ ++ blocks false (base + span l₁ + n) l₂ := by
  have h := surroundings l₁ l₂
  generalize hk₁ : l₁.rdropWhile Tile.free = k₁ at h
  generalize hr₁ : l₁.rtakeWhile Tile.free = r₁ at h
  generalize hr₂ : l₂.takeWhile Tile.free = r₂ at h
  generalize hk₂ : l₂.dropWhile Tile.free = k₂ at h
  rw [release, hk₁, hr₁, hr₂, hk₂, h.left, h.right]
  simp only [blocks_append, blocks_false_cons_free, span_append, blocks_of_free h.free_left,
    blocks_of_free h.free_right, List.append_nil, List.nil_append]
  congr 2
  omega

/-- **Releasing a tile** keeps a tiling coalesced. -/
theorem coalesced_release (h₁ : Coalesced l₁) (h₂ : Coalesced l₂) :
    Coalesced (release l₁ n l₂) := by
  have h := surroundings l₁ l₂
  refine coalesced_free.mpr ⟨?_, ?_, h.used_left, h.used_right⟩
  · rw [h.left] at h₁
    exact (coalesced_append.mp h₁).1
  · rw [h.right] at h₂
    exact (coalesced_append.mp h₂).2.1

theorem positive_release (h₁ : Positive l₁) (h₂ : Positive l₂) (hn : 0 < n) :
    Positive (release l₁ n l₂) := by
  have h := surroundings l₁ l₂
  rw [h.left] at h₁
  rw [h.right] at h₂
  refine positive_append.mpr ⟨(positive_append.mp h₁).1, positive_cons.mpr
    ⟨?_, (positive_append.mp h₂).2⟩⟩
  simp only
  omega

/-- The free blocks around a tile before it is merged with its neighbours, and after. -/
theorem blocks_around_release (l₁ l₂ : List Tile) (n : ℕ) (hpos₁ : Positive l₁)
    (hpos₂ : Positive l₂) : ∃ pre left right post o e,
      blocks true 0 l₁ = pre ++ left ∧ blocks true (span l₁ + n) l₂ = right ++ post ∧
      blocks true 0 (release l₁ n l₂) = pre ++ ⟨o, e - o⟩ :: post ∧
      Abutting o left (span l₁) ∧ Abutting (span l₁ + n) right e ∧
      (∀ a ∈ pre, a.stop ≠ o) ∧ (∀ a ∈ post, a.offset ≠ e) := by
  have h := surroundings l₁ l₂
  generalize hk₁ : l₁.rdropWhile Tile.free = k₁ at h
  generalize hr₁ : l₁.rtakeWhile Tile.free = r₁ at h
  generalize hr₂ : l₂.takeWhile Tile.free = r₂ at h
  generalize hk₂ : l₂.dropWhile Tile.free = k₂ at h
  have hleft := abutting_blocks (span k₁) h.free_left
  have hright := abutting_blocks (span l₁ + n) h.free_right
  have hspan : span l₁ = span k₁ + span r₁ := by rw [h.left, span_append]
  refine ⟨blocks true 0 k₁, blocks true (span k₁) r₁, blocks true (span l₁ + n) r₂,
    blocks true (span l₁ + n + span r₂) k₂, span k₁, span l₁ + n + span r₂, ?_, ?_, ?_,
    by rwa [hspan], hright, ?_, ?_⟩
  · rw [h.left, blocks_append, Nat.zero_add]
  · rw [h.right, blocks_append]
  · rw [release, hk₁, hr₁, hr₂, hk₂, blocks_append, blocks_cons_self, Nat.zero_add]
    congr 3
    · omega
    · omega
  · intro a ha
    have := stop_lt_of_usedLast (positive_append.mp (h.left ▸ hpos₁)).1 h.used_left ha
    omega
  · intro a ha
    have := lt_offset_of_usedFirst (positive_append.mp (h.right ▸ hpos₂)).2 h.used_right ha
    omega

/-! ### Allocating a tile -/

/-- A free tile of size `n` that gives its last `size` addresses away. -/
def carve (n size : ℕ) : List Tile :=
  if n = size then [⟨false, size⟩] else [⟨true, n - size⟩, ⟨false, size⟩]

variable {size : ℕ} {us : List Tile}

theorem span_carve (h : size ≤ n) : span (carve n size) = n := by
  rw [carve]
  split_ifs
  · simp only [span_cons, span_nil]
    omega
  · simp only [span_cons, span_nil]
    omega

theorem blocks_false_carve :
    blocks false base (carve n size) = [⟨base + (n - size), size⟩] := by
  rw [carve]
  split_ifs with heq
  · rw [blocks_cons_self, blocks_nil, heq, Nat.sub_self, Nat.add_zero]
  · rw [blocks_false_cons_free, blocks_cons_self, blocks_nil]

theorem blocks_true_carve : blocks true base (carve n size) =
    if n = size then [] else [⟨base, n - size⟩] := by
  rw [carve]
  split_ifs
  · simp
  · simp

/-- **A bound on the memory**: when no tile is larger than `m`, every free tile but the first has a used
one before it. -/
theorem span_le_of_coalesced {m : ℕ} (hco : Coalesced ts)
    (hfree : ∀ b ∈ blocks true base ts, b.size ≤ m)
    (hused : ∀ b ∈ blocks false base ts, b.size ≤ m) :
    span ts ≤ (2 * (blocks false base ts).length + 1) * m ∧
      (UsedFirst ts → span ts ≤ 2 * (blocks false base ts).length * m) := by
  induction ts generalizing base with
  | nil => simp
  | cons t ts ih =>
    obtain ⟨f, n⟩ := t
    cases f with
    | true =>
      obtain ⟨-, hco, -, hfirst⟩ := (@coalesced_free _ [] _).mp hco
      rw [blocks_cons_self] at hfree
      rw [blocks_false_cons_free] at hused ⊢
      obtain ⟨hn, hfree⟩ := List.forall_mem_cons.mp hfree
      have hrest := (ih hco hfree hused).2 hfirst
      rw [span_cons_mk]
      refine ⟨?_, fun hused => absurd (hused _ rfl) (by simp)⟩
      calc n + span ts ≤ m + 2 * (blocks false (base + n) ts).length * m := Nat.add_le_add hn hrest
        _ = (2 * (blocks false (base + n) ts).length + 1) * m := by ring
    | false =>
      obtain ⟨-, hco⟩ := (@coalesced_used _ [] _).mp hco
      rw [blocks_true_cons_used] at hfree
      rw [blocks_cons_self] at hused ⊢
      obtain ⟨hn, hused⟩ := List.forall_mem_cons.mp hused
      have hrest := (ih hco hfree hused).1
      have hspan : n + span ts ≤ 2 * ((blocks false (base + n) ts).length + 1) * m := by
        calc n + span ts ≤ m + (2 * (blocks false (base + n) ts).length + 1) * m :=
              Nat.add_le_add hn hrest
          _ = 2 * ((blocks false (base + n) ts).length + 1) * m := by ring
      rw [span_cons_mk, List.length_cons]
      exact ⟨hspan.trans (Nat.mul_le_mul_right _ (Nat.le_succ _)), fun _ => hspan⟩

/-- A tiling gives a used tile of size `size` at offset `o`: the end of a free tile, or, when no
free tile is large enough, the end of new memory. -/
inductive Allocates (size : ℕ) : List Tile → List Tile → ℕ → Prop
  | fit (l₁ l₂ : List Tile) (n : ℕ) : size ≤ n →
      Allocates size (l₁ ++ ⟨true, n⟩ :: l₂) (l₁ ++ (carve n size ++ l₂)) (span l₁ + (n - size))
  | grow (ts : List Tile) (n : ℕ) : 0 < n → (∀ b ∈ blocks true 0 ts, b.size < size) →
      Allocates size ts (release ts n [⟨false, size⟩]) (span ts + n)

namespace Allocates

/-- **Allocation adds one used block** and moves none. -/
theorem perm (h : Allocates size ts us o) :
    (blocks false 0 us).Perm (⟨o, size⟩ :: blocks false 0 ts) := by
  cases h with
  | fit l₁ l₂ n hn =>
    rw [blocks_append, blocks_append, blocks_append, blocks_false_carve, span_carve hn,
      blocks_false_cons_free, Nat.zero_add, List.singleton_append]
    exact List.perm_middle
  | grow ts n hn hsmall =>
    rw [blocks_release, blocks_cons_self, blocks_nil, Nat.zero_add]
    exact List.perm_append_singleton _ _

theorem positive (h : Allocates size ts us o) (hts : Positive ts) (hsize : 0 < size) :
    Positive us := by
  cases h with
  | fit l₁ l₂ n hn =>
    obtain ⟨h₁, h₂⟩ := positive_append.mp hts
    refine positive_append.mpr ⟨h₁, positive_append.mpr ⟨?_, (positive_cons.mp h₂).2⟩⟩
    rw [carve]
    split_ifs
    · simpa using hsize
    · simp only [positive_cons, positive_nil, and_true]
      omega
  | grow ts n hn hsmall => exact positive_release hts (by simpa using hsize) hn

theorem coalesced (h : Allocates size ts us o) (hts : Coalesced ts) : Coalesced us := by
  cases h with
  | fit l₁ l₂ n hn =>
    obtain ⟨h₁, h₂, hlast, -⟩ := coalesced_free.mp hts
    rw [carve]
    split_ifs
    · exact coalesced_used.mpr ⟨h₁, h₂⟩
    · have hused : Coalesced ((l₁ ++ [⟨true, n - size⟩]) ++ ⟨false, size⟩ :: l₂) :=
        coalesced_used.mpr ⟨coalesced_free.mpr ⟨h₁, List.isChain_nil, hlast, by simp [UsedFirst]⟩, h₂⟩
      simpa using hused
  | grow ts n hn hsmall => exact coalesced_release hts (List.isChain_singleton _)

/-- The new block lies inside the memory. -/
theorem stop_le (h : Allocates size ts us o) : o + size ≤ span us := by
  have hmem : (⟨o, size⟩ : Block) ∈ blocks false 0 us := h.perm.mem_iff.mpr List.mem_cons_self
  simpa using (blocks_bounds hmem).2

theorem span_le (h : Allocates size ts us o) : span ts ≤ span us := by
  cases h with
  | fit l₁ l₂ n hn => simp [span_carve hn]
  | grow ts n hn hsmall => rw [span_release, Nat.add_assoc]; exact Nat.le_add_right _ _

/-- The new block shares no address with the others. -/
theorem disjoint (h : Allocates size ts us o) (hb : b ∈ blocks false 0 ts) :
    (⟨o, size⟩ : Block).Disjoint b := by
  have hpair : (blocks false 0 us).Pairwise Block.Disjoint := blocks_sorted.imp fun hab => Or.inl hab
  have hall := (h.perm.pairwise_iff fun hab => hab.symm).mp hpair
  exact (List.pairwise_cons.mp hall).1 b hb

end Allocates

end Tiling

end VeritableLasagna
