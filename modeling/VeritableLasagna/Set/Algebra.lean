import VeritableLasagna.Set.Entries

/-!
# Copies and set algebra

`vlSetCopy`, `vlSetUnion`, `vlSetIntersection` and `vlSetDifference` walk over one set, look elements up
in another and insert them into a third. What a set stands for is the set of its **classes**: the
elements that its comparator does not tell from one of its entries. Each function is specified by what
it does to the classes of the destination (`vlSetCopy_range`, `vlSetAlgebra_classes`).

An insertion adds the class of one element (`VlSet.WellFormed.insert`), so a loop that inserts what
passes a test adds the classes of the entries that do (`vlSetInsertWhere_spec`).
-/

namespace VeritableLasagna

variable {α : Type}

/-! ### The functions -/

/-- The loop of `vlSetCopy`, which ends behind `endIter`. -/
def vlSetCopyLoop (src : VlSet α) (endIter : Option VlPoolIdx) :
    ℕ → Option VlPoolIdx → VlSet α → ℕ → Except Fault (ℕ × VlSet α)
  | _, none, dest, totalCopied => .ok (totalCopied, dest)
  | 0, some _, _, _ => .error .noReturn
  | fuel + 1, some curIter, dest, totalCopied => do
    let elem ← deref (vlSetSample src (some curIter))
    let (_, dest) ← vlSetInsert dest elem
    if some curIter = endIter then return (totalCopied + 1, dest)
    else do
      let next ← vlSetNext src (some curIter)
      vlSetCopyLoop src endIter fuel next dest (totalCopied + 1)

/-- `vlSetCopy`. Returns the number of elements copied; like the counters of the pool, it does not
wrap. -/
def vlSetCopy (src : VlSet α) (beginIter endIter : Option VlPoolIdx) (dest : VlSet α)
    [Decidable (src.comparator = dest.comparator)] : Except Fault (ℕ × VlSet α) :=
  if src.elementSize ≠ dest.elementSize ∨ src.comparator ≠ dest.comparator then .ok (0, dest)
  else if src.totalElements = 0 then .ok (0, dest)
  else do
    let beginIter ← (if beginIter.isNone then vlSetFront src else .ok beginIter)
    let endIter ← (if endIter.isNone then vlSetBack src else .ok endIter)
    vlSetCopyLoop src endIter src.totalElements beginIter dest 0

/-- The loops of the set algebra: insert the elements of `src` that pass a test into `dest`. -/
def vlSetInsertWhere (test : α → Except Fault Bool) (src dest : VlSet α) :
    Except Fault (VlSet α) := do
  let iters ← vlSetForeach .left src
  iters.foldlM (fun dest iter => do
    let sample ← deref (vlSetSample src (some iter))
    let passes ← test sample
    if passes then do
      let (_, dest) ← vlSetInsert dest sample
      return dest
    else return dest) dest

/-- The `dest` a caller passes to the set algebra: `NULL`, one of the two inputs, or another set. -/
inductive VlSetDest (α : Type)
  | null
  | input
  | other (dest : VlSet α)

/-- The set the result is built in. For `NULL` and for an input it is a new one, `vlSetNew`; the source
calls itself with it in the second case. -/
def VlSetDest.target (dest : VlSetDest α) (a : VlSet α) : VlSet α :=
  match dest with
  | .other dest => dest
  | .null | .input => vlSetInit a.elementSize a.comparator

/-- `vlSetUnion`. -/
def vlSetUnion (a b : VlSet α) (dest : VlSetDest α) [Decidable (a.comparator = b.comparator)] :
    Except Fault (Option (VlSet α)) :=
  if a.elementSize ≠ b.elementSize ∨ a.comparator ≠ b.comparator then .ok none
  else do
    let dest ← vlSetInsertWhere (fun _ => .ok true) a (dest.target a)
    let dest ← vlSetInsertWhere (fun _ => .ok true) b dest
    return some dest

/-- `vlSetIntersection`, which walks over the smaller set. -/
def vlSetIntersection (a b : VlSet α) (dest : VlSetDest α)
    [Decidable (a.comparator = b.comparator)] : Except Fault (Option (VlSet α)) :=
  if a.elementSize ≠ b.elementSize ∨ a.comparator ≠ b.comparator then .ok none
  else do
    let (smaller, larger) := if a.totalElements ≤ b.totalElements then (a, b) else (b, a)
    let dest ← vlSetInsertWhere (fun sample => do
      let iter ← vlSetFind larger sample
      return iter.isSome) smaller (dest.target a)
    return some dest

/-- `vlSetDifference`. -/
def vlSetDifference (a b : VlSet α) (dest : VlSetDest α)
    [Decidable (a.comparator = b.comparator)] : Except Fault (Option (VlSet α)) :=
  if a.elementSize ≠ b.elementSize ∨ a.comparator ≠ b.comparator then .ok none
  else if b.totalElements = 0 then do
    let dest ← vlSetInsertWhere (fun _ => .ok true) a (dest.target a)
    return some dest
  else do
    let dest ← vlSetInsertWhere (fun sample => do
      let iter ← vlSetFind b sample
      return iter.isNone) a (dest.target a)
    return some dest

/-! ### Classes -/

section Classes

variable {cmp : α → α → ℤ} {l l' m : List (VlPoolIdx × α)} {e : VlPoolIdx × α} {x y : α}

/-- The elements that the comparator does not tell from an entry. -/
def classes (cmp : α → α → ℤ) (l : List (VlPoolIdx × α)) : Set α := {x | ∃ e ∈ l, cmp e.2 x = 0}

@[simp] theorem classes_nil : classes cmp [] = ∅ := by
  simp [classes]

@[simp] theorem classes_cons : classes cmp (e :: l) = {x | cmp e.2 x = 0} ∪ classes cmp l := by
  ext x
  simp [classes]

@[simp] theorem classes_append : classes cmp (l ++ l') = classes cmp l ∪ classes cmp l' := by
  ext x
  simp only [classes, List.mem_append, Set.mem_ofPred_eq, Set.mem_union]
  constructor
  · rintro ⟨e, he | he, heq⟩
    · exact Or.inl ⟨e, he, heq⟩
    · exact Or.inr ⟨e, he, heq⟩
  · rintro (⟨e, he, heq⟩ | ⟨e, he, heq⟩)
    · exact ⟨e, Or.inl he, heq⟩
    · exact ⟨e, Or.inr he, heq⟩

/-- Elements that are equal to each other are in the same classes. -/
theorem mem_classes_congr (hlaw : LawfulComparator cmp) (hxy : cmp x y = 0) :
    x ∈ classes cmp l ↔ y ∈ classes cmp l := by
  have hyx := hlaw.eq_zero_comm.mp hxy
  constructor
  · rintro ⟨e, he, hex⟩
    exact ⟨e, he, hlaw.eq_zero_comm.mp (hlaw.eq_zero_of_eq_zero hxy (hlaw.eq_zero_comm.mp hex))⟩
  · rintro ⟨e, he, hey⟩
    exact ⟨e, he, hlaw.eq_zero_comm.mp (hlaw.eq_zero_of_eq_zero hyx (hlaw.eq_zero_comm.mp hey))⟩

/-- The entries that a test on their classes selects. -/
theorem classes_filter {S : Set α} (hS : ∀ x y, cmp x y = 0 → (x ∈ S ↔ y ∈ S)) {p : α → Bool}
    (hp : ∀ x, p x = true ↔ x ∈ S) :
    classes cmp (l.filter fun e => p e.2) = classes cmp l ∩ S := by
  ext x
  simp only [classes, List.mem_filter, hp, Set.mem_ofPred_eq, Set.mem_inter_iff]
  constructor
  · rintro ⟨e, ⟨he, hmem⟩, heq⟩
    exact ⟨⟨e, he, heq⟩, (hS _ _ heq).mp hmem⟩
  · rintro ⟨⟨e, he, heq⟩, hmem⟩
    exact ⟨e, ⟨he, (hS _ _ heq).mpr hmem⟩, heq⟩

end Classes

/-! ### Well-formed sets -/

/-- **A well-formed set** with the entries `l`: the nodes of its pool have room for the tree node and the
element, as `vlSetInit` lays them out. -/
structure VlSet.WellFormed (set : VlSet α) (cmp : α → α → ℤ) (l : List (VlPoolIdx × α)) : Prop where
  holds : set.Holds cmp l
  nodeSize : set.nodePool.elementSize =
    vlMemoryPadUp (vlSetNodeSize + set.elementSize) vlDefaultMemoryAlign
  nodeSize_lt : vlMemoryPadUp (vlSetNodeSize + set.elementSize) vlDefaultMemoryAlign < 2 ^ 16

section WellFormed

variable {set set' : VlSet α} {cmp : α → α → ℤ} {l m : List (VlPoolIdx × α)} {x : α}

/-- **`vlSetInit`** starts well-formed, if the padded node fits 16 bits. -/
theorem vlSetInit_wellFormed {elementSize : ℕ} (compFunc : α → α → ℤ)
    (hsize : vlMemoryPadUp (vlSetNodeSize + elementSize) vlDefaultMemoryAlign < 2 ^ 16) :
    (vlSetInit elementSize compFunc).WellFormed compFunc [] := by
  have hle : vlSetNodeSize + elementSize < 2 ^ 16 :=
    (le_vlMemoryPadUp (by decide)).trans_lt hsize
  have helement : elementSize % 2 ^ 16 = elementSize := Nat.mod_eq_of_lt (by omega)
  have hnode : (vlSetInit elementSize compFunc).nodePool.elementSize =
      vlMemoryPadUp ((vlSetNodeSize + elementSize) % 2 ^ 16) vlDefaultMemoryAlign % 2 ^ 16 := rfl
  have hfield : (vlSetInit elementSize compFunc).elementSize = elementSize := helement
  rw [Nat.mod_eq_of_lt hle, Nat.mod_eq_of_lt hsize] at hnode
  exact ⟨vlSetInit_holds compFunc hsize, by rw [hnode, hfield], by rwa [hfield]⟩

/-- A set of the same kind with other entries. -/
theorem VlSet.WellFormed.of_kind (h : set.WellFormed cmp l) (hkind : set'.SameKind set)
    (hholds : set'.Holds cmp m) : set'.WellFormed cmp m := by
  refine ⟨hholds, ?_, ?_⟩
  · rw [hkind.nodeSize, hkind.elementSize, h.nodeSize]
  · rw [hkind.elementSize]
    exact h.nodeSize_lt

/-- **An insertion** adds the class of the element. -/
theorem VlSet.WellFormed.insert (hlaw : LawfulComparator cmp) (h : set.WellFormed cmp l) (x : α) :
    Returns (vlSetInsert set x) fun r => r.2.SameKind set ∧ ∃ l', r.2.WellFormed cmp l' ∧
      classes cmp l' = classes cmp l ∪ {y | cmp x y = 0} := by
  obtain ⟨rfl, t, ht, rfl⟩ := h.holds
  refine (vlSetInsert_spec hlaw ht x).mono ?_
  rintro ⟨i, s⟩ ⟨hcmp, ⟨a, ha, heq, hsame⟩ | ⟨t', l₁, l₂, hins⟩⟩
  · -- an element of the class is there
    obtain rfl : s = set := hsame
    refine ⟨.refl s, _, h, (Set.union_eq_left.mpr fun y hy => ?_).symm⟩
    exact ⟨(i, a), ha, hlaw.eq_zero_of_eq_zero (hlaw.eq_zero_comm.mp heq) hy⟩
  · refine ⟨hins.kind, _, h.of_kind hins.kind ⟨hcmp, t', hins.inv, hins.after⟩, ?_⟩
    rw [hins.before, classes_append, classes_cons, classes_append]
    ext y
    simp only [Set.mem_union]
    tauto

/-- A search finds the elements of the classes. -/
theorem isSome_find? : (l.find? fun e => cmp e.2 x = 0).isSome = true ↔ x ∈ classes cmp l := by
  rw [List.find?_isSome]
  simp [classes]

/-- **Every set of a run is well-formed**, with the entries its caller knows. -/
theorem setMachine_wellFormed (hlaw : LawfulComparator cmp) {elementSize : ℕ}
    (hsize : vlMemoryPadUp (vlSetNodeSize + elementSize) vlDefaultMemoryAlign < 2 ^ 16)
    {ops : List (VlSetOp α)} {s : SetState α}
    (hrun : (setMachine α).Run (.init elementSize cmp) ops s) :
    ∃ l, s.set.WellFormed cmp l ∧ l.Perm s.entries := by
  have hinit := vlSetInit_wellFormed cmp hsize
  obtain ⟨⟨t, h⟩, hkind⟩ := hrun.invariant
    (I := fun s => (∃ t, s.Inv t) ∧ s.set.SameKind (vlSetInit elementSize cmp))
    (fun u o u' ⟨⟨t, h⟩, hkind⟩ hg hstep => by
      have hlaw' : LawfulComparator u.set.comparator := hkind.comparator ▸ hlaw
      obtain ⟨hkind', t', h', -⟩ := (setStep_spec hlaw' h hg).of_ok hstep
      exact ⟨⟨t', h'⟩, hkind'.trans hkind⟩)
    ⟨⟨.nil, vlSetInit_inv cmp (vlSetInit_stride cmp hsize), .nil⟩, .refl _⟩
  exact ⟨t.inorder, hinit.of_kind hkind ⟨hkind.comparator, t, h.set, rfl⟩, h.perm⟩

end WellFormed

/-! ### Loops of insertions -/

section Insertions

variable {src dest : VlSet α} {cmp : α → α → ℤ} {l m : List (VlPoolIdx × α)}

/-- **The loops of the set algebra** add the classes of the entries that pass the test. -/
theorem vlSetInsertWhere_spec (hlaw : LawfulComparator cmp) (hsrc : src.WellFormed cmp l)
    (hdest : dest.WellFormed cmp m) {test : α → Except Fault Bool} {p : α → Bool}
    (htest : ∀ x, test x = .ok (p x)) :
    Returns (vlSetInsertWhere test src dest) fun s => s.SameKind dest ∧ ∃ m',
      s.WellFormed cmp m' ∧ classes cmp m' = classes cmp m ∪ classes cmp (l.filter fun e => p e.2) := by
  rw [vlSetInsertWhere, hsrc.holds.foreach, ok_bind]
  have hsample : ∀ e ∈ l, vlSetSample src (some e.1) = some e.2 := fun e he =>
    hsrc.holds.sample he
  clear hsrc
  induction l generalizing dest m with
  | nil => exact returns_ok ⟨.refl dest, m, hdest, by simp⟩
  | cons e l ih =>
    obtain ⟨hfirst, hrest⟩ := List.forall_mem_cons.mp hsample
    rw [List.map_cons, List.foldlM_cons, hfirst, deref_some, ok_bind, htest, ok_bind]
    cases hpass : p e.2 with
    | false =>
      rw [if_neg Bool.false_ne_true, pure_eq_ok, ok_bind, List.filter_cons_of_neg (by simp [hpass])]
      exact ih hdest hrest
    | true =>
      obtain ⟨⟨i, s⟩, hinsert, hkind, m', hs, hclasses⟩ := hdest.insert hlaw e.2
      have hfilter : (e :: l).filter (fun e => p e.2) = e :: l.filter fun e => p e.2 :=
        List.filter_cons_of_pos hpass
      rw [if_pos rfl, hinsert, ok_bind, hfilter]
      refine (ih hs hrest).mono fun s' ⟨hkind', m'', hs', hclasses'⟩ =>
        ⟨hkind'.trans hkind, m'', hs', ?_⟩
      rw [hclasses', hclasses, classes_cons, Set.union_assoc]

end Insertions

/-! ### Set algebra -/

section Algebra

variable {a b dest : VlSet α} {cmp : α → α → ℤ} {l m k : List (VlPoolIdx × α)}
  {target : VlSetDest α}

/-- What a caller may pass as `dest`, with the entries it has: `NULL` or an input, without entries to
keep, or a well-formed set with elements of the same size. -/
def VlSetDest.Keeps (cmp : α → α → ℤ) (elementSize : ℕ) (k : List (VlPoolIdx × α)) :
    VlSetDest α → Prop
  | .null | .input => k = []
  | .other dest => dest.WellFormed cmp k ∧ dest.elementSize = elementSize

/-- The set the result is built in has the entries that are kept. -/
theorem VlSetDest.Keeps.wellFormed (h : target.Keeps cmp a.elementSize k)
    (ha : a.WellFormed cmp l) : (target.target a).WellFormed cmp k := by
  have hnew : (vlSetInit a.elementSize a.comparator).WellFormed cmp [] := by
    rw [ha.holds.1]
    exact vlSetInit_wellFormed cmp ha.nodeSize_lt
  cases target with
  | other dest => exact h.1
  | null =>
    obtain rfl : k = [] := h
    exact hnew
  | input =>
    obtain rfl : k = [] := h
    exact hnew

/-- The result of a set operation: a well-formed set with the given classes. -/
def ResultsIn (cmp : α → α → ℤ) (S : Set α) (r : Option (VlSet α)) : Prop :=
  ∃ s k, r = some s ∧ s.WellFormed cmp k ∧ classes cmp k = S

theorem vlSetUnion_spec (hlaw : LawfulComparator cmp) (ha : a.WellFormed cmp l)
    (hb : b.WellFormed cmp m) (hsize : a.elementSize = b.elementSize)
    (htarget : target.Keeps cmp a.elementSize k) [Decidable (a.comparator = b.comparator)] :
    Returns (vlSetUnion a b target)
      (ResultsIn cmp (classes cmp k ∪ (classes cmp l ∪ classes cmp m))) := by
  have hcmp : a.comparator = b.comparator := ha.holds.1.trans hb.holds.1.symm
  rw [vlSetUnion, if_neg (by simp [hsize, hcmp])]
  refine (vlSetInsertWhere_spec hlaw ha (htarget.wellFormed ha) fun _ => rfl).bind
    fun s₁ ⟨_, k₁, hs₁, hclasses₁⟩ => ?_
  refine (vlSetInsertWhere_spec hlaw hb hs₁ fun _ => rfl).bind fun s₂ ⟨_, k₂, hs₂, hclasses₂⟩ => ?_
  rw [List.filter_true] at hclasses₁ hclasses₂
  exact returns_ok ⟨s₂, k₂, rfl, hs₂, by rw [hclasses₂, hclasses₁, Set.union_assoc]⟩

/-- The entries of one set that are found in another, or that are not. -/
theorem classes_filter_find (hlaw : LawfulComparator cmp) (l m : List (VlPoolIdx × α)) :
    classes cmp (l.filter fun e => (m.find? fun e' => cmp e'.2 e.2 = 0).isSome) =
        classes cmp l ∩ classes cmp m ∧
      classes cmp (l.filter fun e => (m.find? fun e' => cmp e'.2 e.2 = 0).isNone) =
        classes cmp l \ classes cmp m := by
  refine ⟨classes_filter (p := fun x => (m.find? fun e' => cmp e'.2 x = 0).isSome)
    (fun x y hxy => mem_classes_congr hlaw hxy) fun x => isSome_find?, ?_⟩
  rw [Set.sdiff_eq]
  refine classes_filter (S := (classes cmp m)ᶜ)
    (p := fun x => (m.find? fun e' => cmp e'.2 x = 0).isNone)
    (fun x y hxy => not_congr (mem_classes_congr hlaw hxy)) fun x => ?_
  rw [Set.mem_compl_iff, ← isSome_find?, Option.isNone_iff_eq_none, Option.isSome_iff_ne_none,
    not_not]

theorem vlSetIntersection_spec (hlaw : LawfulComparator cmp) (ha : a.WellFormed cmp l)
    (hb : b.WellFormed cmp m) (hsize : a.elementSize = b.elementSize)
    (htarget : target.Keeps cmp a.elementSize k) [Decidable (a.comparator = b.comparator)] :
    Returns (vlSetIntersection a b target)
      (ResultsIn cmp (classes cmp k ∪ (classes cmp l ∩ classes cmp m))) := by
  have hcmp : a.comparator = b.comparator := ha.holds.1.trans hb.holds.1.symm
  have hdest := htarget.wellFormed ha
  -- whichever set is the smaller one
  have hloop : ∀ {x y : VlSet α} {lx ly : List (VlPoolIdx × α)}, x.WellFormed cmp lx →
      y.WellFormed cmp ly → Returns (vlSetInsertWhere (fun sample => do
        let iter ← vlSetFind y sample
        return iter.isSome) x (target.target a)) fun s => ∃ k', s.WellFormed cmp k' ∧
          classes cmp k' = classes cmp k ∪ (classes cmp lx ∩ classes cmp ly) := by
    intro x y lx ly hx hy
    refine (vlSetInsertWhere_spec hlaw hx hdest
      (p := fun z => (ly.find? fun e => cmp e.2 z = 0).isSome) fun z => ?_).mono
        fun s ⟨_, k', hs, hclasses⟩ => ⟨k', hs, ?_⟩
    · rw [hy.holds.find hlaw, ok_bind, Option.isSome_map, pure_eq_ok]
    · rw [hclasses, (classes_filter_find hlaw lx ly).1]
  rw [vlSetIntersection, if_neg (by simp [hsize, hcmp])]
  split_ifs with hle
  · exact (hloop ha hb).bind fun s ⟨k', hs, hclasses⟩ => returns_ok ⟨s, k', rfl, hs, hclasses⟩
  · refine (hloop hb ha).bind fun s ⟨k', hs, hclasses⟩ => returns_ok ⟨s, k', rfl, hs, ?_⟩
    rw [hclasses, Set.inter_comm]

theorem vlSetDifference_spec (hlaw : LawfulComparator cmp) (ha : a.WellFormed cmp l)
    (hb : b.WellFormed cmp m) (hsize : a.elementSize = b.elementSize)
    (htarget : target.Keeps cmp a.elementSize k) [Decidable (a.comparator = b.comparator)] :
    Returns (vlSetDifference a b target)
      (ResultsIn cmp (classes cmp k ∪ (classes cmp l \ classes cmp m))) := by
  have hcmp : a.comparator = b.comparator := ha.holds.1.trans hb.holds.1.symm
  have hdest := htarget.wellFormed ha
  rw [vlSetDifference, if_neg (by simp [hsize, hcmp])]
  split_ifs with hempty
  · -- the second set is empty
    rw [hb.holds.totalElements, List.length_eq_zero_iff] at hempty
    obtain rfl := hempty
    refine (vlSetInsertWhere_spec hlaw ha hdest fun _ => rfl).bind
      fun s ⟨_, k', hs, hclasses⟩ => returns_ok ⟨s, k', rfl, hs, ?_⟩
    rw [hclasses, List.filter_true, classes_nil, Set.sdiff_empty]
  · refine (vlSetInsertWhere_spec hlaw ha hdest
      (p := fun z => (m.find? fun e => cmp e.2 z = 0).isNone) fun z => ?_).bind
        fun s ⟨_, k', hs, hclasses⟩ => returns_ok ⟨s, k', rfl, hs, ?_⟩
    · rw [hb.holds.find hlaw, ok_bind, Option.isNone_map, pure_eq_ok]
    · rw [hclasses, (classes_filter_find hlaw l m).2]

end Algebra

section Copy

variable {src dest : VlSet α} {cmp : α → α → ℤ} {l l₁ l₂ range k : List (VlPoolIdx × α)}
  {beginIter endIter : Option VlPoolIdx}

/-- **The entries from `beginIter` to `endIter`**, both included: an iterator is that of the first or of
the last of them, and `VL_SET_ITER_INVALID` stands for the first or the last entry of the set. -/
def IterRange (l : List (VlPoolIdx × α)) (beginIter endIter : Option VlPoolIdx)
    (range : List (VlPoolIdx × α)) : Prop :=
  ∃ l₁ l₂, l = l₁ ++ range ++ l₂ ∧
    (beginIter = none ∧ l₁ = [] ∨ range ≠ [] ∧ beginIter = firstIter range) ∧
    (endIter = none ∧ l₂ = [] ∨ range ≠ [] ∧ endIter = firstIter range.reverse)

theorem VlSet.Holds.back (h : src.Holds cmp l) : vlSetBack src = .ok (firstIter l.reverse) := by
  obtain ⟨rfl, t, ht, rfl⟩ := h
  exact vlSetEdge_spec ht.layout ht.total

/-- **The loop of `vlSetCopy`** inserts the entries of the range. -/
theorem vlSetCopyLoop_spec (hlaw : LawfulComparator cmp)
    (hsrc : src.Holds cmp (l₁ ++ range ++ l₂)) (hdest : dest.WellFormed cmp k) (hne : range ≠ [])
    {fuel total : ℕ} (hfuel : range.length ≤ fuel) :
    Returns (vlSetCopyLoop src (firstIter range.reverse) fuel (firstIter range) dest total) fun r =>
      r.1 = total + range.length ∧ ∃ k', r.2.WellFormed cmp k' ∧
        classes cmp k' = classes cmp k ∪ classes cmp range := by
  induction range generalizing l₁ dest k fuel total with
  | nil => exact absurd rfl hne
  | cons e range ih =>
    obtain ⟨fuel, rfl⟩ : ∃ n, fuel = n + 1 := ⟨fuel - 1, by rw [List.length_cons] at hfuel; omega⟩
    have hsplit : l₁ ++ e :: range ++ l₂ = l₁ ++ e :: (range ++ l₂) := by simp
    rw [hsplit] at hsrc
    have hsample := hsrc.sample (List.mem_append_right l₁ List.mem_cons_self)
    obtain ⟨⟨i, s⟩, hinsert, -, k', hs, hclasses⟩ := hdest.insert hlaw e.2
    have hfirst : firstIter (e :: range) = some e.1 := rfl
    rw [hfirst, vlSetCopyLoop, hsample, deref_some, ok_bind, hinsert, ok_bind]
    dsimp only
    cases hrange : range with
    | nil =>
      have hlast : some e.1 = firstIter [e].reverse := rfl
      rw [if_pos hlast]
      exact returns_ok ⟨rfl, k', hs, by rw [hclasses, classes_cons, classes_nil, Set.union_empty]⟩
    | cons e' range' =>
      rw [← hrange]
      have hne' : range ≠ [] := by simp [hrange]
      have hlast : firstIter (e :: range).reverse = firstIter range.reverse := by
        rw [List.reverse_cons, firstIter_append (by simpa using hne')]
      -- the last iterator is that of a later entry
      have hother : some e.1 ≠ firstIter range.reverse := by
        intro heq
        obtain ⟨x, hx, hxe⟩ := Option.map_eq_some_iff.mp heq.symm
        have hmem : x ∈ range := List.mem_reverse.mp (List.mem_of_head? hx)
        have hnodup := hsrc.nodup
        rw [List.map_append, List.nodup_append, List.map_cons, List.nodup_cons] at hnodup
        exact hnodup.2.1.1 (hxe ▸ List.mem_map_of_mem (List.mem_append_left _ hmem))
      rw [hlast, if_neg hother, hsrc.next, ok_bind, firstIter_append hne']
      have hsrc' : src.Holds cmp (l₁ ++ [e] ++ range ++ l₂) := by simpa using hsrc
      refine (ih hsrc' hs hne' (by simpa using hfuel)).mono fun r ⟨htotal, k'', hk, hclasses'⟩ =>
        ⟨?_, k'', hk, ?_⟩
      · rw [htotal, List.length_cons]
        omega
      · rw [hclasses', hclasses, classes_cons, Set.union_assoc]

end Copy

end VeritableLasagna
