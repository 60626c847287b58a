import VeritableLasagna.Set.Remove

/-!
# Runs of the set

A run starts at `vlSetInit` and inserts, removes live iterators, removes present elements and
clears, in any order. Next to the set, a state keeps the entries a mathematical set would hold:
the elements inserted and not removed, each with the iterator its insertion returned.

`VlSet.Represents` says that the set behaves as those entries do. `vlSet_represents` shows it of
every state a run reaches, for every lawful comparator, as long as the stride of the pool did not
wrap to zero; `vlSet_redBlack` shows that the tree is red-black as long as every removal passes
`vlSetRemovesSafely`.
-/

namespace VeritableLasagna

open ColorTree

variable {α : Type} {set : VlSet α} {t : ColorTree (VlPoolIdx × α)}

/-- The operations of a caller of the set. -/
inductive VlSetOp (α : Type)
  | insert (elem : α)
  | remove (iter : VlPoolIdx)
  | removeElem (elem : α)
  | clear

/-- A set together with the entries inserted and not removed, newest first. -/
structure SetState (α : Type) where
  set : VlSet α
  entries : List (VlPoolIdx × α)

/-- The state after `vlSetInit`. -/
def SetState.init (elementSize : ℕ) (compFunc : α → α → ℤ) : SetState α :=
  ⟨vlSetInit elementSize compFunc, []⟩

/-- One operation, with the bookkeeping of the entries: an element equal to one already there is
not added. -/
def setStep (s : SetState α) : VlSetOp α → Except Fault (SetState α)
  | .insert elem => do
    let (iter, set) ← vlSetInsert s.set elem
    return ⟨set, if ∃ e ∈ s.entries, s.set.comparator e.2 elem = 0 then s.entries
      else (iter, elem) :: s.entries⟩
  | .remove iter => do
    let set ← vlSetRemove s.set (some iter)
    return ⟨set, s.entries.filter (·.1 ≠ iter)⟩
  | .removeElem elem => do
    let set ← vlSetRemoveElem s.set elem
    return ⟨set, s.entries.filter (s.set.comparator ·.2 elem ≠ 0)⟩
  | .clear => do
    let set ← vlSetClear s.set
    return ⟨set, []⟩

/-- The set as a machine: only live iterators and present elements may be removed. -/
def setMachine (α : Type) : Machine (SetState α) (VlSetOp α) where
  guard s
    | .remove iter => iter ∈ s.entries.map Prod.fst
    | .removeElem elem => ∃ e ∈ s.entries, s.set.comparator e.2 elem = 0
    | _ => True
  step := setStep

instance (s : SetState α) : ∀ o, Decidable ((setMachine α).guard s o)
  | .remove iter => inferInstanceAs (Decidable (iter ∈ s.entries.map Prod.fst))
  | .removeElem elem =>
    inferInstanceAs (Decidable (∃ e ∈ s.entries, s.set.comparator e.2 elem = 0))
  | .insert _ | .clear => inferInstanceAs (Decidable True)

/-- The set behaves as the finite set of the given entries. -/
structure VlSet.Represents (set : VlSet α) (entries : List (VlPoolIdx × α)) : Prop where
  distinct : entries.Pairwise fun e e' => set.comparator e.2 e'.2 ≠ 0
  total : set.totalElements = entries.length
  sample : ∀ e ∈ entries, vlSetSample set (some e.1) = some e.2
  find_present : ∀ e ∈ entries, ∀ x, set.comparator e.2 x = 0 → vlSetFind set x = .ok (some e.1)
  find_absent : ∀ x, (∀ e ∈ entries, set.comparator e.2 x ≠ 0) → vlSetFind set x = .ok none
  traversal : ∃ sorted : List (VlPoolIdx × α), sorted.Perm entries ∧
    StrictSorted (entryCompare set.comparator) sorted ∧
    vlSetForeach .left set = .ok (sorted.map Prod.fst) ∧
    vlSetForeach .right set = .ok (sorted.reverse.map Prod.fst)

/-- In a strictly sorted list, an element looked for is found if an equal one is there. -/
private theorem find?_eq_of_equal {cmp : α → α → ℤ} (hlaw : LawfulComparator cmp)
    {l : List (VlPoolIdx × α)} (hsorted : StrictSorted (entryCompare cmp) l)
    {e : VlPoolIdx × α} (he : e ∈ l) {x : α} (hx : cmp e.2 x = 0) :
    l.find? (fun e => cmp e.2 x = 0) = some e := by
  obtain ⟨l₁, l₂, rfl⟩ := List.append_of_mem he
  have hbelow := (List.pairwise_append.mp hsorted).2.2
  refine List.find?_eq_some_iff_append.mpr ⟨by simpa using hx, l₁, l₂, rfl, fun a ha => ?_⟩
  have := hlaw.below (hbelow a ha e List.mem_cons_self) hx.le
  simp only [Bool.not_eq_true', decide_eq_false_iff_not]
  omega

/-- **The set refines the finite set** of its entries, whatever the balance of its tree. -/
theorem VlSet.Inv.represents (hlaw : LawfulComparator set.comparator) (h : set.Inv t)
    {entries : List (VlPoolIdx × α)} (hperm : t.inorder.Perm entries) :
    set.Represents entries := by
  have hlay := h.layout
  refine ⟨?_, ?_, fun e he => ?_, fun e he x hx => ?_, fun x hx => ?_,
    t.inorder, hperm, h.sorted, vlSetForeach_spec (d := .left) hlay h.total,
    vlSetForeach_spec (d := .right) hlay h.total⟩
  · refine (hperm.pairwise_iff fun {a b} hab hba => ?_).mp (h.sorted.imp fun hab => hab.ne)
    exact hab (hlaw.eq_zero_comm.mp hba)
  · rw [h.total, size, hperm.length_eq]
  · obtain ⟨fs, c, l, r, rfl⟩ := exists_plug_of_mem .left (hperm.mem_iff.mpr he)
    rw [vlSetSample, vlSetGetNodeAt_some, hlay.heap_focus]
    rfl
  · rw [vlSetFind_spec hlaw hlay h.total h.sorted,
      find?_eq_of_equal hlaw h.sorted (hperm.mem_iff.mpr he) hx]
    rfl
  · rw [vlSetFind_spec hlaw hlay h.total h.sorted, List.find?_eq_none.mpr fun e he => ?_]
    · rfl
    · simpa using hx e (hperm.mem_iff.mp he)

/-! ### Steps -/

/-- **`vlSetInit`** starts with the empty tree, as long as the stride of the pool is not zero. -/
theorem vlSetInit_inv {elementSize : ℕ} (compFunc : α → α → ℤ)
    (hstride : 0 < (vlSetInit elementSize compFunc).nodePool.elementSize) :
    (vlSetInit elementSize compFunc).Inv .nil :=
  ⟨vlPoolInitAligned_inv _ _, hstride, trivial, rfl, rfl, rfl, List.Pairwise.nil⟩

/-- **`vlSetClear`** leaves the empty tree. -/
theorem vlSetClear_spec (h : set.Inv t) :
    Returns (vlSetClear set) fun s' => s'.Inv .nil ∧ s'.SameKind set := by
  obtain ⟨pool, hclear, hinv, hsize⟩ := vlPoolClear_spec h.pool
  rw [vlSetClear, hclear, ok_bind]
  exact returns_ok ⟨⟨hinv, hsize ▸ h.stride, trivial, rfl, rfl, rfl, List.Pairwise.nil⟩,
    ⟨hsize, rfl, rfl⟩⟩

/-- The invariant of a state: the entries are those of the tree. -/
structure SetState.Inv (s : SetState α) (t : ColorTree (VlPoolIdx × α)) : Prop where
  set : s.set.Inv t
  perm : t.inorder.Perm s.entries

/-- Whether an operation is not a removal that breaks the balance of the tree. -/
def VlSetOp.safe (s : SetState α) : VlSetOp α → Bool
  | .remove iter => vlSetRemovesSafely s.set (some iter)
  | .removeElem elem =>
    match vlSetFind s.set elem with
    | .ok iter => vlSetRemovesSafely s.set iter
    | .error _ => true
  | .insert _ => true
  | .clear => true

/-- Filtering out the one entry a test fails on. -/
private theorem filter_middle {β : Type} {p : β → Bool} {l₁ l₂ : List β} {x : β}
    (hx : p x = false) (h₁ : ∀ y ∈ l₁, p y = true) (h₂ : ∀ y ∈ l₂, p y = true) :
    (l₁ ++ x :: l₂).filter p = l₁ ++ l₂ := by
  rw [List.filter_append, List.filter_cons_of_neg (by simp [hx]), List.filter_eq_self.mpr h₁,
    List.filter_eq_self.mpr h₂]

/-- The removal of one entry, whichever test singles it out. -/
private theorem remove_step {s : SetState α} (h : s.Inv t) {e : VlPoolIdx × α}
    (he : e ∈ s.entries) {p : VlPoolIdx × α → Bool} (hp : p e = false) (hother : ∀ e' ∈ s.entries, e'.1 ≠ e.1 → p e' = true) :
    Returns (vlSetRemove s.set (some e.1)) fun set' => set'.SameKind s.set ∧
      ∃ t', SetState.Inv ⟨set', s.entries.filter p⟩ t' ∧
        (RedBlack t → vlSetRemovesSafely s.set (some e.1) = true → RedBlack t') := by
  refine (vlSetRemove_spec h.set (h.perm.mem_iff.mpr he)).mono ?_
  rintro set' ⟨-, t', l₁, l₂, hrem⟩
  refine ⟨hrem.kind, t', ⟨hrem.inv, ?_⟩, hrem.redBlack⟩
  have hnd := h.set.pool.live_nodup
  rw [iters, hrem.before, List.map_append, List.map_cons, List.nodup_middle, List.nodup_cons,
    List.mem_append, not_or] at hnd
  have hne : ∀ e' ∈ l₁ ++ l₂, p e' = true := by
    intro e' he'
    have hmem : e' ∈ t.inorder := by
      rw [hrem.before, List.mem_append, List.mem_cons]
      rcases List.mem_append.mp he' with h' | h'
      · exact Or.inl h'
      · exact Or.inr (Or.inr h')
    refine hother e' (h.perm.mem_iff.mp hmem) fun heq => ?_
    rcases List.mem_append.mp he' with h' | h'
    · exact hnd.1.1 (heq ▸ List.mem_map_of_mem h')
    · exact hnd.1.2 (heq ▸ List.mem_map_of_mem h')
  have hfilter := filter_middle hp (fun y hy => hne y (List.mem_append_left _ hy))
    fun y hy => hne y (List.mem_append_right _ hy)
  change t'.inorder.Perm (s.entries.filter p)
  rw [hrem.after, ← hfilter, ← hrem.before]
  exact h.perm.filter p

/-- **Step lemma**: every guarded operation returns and keeps the invariant, and a safe one keeps
a red-black tree red-black. -/
theorem setStep_spec {s : SetState α} (hlaw : LawfulComparator s.set.comparator) (h : s.Inv t)
    {o : VlSetOp α} (hg : (setMachine α).guard s o) :
    Returns (setStep s o) fun s' => s'.set.SameKind s.set ∧
      ∃ t', s'.Inv t' ∧ (RedBlack t → o.safe s = true → RedBlack t') := by
  cases o with
  | insert elem =>
    refine (vlSetInsert_spec hlaw h.set elem).bind ?_
    rintro ⟨iter, set'⟩ ⟨-, ⟨a, ha, heq, rfl⟩ | ⟨t', l₁, l₂, hins⟩⟩
    · have hthere : ∃ e ∈ s.entries, s.set.comparator e.2 elem = 0 :=
        ⟨_, h.perm.mem_iff.mp ha, heq⟩
      dsimp only
      rw [if_pos hthere]
      exact returns_ok ⟨.refl s.set, t, h, fun hrb _ => hrb⟩
    · have habsent : ¬ ∃ e ∈ s.entries, s.set.comparator e.2 elem = 0 := by
        rintro ⟨e, he, heq⟩
        exact hins.absent e (h.perm.mem_iff.mpr he) heq
      dsimp only
      rw [if_neg habsent]
      refine returns_ok ⟨hins.kind, t', ⟨hins.inv, ?_⟩, fun hrb _ => hins.redBlack hrb⟩
      rw [hins.after]
      refine List.perm_middle.trans (List.Perm.cons _ ?_)
      rw [← hins.before]
      exact h.perm
  | remove iter =>
    obtain ⟨e, he, rfl⟩ := List.mem_map.mp hg
    have hstep := remove_step h he (p := fun e' => decide (e'.1 ≠ e.1)) (by simp)
      fun e' _ hne => by simpa using hne
    refine hstep.bind ?_
    rintro set' ⟨hkind, t', hinv, hrb⟩
    exact returns_ok ⟨hkind, t', hinv, hrb⟩
  | removeElem elem =>
    obtain ⟨e, he, heq⟩ := hg
    have hrep := h.set.represents hlaw h.perm
    have hfind := hrep.find_present e he elem heq
    have hother : ∀ e' ∈ s.entries, e'.1 ≠ e.1 →
        decide (s.set.comparator e'.2 elem ≠ 0) = true := by
      intro e' he' hne
      simp only [ne_eq, decide_eq_true_eq]
      intro heq'
      have hfind' := hrep.find_present e' he' elem heq'
      rw [hfind] at hfind'
      exact hne (Option.some.inj (Except.ok.inj hfind')).symm
    have hstep := remove_step h he (p := fun e' => decide (s.set.comparator e'.2 elem ≠ 0))
      (by simpa using heq) hother
    rw [setStep, vlSetRemoveElem, hfind, ok_bind]
    refine hstep.bind ?_
    rintro set' ⟨hkind, t', hinv, hrb⟩
    refine returns_ok ⟨hkind, t', hinv, fun hrb' hsafe => hrb hrb' ?_⟩
    rwa [VlSetOp.safe, hfind] at hsafe
  | clear =>
    refine (vlSetClear_spec h.set).bind fun set' ⟨hinv, hkind⟩ => ?_
    exact returns_ok ⟨hkind, .nil, ⟨hinv, .nil⟩, fun _ _ => ⟨rfl, 0, .nil⟩⟩

/-! ### Runs -/

/-- The set machine restricted to removals that do not break the balance of the tree. -/
def safeSetMachine (α : Type) : Machine (SetState α) (VlSetOp α) where
  guard s o := (setMachine α).guard s o ∧ o.safe s = true
  step := setStep

instance (s : SetState α) (o : VlSetOp α) : Decidable ((safeSetMachine α).guard s o) :=
  inferInstanceAs (Decidable ((setMachine α).guard s o ∧ o.safe s = true))

/-- The stride of the pool does not wrap to zero when the padded node fits 16 bits. -/
theorem vlSetInit_stride {elementSize : ℕ} (compFunc : α → α → ℤ)
    (hsize : vlMemoryPadUp (vlSetNodeSize + elementSize) vlDefaultMemoryAlign < 2 ^ 16) :
    0 < (vlSetInit elementSize compFunc).nodePool.elementSize := by
  change 0 < vlMemoryPadUp ((vlSetNodeSize + elementSize) % 2 ^ 16) vlDefaultMemoryAlign % 2 ^ 16
  simp only [vlMemoryPadUp, vlSetNodeSize, vlDefaultMemoryAlign] at hsize ⊢
  omega

/-- **Run lemma**: every state of a run satisfies the invariant. -/
theorem setMachine_inv {cmp : α → α → ℤ} (hlaw : LawfulComparator cmp) {elementSize : ℕ}
    (hsize : vlMemoryPadUp (vlSetNodeSize + elementSize) vlDefaultMemoryAlign < 2 ^ 16)
    {ops : List (VlSetOp α)} {s : SetState α}
    (hrun : (setMachine α).Run (.init elementSize cmp) ops s) :
    s.set.comparator = cmp ∧ ∃ t, s.Inv t := by
  refine hrun.invariant (I := fun s => s.set.comparator = cmp ∧ ∃ t, s.Inv t) ?_
    ⟨rfl, .nil, vlSetInit_inv cmp (vlSetInit_stride cmp hsize), .nil⟩
  rintro s o s' ⟨rfl, t, h⟩ hg hstep
  obtain ⟨hkind, t', h', -⟩ := (setStep_spec hlaw h hg).of_ok hstep
  exact ⟨hkind.comparator, t', h'⟩

/-- **Run lemma**: on a run of safe removals, the tree stays red-black. -/
theorem safeSetMachine_inv {cmp : α → α → ℤ} (hlaw : LawfulComparator cmp) {elementSize : ℕ}
    (hsize : vlMemoryPadUp (vlSetNodeSize + elementSize) vlDefaultMemoryAlign < 2 ^ 16)
    {ops : List (VlSetOp α)} {s : SetState α}
    (hrun : (safeSetMachine α).Run (.init elementSize cmp) ops s) :
    s.set.comparator = cmp ∧ ∃ t, s.Inv t ∧ RedBlack t := by
  refine hrun.invariant (I := fun s => s.set.comparator = cmp ∧ ∃ t, s.Inv t ∧ RedBlack t) ?_
    ⟨rfl, .nil, ⟨vlSetInit_inv cmp (vlSetInit_stride cmp hsize), .nil⟩, rfl, 0, .nil⟩
  rintro s o s' ⟨rfl, t, h, hrb⟩ ⟨hg, hsafe⟩ hstep
  obtain ⟨hkind, t', h', hrb'⟩ := (setStep_spec hlaw h hg).of_ok hstep
  exact ⟨hkind.comparator, t', h', hrb' hrb hsafe⟩

/-- The nodes of a set are linked as a tree. -/
def VlSet.IsTree (set : VlSet α) (t : ColorTree (VlPoolIdx × α)) : Prop :=
  Linked set.heap none t ∧ set.root = t.root

instance [DecidableEq α] : Decidable (set.IsTree t) :=
  inferInstanceAs (Decidable (Linked set.heap none t ∧ set.root = t.root))

/-- The comparator of integers by difference. -/
def intCompare (a b : ℤ) : ℤ := a - b

theorem intCompare_lawful : LawfulComparator intCompare :=
  ⟨fun a b => by simp only [intCompare]; omega, fun a b c => by simp only [intCompare]; omega⟩

/-- What the set promises for an element size: in every run, with every lawful comparator, it
represents the entries, and every guarded operation returns. -/
def VlSet.Refines (elementSize : ℕ) : Prop :=
  ∀ (α : Type) (cmp : α → α → ℤ), LawfulComparator cmp → ∀ ops s,
    (setMachine α).Run (.init elementSize cmp) ops s → s.set.Represents s.entries ∧
      ∀ o, (setMachine α).guard s o → ∃ s', (setMachine α).step s o = .ok s'

/-- With a stride of zero, all nodes of a block share one slot. The first rotation of the fixup
after a second insertion leaves the one node as its own parent and child, and every further round
leaves it the same: the loop does not end, whatever the cut-off. -/
theorem vlSetInsertFixup_shared_slot {p : Slot} {a : α}
    (h₀ : vlPoolSample set.nodePool ⟨0, 0⟩ = some p)
    (h₁ : vlPoolSample set.nodePool ⟨0, 1⟩ = some p) (hroot : set.root = some ⟨0, 0⟩)
    (hmem : set.mem p = some ⟨.red, some ⟨0, 1⟩, some ⟨0, 0⟩, some ⟨0, 1⟩, a⟩) (fuel : ℕ) :
    vlSetInsertFixup fuel set (some ⟨0, 1⟩) = .error .noReturn := by
  induction fuel generalizing set with
  | zero => rfl
  | succ fuel ih =>
    have hround : Returns (vlSetInsertFixupRound .right set (some ⟨0, 1⟩) (some ⟨0, 1⟩)
        (some ⟨0, 1⟩)) fun r => r.1 = some ⟨0, 1⟩ ∧ r.2.nodePool = set.nodePool ∧
          r.2.root = set.root ∧
          r.2.mem p = some ⟨.red, some ⟨0, 1⟩, some ⟨0, 0⟩, some ⟨0, 1⟩, a⟩ := by
      simp [Returns, vlSetInsertFixupRound, vlSetInsertRecolor, VlSet.modify, VlSet.node,
        vlSetGetNodeAt, VlSet.colorAt, VlSet.heap, LinkNode.child, LinkNode.setColor, Side.other,
        h₀, h₁, hmem]
    obtain ⟨⟨x, s⟩, hop, rfl, hpool, hroot', hmem'⟩ := hround
    have hnode : set.node (some ⟨0, 1⟩) =
        .ok ⟨.red, some ⟨0, 1⟩, some ⟨0, 0⟩, some ⟨0, 1⟩, a⟩ := by
      simp [VlSet.node, vlSetGetNodeAt, VlSet.heap, h₁, hmem]
    rw [vlSetInsertFixup, if_neg (by simp [hroot]), hnode, ok_bind, hnode, ok_bind]
    simp only [ne_eq, not_true, if_false]
    rw [hnode, ok_bind, if_neg (by simp), hop, ok_bind]
    exact ih (hpool ▸ h₀) (hpool ▸ h₁) (hroot'.trans hroot) hmem'

/-- With a stride of zero, the second insertion does not return. -/
private theorem insert_twice_diverges {elementSize : ℕ}
    (hfits : vlSetNodeSize + elementSize < 2 ^ 16)
    (hwraps : 2 ^ 16 ≤ vlMemoryPadUp (vlSetNodeSize + elementSize) vlDefaultMemoryAlign) :
    ∃ s, (setMachine ℤ).Run (.init elementSize intCompare) [.insert 1] s ∧
      (setMachine ℤ).step s (.insert 2) = .error .noReturn := by
  obtain ⟨s, hrun, hstep⟩ := Machine.exists_run_of_exec (M := setMachine ℤ)
    (s := .init elementSize intCompare)
    (p := fun s => match setStep s (.insert 2) with | .error .noReturn => true | _ => false)
    (show (Machine.exec _ _ [.insert 1]).any _ = true by
      simp only [vlMemoryPadUp, vlSetNodeSize, vlDefaultMemoryAlign] at hfits hwraps
      have hlow : 65497 ≤ elementSize := by omega
      have hhigh : elementSize ≤ 65503 := by omega
      interval_cases elementSize <;> decide +kernel)
  refine ⟨s, hrun, ?_⟩
  split at hstep
  · assumption
  · cases hstep

/-- The operation ends the life of the iterator, under which `elem` was inserted. -/
def VlSetOp.Ends (cmp : α → α → ℤ) (iter : VlPoolIdx) (elem : α) : VlSetOp α → Prop
  | .insert _ => False
  | .remove i => i = iter
  | .removeElem x => cmp elem x = 0
  | .clear => True

/-- An operation that does not end the life of an entry keeps it. -/
theorem setStep_keeps {s s' : SetState α} {o : VlSetOp α} (hlaw : LawfulComparator s.set.comparator)
    {e : VlPoolIdx × α} {elem : α} (he : e ∈ s.entries) (heq : s.set.comparator e.2 elem = 0)
    (hends : ¬ o.Ends s.set.comparator e.1 elem) (hstep : setStep s o = .ok s') :
    e ∈ s'.entries := by
  cases o with
  | insert x =>
    rw [setStep] at hstep
    cases hop : vlSetInsert s.set x with
    | error f =>
      rw [hop] at hstep
      cases hstep
    | ok r =>
      rw [hop] at hstep
      obtain rfl := Except.ok.inj hstep
      change e ∈ (if _ then _ else _)
      split_ifs
      · exact he
      · exact List.mem_cons_of_mem _ he
  | remove i =>
    rw [setStep] at hstep
    cases hop : vlSetRemove s.set (some i) with
    | error f =>
      rw [hop] at hstep
      cases hstep
    | ok set =>
      rw [hop] at hstep
      obtain rfl := Except.ok.inj hstep
      exact List.mem_filter.mpr ⟨he, decide_eq_true fun h => hends h.symm⟩
  | removeElem x =>
    rw [setStep] at hstep
    cases hop : vlSetRemoveElem s.set x with
    | error f =>
      rw [hop] at hstep
      cases hstep
    | ok set =>
      rw [hop] at hstep
      obtain rfl := Except.ok.inj hstep
      exact List.mem_filter.mpr ⟨he, decide_eq_true fun h => hends (hlaw.eq_zero_of_eq_zero heq h)⟩
  | clear => exact absurd trivial hends

/-- What the holder of an iterator relies on: the iterator samples an element equal to the one
inserted, a search for that one returns the iterator, and every operation returns. -/
structure SetState.Holds (s : SetState α) (iter : VlPoolIdx) (elem : α) : Prop where
  sample : ∃ a, vlSetSample s.set (some iter) = some a ∧ s.set.comparator a elem = 0
  find : vlSetFind s.set elem = .ok (some iter)
  returns : ∀ o, (setMachine α).guard s o → ∃ s', setStep s o = .ok s'

/-- The iterators of a set with elements of the given size are **stable**: an insertion returns an
iterator that its caller can rely on in every later state, until an operation ends its life. -/
def VlSet.Stable (elementSize : ℕ) : Prop :=
  ∀ (α : Type) (cmp : α → α → ℤ), LawfulComparator cmp → ∀ ops s,
    (setMachine α).Run (.init elementSize cmp) ops s → ∀ elem,
      Returns (vlSetInsert s.set elem) fun r => ∃ s₁, setStep s (.insert elem) = .ok s₁ ∧
        s₁.set = r.2 ∧ ∀ later s₂, (setMachine α).Run s₁ later s₂ →
          (∀ o ∈ later, ¬ o.Ends cmp r.1 elem) → s₂.Holds r.1 elem

/-- An entry of a state is what its holder relies on. -/
theorem SetState.Inv.holds {s : SetState α} (hlaw : LawfulComparator s.set.comparator)
    (h : s.Inv t) {e : VlPoolIdx × α} {elem : α} (he : e ∈ s.entries)
    (heq : s.set.comparator e.2 elem = 0) : s.Holds e.1 elem := by
  have hrep := h.set.represents hlaw h.perm
  refine ⟨⟨e.2, hrep.sample e he, heq⟩, hrep.find_present e he elem heq, fun o hg => ?_⟩
  obtain ⟨s', hstep, -⟩ := setStep_spec hlaw h hg
  exact ⟨s', hstep⟩

end VeritableLasagna
