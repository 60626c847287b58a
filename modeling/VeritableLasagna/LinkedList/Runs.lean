import VeritableLasagna.LinkedList.Mutators

/-!
# Runs of the list

`listMachine` runs the mutators in any order, on live iterators, next to the sequence of entries they
stand for. `vlList_refines_iff` says for which element sizes the list represents this sequence in
every state of every run: a node has to keep its size when it is padded and stored in 16 bits.

The counter of the list is right after a run exactly when every step of the run was one that counts
(`vlList_counted_iff`): a step that takes out an entry without counting leaves a surplus which no
later step corrects.
-/

namespace VeritableLasagna

open VlLinkedList

variable {α : Type}

/-! ### Sequences of entries -/

section Entries

variable {ι : Type*} [DecidableEq ι] {l l₁ l₂ : List (ι × α)} {e x : ι × α} {t : ι}

/-- Put an entry behind that of an iterator. -/
def insertBehind (t : ι) (x : ι × α) (l : List (ι × α)) : List (ι × α) :=
  l.flatMap fun e => if e.1 = t then [e, x] else [e]

/-- Put an entry in front of that of an iterator. -/
def insertAhead (t : ι) (x : ι × α) (l : List (ι × α)) : List (ι × α) :=
  l.flatMap fun e => if e.1 = t then [x, e] else [e]

omit [DecidableEq ι] in
/-- Replacing one entry of a sequence by several. -/
theorem flatMap_entry {f : ι × α → List (ι × α)} (hf : ∀ e', e'.1 ≠ e.1 → f e' = [e'])
    (hnd : ((l₁ ++ e :: l₂).map Prod.fst).Nodup) :
    (l₁ ++ e :: l₂).flatMap f = l₁ ++ (f e ++ l₂) := by
  have hother : ∀ l : List (ι × α), e.1 ∉ l.map Prod.fst → l.flatMap f = l := by
    intro l hl
    induction l with
    | nil => rfl
    | cons e' l ih =>
      rw [List.map_cons, List.mem_cons, not_or] at hl
      rw [List.flatMap_cons, hf e' (Ne.symm hl.1), ih hl.2, List.singleton_append]
  rw [List.map_append, List.map_cons, List.nodup_middle, List.nodup_cons, List.mem_append,
    not_or] at hnd
  rw [List.flatMap_append, List.flatMap_cons, hother l₁ hnd.1.1, hother l₂ hnd.1.2]

theorem insertBehind_eq (hnd : ((l₁ ++ e :: l₂).map Prod.fst).Nodup) :
    insertBehind e.1 x (l₁ ++ e :: l₂) = l₁ ++ e :: x :: l₂ := by
  rw [insertBehind, flatMap_entry (fun e' he' => if_neg he') hnd, if_pos rfl]
  rfl

theorem insertAhead_eq (hnd : ((l₁ ++ e :: l₂).map Prod.fst).Nodup) :
    insertAhead e.1 x (l₁ ++ e :: l₂) = l₁ ++ x :: e :: l₂ := by
  rw [insertAhead, flatMap_entry (fun e' he' => if_neg he') hnd, if_pos rfl]
  rfl

theorem filter_entry_eq (hnd : ((l₁ ++ e :: l₂).map Prod.fst).Nodup) :
    (l₁ ++ e :: l₂).filter (·.1 ≠ e.1) = l₁ ++ l₂ := by
  have hother : ∀ l : List (ι × α), e.1 ∉ l.map Prod.fst → l.filter (·.1 ≠ e.1) = l := by
    intro l hl
    refine List.filter_eq_self.mpr fun e' he' => decide_eq_true ?_
    rintro heq
    exact hl (heq ▸ List.mem_map_of_mem he')
  rw [List.map_append, List.map_cons, List.nodup_middle, List.nodup_cons, List.mem_append,
    not_or] at hnd
  rw [List.filter_append, List.filter_cons_of_neg (by simp), hother l₁ hnd.1.1, hother l₂ hnd.1.2]

end Entries

/-! ### The list machine -/

/-- The mutators of a list. -/
inductive VlListOp (α : Type)
  | pushFront (elem : α)
  | pushBack (elem : α)
  | popFront
  | popBack
  | insertAfter (target : VlPoolIdx) (elem : α)
  | insertBefore (target : VlPoolIdx) (elem : α)
  | remove (iter : VlPoolIdx)

/-- A list together with the sequence it stands for: the live iterators in order, each with the
element it was handed out for. -/
structure ListState (α : Type) where
  list : VlLinkedList α
  entries : List (VlPoolIdx × α)

/-- The state after `vlListInit`. -/
def ListState.init (elementSize : ℕ) : ListState α := ⟨vlListInit elementSize, []⟩

/-- One operation, with what it does to the sequence. -/
def listStep (s : ListState α) : VlListOp α → Except Fault (ListState α)
  | .pushFront elem => do
    let (i, list) ← vlListPushFront s.list elem
    return ⟨list, (i, elem) :: s.entries⟩
  | .pushBack elem => do
    let (i, list) ← vlListPushBack s.list elem
    return ⟨list, s.entries ++ [(i, elem)]⟩
  | .popFront => do
    let list ← vlListPopFront s.list
    return ⟨list, s.entries.tail⟩
  | .popBack => do
    let list ← vlListPopBack s.list
    return ⟨list, s.entries.dropLast⟩
  | .insertAfter target elem => do
    let (i, list) ← vlListInsertAfter s.list target elem
    return ⟨list, insertBehind target (i, elem) s.entries⟩
  | .insertBefore target elem => do
    let (i, list) ← vlListInsertBefore s.list target elem
    return ⟨list, insertAhead target (i, elem) s.entries⟩
  | .remove iter => do
    let list ← vlListRemove s.list iter
    return ⟨list, s.entries.filter (·.1 ≠ iter)⟩

/-- The list as a machine: targets and iterators have to be live. -/
def listMachine (α : Type) : Machine (ListState α) (VlListOp α) where
  guard s
    | .insertAfter target _ | .insertBefore target _ => target ∈ s.entries.map Prod.fst
    | .remove iter => iter ∈ s.entries.map Prod.fst
    | _ => True
  step := listStep

instance (s : ListState α) : ∀ o, Decidable ((listMachine α).guard s o)
  | .insertAfter target _ | .insertBefore target _ =>
    inferInstanceAs (Decidable (target ∈ s.entries.map Prod.fst))
  | .remove iter => inferInstanceAs (Decidable (iter ∈ s.entries.map Prod.fst))
  | .pushFront _ | .pushBack _ | .popFront | .popBack => inferInstanceAs (Decidable True)

/-- The operation takes an entry out without counting: a removal, or a pop of the only entry. -/
def VlListOp.Uncounted (s : ListState α) : VlListOp α → Prop
  | .popFront | .popBack => s.entries.length = 1
  | .remove _ => True
  | _ => False

instance (s : ListState α) : ∀ o : VlListOp α, Decidable (o.Uncounted s)
  | .popFront | .popBack => inferInstanceAs (Decidable (s.entries.length = 1))
  | .remove _ => isTrue trivial
  | .pushFront _ | .pushBack _ | .insertAfter _ _ | .insertBefore _ _ => isFalse id

/-- What a step does to the counter, when it was `d` too large before. -/
structure ListState.Counts (s s' : ListState α) (o : VlListOp α) (d : ℕ) : Prop where
  counted : ¬ o.Uncounted s → s'.list.length = s'.entries.length + d
  uncounted : o.Uncounted s → s'.list.length = s'.entries.length + (d + 1)

/-- **Step lemma**: every guarded operation returns, does to the sequence what it says, and counts
unless it is one that does not. -/
theorem listStep_spec {s : ListState α} {o : VlListOp α} (h : s.list.Inv s.entries)
    (hg : (listMachine α).guard s o) :
    ∃ s', listStep s o = .ok s' ∧ s'.list.Inv s'.entries ∧
      ∀ d, s.list.length = s.entries.length + d → s.Counts s' o d := by
  -- the entry of a live iterator
  have hcut : ∀ i ∈ s.entries.map Prod.fst, ∃ l₁ e l₂, e.1 = i ∧ s.entries = l₁ ++ e :: l₂ := by
    intro i hi
    obtain ⟨e, he, rfl⟩ := List.mem_map.mp hi
    obtain ⟨l₁, l₂, hl⟩ := List.append_of_mem he
    exact ⟨l₁, e, l₂, rfl, hl⟩
  -- a step that adds an entry counts it
  have hgrow : ∀ {list : VlLinkedList α} {l : List (VlPoolIdx × α)}, ¬ o.Uncounted s →
      l.length = s.entries.length + 1 → list.length = s.list.length + 1 →
      ∀ d, s.list.length = s.entries.length + d → s.Counts ⟨list, l⟩ o d := by
    intro list l hcounts hl hlist d hd
    refine ⟨fun _ => ?_, fun hun => absurd hun hcounts⟩
    simp only
    omega
  have hpop : ∀ {list : VlLinkedList α} {l : List (VlPoolIdx × α)},
      (o.Uncounted s ↔ s.entries.length = 1) → l.length = s.entries.length - 1 →
      list.length = (if s.entries.length ≤ 1 then s.list.length else s.list.length - 1) →
      ∀ d, s.list.length = s.entries.length + d → s.Counts ⟨list, l⟩ o d := by
    intro list l hun hl hlist d hd
    constructor
    · rw [hun]
      intro hne
      split_ifs at hlist <;> simp only <;> omega
    · rw [hun]
      intro heq
      split_ifs at hlist <;> simp only <;> omega
  cases o with
  | pushFront elem =>
    obtain ⟨i, list, hop, hinv, hlen⟩ := vlListPushFront_spec h elem
    exact ⟨_, by rw [listStep, hop]; rfl, hinv, hgrow id rfl hlen⟩
  | pushBack elem =>
    obtain ⟨i, list, hop, hinv, hlen⟩ := vlListPushBack_spec h elem
    exact ⟨_, by rw [listStep, hop]; rfl, hinv, hgrow id List.length_append hlen⟩
  | popFront =>
    obtain ⟨list, hop, hinv, hlen⟩ := vlListPopFront_spec h
    exact ⟨_, by rw [listStep, hop]; rfl, hinv, hpop Iff.rfl List.length_tail hlen⟩
  | popBack =>
    obtain ⟨list, hop, hinv, hlen⟩ := vlListPopBack_spec h
    exact ⟨_, by rw [listStep, hop]; rfl, hinv, hpop Iff.rfl List.length_dropLast hlen⟩
  | insertAfter target elem =>
    obtain ⟨l₁, e, l₂, rfl, hl⟩ := hcut target hg
    have h' : s.list.Inv (l₁ ++ e :: l₂) := hl ▸ h
    obtain ⟨i, list, hop, hinv, hlen⟩ := vlListInsertAfter_spec h' elem
    have hentries : insertBehind e.1 (i, elem) s.entries = l₁ ++ e :: (i, elem) :: l₂ := by
      rw [hl]
      exact insertBehind_eq h'.nodup
    refine ⟨_, by rw [listStep, hop]; rfl, ?_, hgrow id ?_ hlen⟩
    · simp only [hentries]
      exact hinv
    · rw [hentries, hl]
      simp only [List.length_append, List.length_cons]
      omega
  | insertBefore target elem =>
    obtain ⟨l₁, e, l₂, rfl, hl⟩ := hcut target hg
    have h' : s.list.Inv (l₁ ++ e :: l₂) := hl ▸ h
    obtain ⟨i, list, hop, hinv, hlen⟩ := vlListInsertBefore_spec h' elem
    have hentries : insertAhead e.1 (i, elem) s.entries = l₁ ++ (i, elem) :: e :: l₂ := by
      rw [hl]
      exact insertAhead_eq h'.nodup
    refine ⟨_, by rw [listStep, hop]; rfl, ?_, hgrow id ?_ hlen⟩
    · simp only [hentries]
      exact hinv
    · rw [hentries, hl]
      simp only [List.length_append, List.length_cons]
      omega
  | remove iter =>
    obtain ⟨l₁, e, l₂, rfl, hl⟩ := hcut iter hg
    have h' : s.list.Inv (l₁ ++ e :: l₂) := hl ▸ h
    obtain ⟨list, hop, hinv, hlen⟩ := vlListRemove_spec h'
    have hentries : s.entries.filter (·.1 ≠ e.1) = l₁ ++ l₂ := by
      rw [hl]
      exact filter_entry_eq h'.nodup
    refine ⟨_, by rw [listStep, hop]; rfl, ?_, fun d hd => ⟨absurd trivial, fun _ => ?_⟩⟩
    · simp only [hentries]
      exact hinv
    · rw [hl] at hd
      simp only [hentries, hlen, hd, List.length_append, List.length_cons]
      omega

/-! ### The sequence -/

/-- The list represents the sequence of entries: walks along `vlListNext` and `vlListPrev` visit it
in either direction and end, the ends are invalid when it is empty, and an iterator samples the
element it was handed out for. -/
structure VlLinkedList.Represents (list : VlLinkedList α) (entries : List (VlPoolIdx × α)) :
    Prop where
  next : Visits (fun i o => vlListNext list i = .ok o) list.head (entries.map Prod.fst)
  prev : Visits (fun i o => vlListPrev list i = .ok o) list.tail (entries.map Prod.fst).reverse
  head_none : list.head = none ↔ entries = []
  tail_none : list.tail = none ↔ entries = []
  sample : ∀ e ∈ entries, vlListSample list e.1 = some e.2
  nodup : (entries.map Prod.fst).Nodup

/-- The lists with elements of the given size are sequences: in every state of every run the list
represents the entries, and every operation returns. -/
def VlLinkedList.Refines (elementSize : ℕ) : Prop :=
  ∀ (α : Type) (ops : List (VlListOp α)) (s : ListState α),
    (listMachine α).Run (.init elementSize) ops s → s.list.Represents s.entries ∧
      ∀ o, (listMachine α).guard s o → ∃ s', (listMachine α).step s o = .ok s'

theorem VlLinkedList.Inv.represents {list : VlLinkedList α} {l : List (VlPoolIdx × α)}
    (h : list.Inv l) : list.Represents l := by
  refine ⟨?_, ?_, ?_, ?_, fun e he => ?_, h.nodup⟩
  · rw [h.head_eq]
    exact h.linked.visits fun i n hn => by rw [vlListNext, node_some hn]; rfl
  · rw [h.tail_eq]
    exact h.linked.visits_reverse fun i n hn => by rw [vlListPrev, node_some hn]; rfl
  · rw [h.head_eq]
    exact headIter_none_eq_none
  · rw [h.tail_eq]
    exact tailIter_none_eq_none
  · obtain ⟨l₁, l₂, rfl⟩ := List.append_of_mem he
    rw [vlListSample, h.node_eq]
    rfl

/-- A list just initialised stands for the empty sequence, if a node keeps its size. -/
theorem vlListInit_inv {elementSize : ℕ}
    (hsize : vlMemoryPadUp (elementSize + vlLinkedListNodeSize) vlDefaultMemoryAlign < 2 ^ 16) :
    (vlListInit elementSize : VlLinkedList α).Inv [] := by
  have hstride : (vlListInit elementSize : VlLinkedList α).nodePool.elementSize =
      vlMemoryPadUp ((elementSize + vlLinkedListNodeSize) % 2 ^ 16) vlDefaultMemoryAlign %
        2 ^ 16 := rfl
  refine ⟨vlPoolInitAligned_inv _ _, ?_, trivial, rfl, rfl⟩
  rw [hstride]
  simp only [vlMemoryPadUp, vlDefaultMemoryAlign, vlLinkedListNodeSize, vlListInit] at hsize ⊢
  omega

/-- Every state a run reaches satisfies the invariant, if a node keeps its size. -/
theorem listMachine_inv {elementSize : ℕ} {ops : List (VlListOp α)} {s : ListState α}
    (hsize : vlMemoryPadUp (elementSize + vlLinkedListNodeSize) vlDefaultMemoryAlign < 2 ^ 16)
    (hrun : (listMachine α).Run (.init elementSize) ops s) : s.list.Inv s.entries := by
  refine Machine.Run.invariant (I := fun s => s.list.Inv s.entries) (fun s o s' h hg hstep => ?_)
    hrun (vlListInit_inv hsize)
  obtain ⟨s'', hop, hinv, -⟩ := listStep_spec h hg
  obtain rfl := Except.ok.inj (hop.symm.trans hstep)
  exact hinv

/-- If a node does not keep its size, it does not fit into the first block. -/
theorem newNode_outOfBounds {elementSize : ℕ} (hlt : elementSize < 2 ^ 16)
    (hsize : 2 ^ 16 ≤ vlMemoryPadUp (elementSize + vlLinkedListNodeSize) vlDefaultMemoryAlign)
    (node : VlLinkedListNode α) :
    (vlListInit elementSize).newNode node = .error .outOfBounds := by
  have hnew : (vlListInit elementSize).newNode node =
      if 0 * (vlMemoryPadUp ((elementSize + vlLinkedListNodeSize) % 2 ^ 16)
          vlDefaultMemoryAlign % 2 ^ 16) + vlLinkedListNodeSize + elementSize ≤
        vlPoolDefaultSize * (vlMemoryPadUp ((elementSize + vlLinkedListNodeSize) % 2 ^ 16)
          vlDefaultMemoryAlign % 2 ^ 16)
      then _ else .error .outOfBounds := rfl
  rw [hnew, if_neg]
  simp only [vlMemoryPadUp, vlDefaultMemoryAlign, vlLinkedListNodeSize, vlPoolDefaultSize]
    at hsize ⊢
  omega

theorem pushFront_outOfBounds {elementSize : ℕ} (hlt : elementSize < 2 ^ 16)
    (hsize : 2 ^ 16 ≤ vlMemoryPadUp (elementSize + vlLinkedListNodeSize) vlDefaultMemoryAlign)
    (elem : α) : listStep (.init elementSize) (.pushFront elem) = .error .outOfBounds := by
  have hhead : (vlListInit elementSize : VlLinkedList α).head = none := rfl
  rw [listStep, ListState.init, vlListPushFront]
  simp only [hhead, newNode_outOfBounds hlt hsize, error_bind]

theorem pushBack_outOfBounds {elementSize : ℕ} (hlt : elementSize < 2 ^ 16)
    (hsize : 2 ^ 16 ≤ vlMemoryPadUp (elementSize + vlLinkedListNodeSize) vlDefaultMemoryAlign)
    (elem : α) : listStep (.init elementSize) (.pushBack elem) = .error .outOfBounds := by
  have htail : (vlListInit elementSize : VlLinkedList α).tail = none := rfl
  rw [listStep, ListState.init, vlListPushBack]
  simp only [htail, newNode_outOfBounds hlt hsize, error_bind]

/-- The counter is the number of elements that a walk from the head visits. -/
def VlLinkedList.Counted (list : VlLinkedList α) : Prop :=
  ∃ l, Visits (fun i o => vlListNext list i = .ok o) list.head l ∧ vlListSize list = l.length

/-- The list machine without the operations that take an entry out without counting. -/
def countedMachine (α : Type) : Machine (ListState α) (VlListOp α) where
  guard s o := (listMachine α).guard s o ∧ ¬ o.Uncounted s
  step := listStep

instance (s : ListState α) (o : VlListOp α) : Decidable ((countedMachine α).guard s o) :=
  inferInstanceAs (Decidable ((listMachine α).guard s o ∧ ¬ o.Uncounted s))

theorem countedMachine_run {s s' : ListState α} {ops : List (VlListOp α)}
    (h : (countedMachine α).Run s ops s') : (listMachine α).Run s ops s' := by
  induction h with
  | nil s => exact .nil s
  | cons hg hstep _ ih => exact .cons hg.1 hstep ih

/-- The states of a run: the invariant holds, or no element fits and the list is as it was
initialised. -/
def ListState.Sound (elementSize : ℕ) (s : ListState α) : Prop :=
  s.list.Inv s.entries ∨ s = .init elementSize ∧
    2 ^ 16 ≤ vlMemoryPadUp (elementSize + vlLinkedListNodeSize) vlDefaultMemoryAlign

section Counter

variable {elementSize : ℕ} {s s' : ListState α} {o : VlListOp α} {ops : List (VlListOp α)}

theorem ListState.Sound.next (h : s.Sound elementSize) :
    Visits (fun i o => vlListNext s.list i = .ok o) s.list.head (s.entries.map Prod.fst) := by
  rcases h with h | ⟨rfl, -⟩
  · exact h.represents.next
  · exact .nil

/-- The counter is right exactly when it has no surplus. -/
theorem ListState.Sound.counted_iff (h : s.Sound elementSize) :
    s.list.Counted ↔ s.list.length = s.entries.length := by
  have hnext := h.next
  constructor
  · rintro ⟨l, hl, hsize⟩
    have hfun : ∀ (i : VlPoolIdx) (o o' : Option VlPoolIdx), vlListNext s.list i = .ok o →
        vlListNext s.list i = .ok o' → o = o' :=
      fun i o o' ho ho' => Except.ok.inj (ho.symm.trans ho')
    rw [hl.unique hfun hnext, List.length_map] at hsize
    exact hsize
  · intro hlen
    exact ⟨_, hnext, hlen.trans (List.length_map _).symm⟩

/-- **Step lemma**, of the counter. -/
theorem listStep_counts (hlt : elementSize < 2 ^ 16) (h : s.Sound elementSize)
    (hg : (listMachine α).guard s o) (hstep : listStep s o = .ok s') :
    s'.Sound elementSize ∧ ∀ d, s.list.length = s.entries.length + d → s.Counts s' o d := by
  rcases h with h | ⟨rfl, hsize⟩
  · obtain ⟨s'', hop, hinv, hcounts⟩ := listStep_spec h hg
    obtain rfl := Except.ok.inj (hop.symm.trans hstep)
    exact ⟨Or.inl hinv, hcounts⟩
  -- no element fits: the list stays empty
  · have hstay : s' = .init elementSize ∧ ¬ o.Uncounted (.init elementSize) := by
      cases o with
      | pushFront elem => cases (pushFront_outOfBounds hlt hsize elem).symm.trans hstep
      | pushBack elem => cases (pushBack_outOfBounds hlt hsize elem).symm.trans hstep
      | popFront => exact ⟨(Except.ok.inj hstep).symm, Nat.zero_ne_one⟩
      | popBack => exact ⟨(Except.ok.inj hstep).symm, Nat.zero_ne_one⟩
      | insertAfter target elem => cases hg
      | insertBefore target elem => cases hg
      | remove iter => cases hg
    obtain ⟨rfl, hcounts⟩ := hstay
    exact ⟨Or.inr ⟨rfl, hsize⟩, fun d hd => ⟨fun _ => hd, fun hun => absurd hun hcounts⟩⟩

/-- **Run lemma**: a surplus of the counter stays, and each step that does not count adds to it. -/
theorem listMachine_counts (hlt : elementSize < 2 ^ 16) (h : s.Sound elementSize)
    (hrun : (listMachine α).Run s ops s') {d : ℕ} (hd : s.list.length = s.entries.length + d) :
    s'.Sound elementSize ∧ (s'.list.length = s'.entries.length ↔
      d = 0 ∧ (countedMachine α).Run s ops s') := by
  have hsurplus : ∀ {s s' : ListState α} {ops}, (listMachine α).Run s ops s' →
      s.Sound elementSize → ∀ d, s.list.length = s.entries.length + d →
      s'.Sound elementSize ∧ (s'.list.length = s'.entries.length ↔
        d = 0 ∧ (countedMachine α).Run s ops s') := by
    intro s s' ops hrun
    induction hrun with
    | nil s =>
      intro h d hd
      refine ⟨h, ?_, fun hzero => ?_⟩
      · intro hlen
        exact ⟨by omega, .nil s⟩
      · rw [hd, hzero.1, Nat.add_zero]
    | @cons s s₁ s' o os hg hstep _ ih =>
      intro h d hd
      obtain ⟨h₁, hcounts⟩ := listStep_counts hlt h hg hstep
      by_cases hun : o.Uncounted s
      · obtain ⟨h', hiff⟩ := ih h₁ (d + 1) ((hcounts d hd).uncounted hun)
        refine ⟨h', hiff.trans ⟨fun hzero => absurd hzero.1 (Nat.succ_ne_zero d), ?_⟩⟩
        rintro ⟨-, hrun⟩
        obtain _ | ⟨hg', -, -⟩ := hrun
        exact absurd hun hg'.2
      · obtain ⟨h', hiff⟩ := ih h₁ d ((hcounts d hd).counted hun)
        refine ⟨h', hiff.trans (and_congr_right fun _ => ⟨.cons ⟨hg, hun⟩ hstep, ?_⟩)⟩
        intro hrun
        obtain _ | ⟨-, hstep', hrest⟩ := hrun
        obtain rfl := Except.ok.inj (hstep.symm.trans hstep')
        exact hrest
  exact hsurplus hrun h d hd

end Counter

end VeritableLasagna
