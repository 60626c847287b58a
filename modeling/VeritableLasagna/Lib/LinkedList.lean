import Mathlib

/-!
# Doubly linked lists in a heap

A **list heap** maps iterators to nodes that hold the iterators of the nodes before and behind them.
`Segment h p l q` says that the heap links the entries of `l` in this order, with `p` before the first
and `q` behind the last. A segment can be cut anywhere (`segment_append`); so an entry is put in or
taken out by relinking the two ends that meet there (`Segment.insert`, `Segment.remove`), and either
end may be the end of the list.
-/

namespace VeritableLasagna

variable {ι α : Type*}

/-- A node of a doubly linked list. -/
@[ext]
structure ListNode (ι α : Type*) where
  prev : Option ι
  next : Option ι
  elem : α
  deriving DecidableEq, Repr

def ListNode.setPrev (p : Option ι) (n : ListNode ι α) : ListNode ι α := { n with prev := p }

def ListNode.setNext (q : Option ι) (n : ListNode ι α) : ListNode ι α := { n with next := q }

/-- A list heap. -/
abbrev ListHeap (ι α : Type*) := ι → Option (ListNode ι α)

/-- Apply a function to the node of one iterator, if there is one. -/
def ListHeap.modify [DecidableEq ι] (h : ListHeap ι α) (o : Option ι)
    (f : ListNode ι α → ListNode ι α) : ListHeap ι α :=
  fun i => if o = some i then (h i).map f else h i

/-- The iterator of the first entry, `q` if there is none. -/
def headIter : List (ι × α) → Option ι → Option ι
  | [], q => q
  | e :: _, _ => some e.1

/-- The iterator of the last entry, `p` if there is none. -/
def tailIter : Option ι → List (ι × α) → Option ι
  | p, [] => p
  | _, e :: l => tailIter (some e.1) l

/-- The entries are linked one behind the other, between `p` and `q`. -/
def Segment (h : ListHeap ι α) : Option ι → List (ι × α) → Option ι → Prop
  | _, [], _ => True
  | p, e :: l, q => h e.1 = some ⟨p, headIter l q, e.2⟩ ∧ Segment h (some e.1) l q

/-- Following `next` from an iterator visits the iterators of the list, and ends. -/
inductive Visits (next : ι → Option ι → Prop) : Option ι → List ι → Prop
  | nil : Visits next none []
  | cons {i : ι} {o : Option ι} {l : List ι} :
      next i o → Visits next o l → Visits next (some i) (i :: l)

/-- A walk begins with the first iterator it visits. -/
theorem Visits.head_eq {next : ι → Option ι → Prop} {o : Option ι} {i : ι} {l : List ι}
    (h : Visits next o (i :: l)) : o = some i := by
  cases h
  rfl

/-- A walk along a function visits one list. -/
theorem Visits.unique {next : ι → Option ι → Prop} {o : Option ι} {l l' : List ι}
    (hnext : ∀ i o o', next i o → next i o' → o = o') (h : Visits next o l)
    (h' : Visits next o l') : l = l' := by
  induction h generalizing l' with
  | nil =>
    cases h'
    rfl
  | cons hi _ ih =>
    obtain _ | ⟨hi', hrest⟩ := h'
    obtain rfl := hnext _ _ _ hi hi'
    rw [ih hrest]

/-! ### The ends of a list -/

section Ends

variable {l l₁ l₂ : List (ι × α)} {p q : Option ι} {e : ι × α} {i : ι}

@[simp] theorem headIter_nil : headIter ([] : List (ι × α)) q = q := rfl

@[simp] theorem headIter_cons : headIter (e :: l) q = some e.1 := rfl

@[simp] theorem tailIter_nil : tailIter p ([] : List (ι × α)) = p := rfl

@[simp] theorem tailIter_cons : tailIter p (e :: l) = tailIter (some e.1) l := rfl

theorem headIter_append : headIter (l₁ ++ l₂) q = headIter l₁ (headIter l₂ q) := by
  cases l₁ with
  | nil => rfl
  | cons e l => rfl

theorem tailIter_append : tailIter p (l₁ ++ l₂) = tailIter (tailIter p l₁) l₂ := by
  induction l₁ generalizing p with
  | nil => rfl
  | cons e l ih => exact ih

@[simp] theorem tailIter_concat : tailIter p (l ++ [e]) = some e.1 := tailIter_append

/-- Behind an entry, what comes before it does not matter. -/
theorem tailIter_eq_of_ne_nil (hl : l ≠ []) : tailIter p l = tailIter q l := by
  obtain ⟨e, l, rfl⟩ := List.exists_cons_of_ne_nil hl
  rfl

theorem headIter_none_eq_none : headIter l none = none ↔ l = [] := by
  cases l with
  | nil => exact ⟨fun _ => rfl, fun _ => rfl⟩
  | cons e l => exact ⟨fun h => (by cases h), fun h => (by cases h)⟩

theorem tailIter_none_eq_none : tailIter none l = none ↔ l = [] := by
  rcases l.eq_nil_or_concat' with rfl | ⟨l', e, rfl⟩
  · exact ⟨fun _ => rfl, fun _ => rfl⟩
  · rw [tailIter_concat]
    exact ⟨fun h => (by cases h), fun h => absurd h (List.append_ne_nil_of_right_ne_nil _ (by simp))⟩

theorem mem_of_headIter (h : headIter l none = some i) : i ∈ l.map Prod.fst := by
  cases l with
  | nil => cases h
  | cons e l =>
    rw [← Option.some_injective _ h]
    exact List.mem_cons_self

theorem mem_of_tailIter (h : tailIter none l = some i) : i ∈ l.map Prod.fst := by
  rcases l.eq_nil_or_concat' with rfl | ⟨l', e, rfl⟩
  · cases h
  · rw [tailIter_concat] at h
    rw [← Option.some_injective _ h]
    simp

/-- The first and the last entry are the same exactly when there is one entry. -/
theorem headIter_eq_tailIter_iff (hnd : ((e :: l).map Prod.fst).Nodup) :
    headIter (e :: l) q = tailIter p (e :: l) ↔ l = [] := by
  rw [headIter_cons, tailIter_cons]
  rcases l.eq_nil_or_concat' with rfl | ⟨l', e', rfl⟩
  · exact ⟨fun _ => rfl, fun _ => rfl⟩
  · rw [tailIter_concat]
    constructor
    · intro heq
      have hne := (List.nodup_cons.mp hnd).1
      rw [Option.some_injective _ heq] at hne
      simp at hne
    · exact fun hnil => absurd hnil (List.append_ne_nil_of_right_ne_nil _ (by simp))

end Ends

/-! ### Segments -/

section Segment

variable {h h' : ListHeap ι α} {l l₁ l₂ : List (ι × α)} {p p' q q' : Option ι} {e : ι × α}
  {i : ι} {a : α}

/-- **A segment is cut** at any place. -/
theorem segment_append :
    Segment h p (l₁ ++ l₂) q ↔
      Segment h p l₁ (headIter l₂ q) ∧ Segment h (tailIter p l₁) l₂ q := by
  induction l₁ generalizing p with
  | nil => exact ⟨fun hl => ⟨trivial, hl⟩, fun hl => hl.2⟩
  | cons e l₁ ih =>
    rw [List.cons_append, Segment, Segment, ih, headIter_append, tailIter_cons, and_assoc]

/-- The node of an entry. -/
theorem Segment.node (hl : Segment h p (l₁ ++ e :: l₂) q) :
    h e.1 = some ⟨tailIter p l₁, headIter l₂ q, e.2⟩ := (segment_append.mp hl).2.1

/-- **Frame rule**: a segment only reads its own nodes. -/
theorem Segment.congr (hl : Segment h p l q) (hh : ∀ j ∈ l.map Prod.fst, h' j = h j) :
    Segment h' p l q := by
  induction l generalizing p with
  | nil => trivial
  | cons e l ih =>
    obtain ⟨hnode, hl⟩ := hl
    refine ⟨?_, ih hl fun j hj => hh j (List.mem_cons_of_mem _ hj)⟩
    rw [hh e.1 List.mem_cons_self]
    exact hnode

/-- The entries that a walk along `next` passes. -/
theorem Segment.visits {next : ι → Option ι → Prop} (hl : Segment h p l none)
    (hnext : ∀ i n, h i = some n → next i n.next) :
    Visits next (headIter l none) (l.map Prod.fst) := by
  induction l generalizing p with
  | nil => exact .nil
  | cons e l ih => exact .cons (hnext _ _ hl.1) (ih hl.2)

/-- A walk along `prev` passes them the other way round. -/
theorem Segment.visits_reverse {prev : ι → Option ι → Prop} (hl : Segment h none l q)
    (hprev : ∀ i n, h i = some n → prev i n.prev) :
    Visits prev (tailIter none l) (l.map Prod.fst).reverse := by
  induction l using List.reverseRecOn generalizing q with
  | nil => exact .nil
  | append_singleton l e ih =>
    rw [tailIter_concat, List.map_append, List.reverse_append]
    exact .cons (hprev _ _ hl.node) (ih (segment_append.mp hl).1)

section Modify

variable [DecidableEq ι] {o : Option ι} {f : ListNode ι α → ListNode ι α}

@[simp] theorem ListHeap.modify_none : h.modify none f = h := by
  funext i
  rw [modify, if_neg (by simp)]

theorem ListHeap.modify_self : h.modify (some i) f i = (h i).map f := if_pos rfl

theorem ListHeap.modify_of_ne (hne : o ≠ some i) : h.modify o f i = h i := if_neg hne

theorem Segment.modify (hl : Segment h p l q) (ho : ∀ i, o = some i → i ∉ l.map Prod.fst) :
    Segment (h.modify o f) p l q :=
  hl.congr fun j hj => ListHeap.modify_of_ne fun hoj => ho j hoj hj

/-- The last entry linked to another iterator. -/
theorem Segment.setNext (hl : Segment h p l q) (hnd : (l.map Prod.fst).Nodup) :
    Segment (h.modify (tailIter p l) (·.setNext q')) p l q' := by
  rcases l.eq_nil_or_concat' with rfl | ⟨l', e, rfl⟩
  · trivial
  · rw [List.map_append, List.nodup_append'] at hnd
    obtain ⟨hl', hnode, -⟩ := segment_append.mp hl
    rw [tailIter_concat]
    refine segment_append.mpr ⟨hl'.modify ?_, ?_, trivial⟩
    · rintro i ⟨⟩ hi
      exact hnd.2.2 hi List.mem_cons_self
    · rw [ListHeap.modify_self, hnode]
      rfl

/-- The first entry linked to another iterator. -/
theorem Segment.setPrev (hl : Segment h p l q) (hnd : (l.map Prod.fst).Nodup) :
    Segment (h.modify (headIter l q) (·.setPrev p')) p' l q := by
  cases l with
  | nil => trivial
  | cons e l =>
    obtain ⟨hnode, hl⟩ := hl
    refine ⟨?_, hl.modify ?_⟩
    · rw [headIter_cons, ListHeap.modify_self, hnode]
      rfl
    · rintro i ⟨⟩
      exact (List.nodup_cons.mp hnd).1

/-- The last entry of one segment and the first of another, linked to each other or to what comes
between them. -/
theorem Segment.relink (hl₁ : Segment h none l₁ q) (hl₂ : Segment h p l₂ none)
    (hnd : ((l₁ ++ l₂).map Prod.fst).Nodup) :
    Segment ((h.modify (tailIter none l₁) (·.setNext q')).modify (headIter l₂ none)
        (·.setPrev p')) none l₁ q' ∧
      Segment ((h.modify (tailIter none l₁) (·.setNext q')).modify (headIter l₂ none)
        (·.setPrev p')) p' l₂ none := by
  rw [List.map_append, List.nodup_append'] at hnd
  obtain ⟨hnd₁, hnd₂, hdisj⟩ := hnd
  constructor
  · exact (hl₁.setNext hnd₁).modify fun i hi hmem => hdisj hmem (mem_of_headIter hi)
  · have hl₂' : Segment (h.modify (tailIter none l₁) (·.setNext q')) p l₂ none :=
      hl₂.modify fun i hi hmem => hdisj (mem_of_tailIter hi) hmem
    exact hl₂'.setPrev hnd₂

/-- **A segment is cut in two**, and the ends that met are linked to something else. -/
theorem Segment.cut (hl : Segment h p (l₁ ++ l₂) none) (hnd : ((l₁ ++ l₂).map Prod.fst).Nodup)
    (hne : l₁ ≠ []) :
    Segment ((h.modify (headIter l₂ none) (·.setPrev p')).modify (tailIter none l₁)
        (·.setNext q')) p l₁ q' ∧
      Segment ((h.modify (headIter l₂ none) (·.setPrev p')).modify (tailIter none l₁)
        (·.setNext q')) p' l₂ none := by
  rw [List.map_append, List.nodup_append'] at hnd
  obtain ⟨hnd₁, hnd₂, hdisj⟩ := hnd
  obtain ⟨hl₁, hl₂⟩ := segment_append.mp hl
  constructor
  · have hl₁' : Segment (h.modify (headIter l₂ none) (·.setPrev p')) p l₁ (headIter l₂ none) :=
      hl₁.modify fun i hi hmem => hdisj hmem (mem_of_headIter hi)
    rw [tailIter_eq_of_ne_nil hne]
    exact hl₁'.setNext hnd₁
  · exact (hl₂.setPrev hnd₂).modify fun i hi hmem => hdisj (mem_of_tailIter hi) hmem

/-- **An entry is put in** at a cut. -/
theorem Segment.insert (hl : Segment h none (l₁ ++ l₂) none)
    (hnd : (i :: (l₁ ++ l₂).map Prod.fst).Nodup)
    (hnode : h i = some ⟨tailIter none l₁, headIter l₂ none, a⟩) :
    Segment ((h.modify (tailIter none l₁) (·.setNext (some i))).modify (headIter l₂ none)
      (·.setPrev (some i))) none (l₁ ++ (i, a) :: l₂) none := by
  obtain ⟨hi, hnd⟩ := List.nodup_cons.mp hnd
  obtain ⟨hl₁, hl₂⟩ := segment_append.mp hl
  obtain ⟨hl₁', hl₂'⟩ := hl₁.relink hl₂ hnd
  rw [List.map_append, List.mem_append, not_or] at hi
  refine segment_append.mpr ⟨hl₁', ?_, hl₂'⟩
  rw [ListHeap.modify_of_ne fun h => hi.2 (mem_of_headIter h),
    ListHeap.modify_of_ne fun h => hi.1 (mem_of_tailIter h), hnode]

/-- **An entry is taken out**. -/
theorem Segment.remove (hl : Segment h none (l₁ ++ e :: l₂) none)
    (hnd : ((l₁ ++ e :: l₂).map Prod.fst).Nodup) :
    Segment ((h.modify (tailIter none l₁) (·.setNext (headIter l₂ none))).modify
        (headIter l₂ none) (·.setPrev (tailIter none l₁))) none (l₁ ++ l₂) none := by
  obtain ⟨hl₁, hnode, hl₂⟩ := segment_append.mp hl
  have hsub : ((l₁ ++ l₂).map Prod.fst).Sublist ((l₁ ++ e :: l₂).map Prod.fst) :=
    ((List.sublist_cons_self e l₂).append_left l₁).map _
  exact segment_append.mpr (hl₁.relink hl₂ (hnd.sublist hsub))

end Modify

end Segment

end VeritableLasagna
