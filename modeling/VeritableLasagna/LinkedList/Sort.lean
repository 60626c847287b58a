import VeritableLasagna.Lib.MergeSort
import VeritableLasagna.LinkedList.Runs
import VeritableLasagna.Pool.Table

/-!
# Sorting a list

`vlListSort` is a bottom-up merge sort in place: each pass cuts two runs off the front of what is
left, merges them by relinking their nodes, and links the result behind what the pass has merged
before. A walk along the list passes no slot of the pool twice, so every loop is given one round for
each of them.

The nodes of the cut-off parts are **segments** of the heap (`Segment`), and a step says which nodes it
touches (`VlLinkedList.Touches`). So `vlListSortPass_spec` shows that a pass is `mergePass` on the
sequence of entries, and `vlListSort_spec` that the passes sort it.
-/

namespace VeritableLasagna

open VlLinkedList

variable {α : Type}

/-! ### The functions -/

/-- The loop of `vl_ListSortSegmentLength`. -/
def vlListSortSegmentLoop (list : VlLinkedList α) :
    ℕ → Option VlPoolIdx → Option VlPoolIdx → ℕ → Except Fault (ℕ × Option VlPoolIdx)
  | _, none, lastIter, length => .ok (length, lastIter)
  | 0, some _, _, _ => .error .noReturn
  | fuel + 1, some current, _, length => do
    let currentHeader ← list.node (some current)
    vlListSortSegmentLoop list fuel currentHeader.next (some current) (length + 1)

/-- `vl_ListSortSegmentLength`, with the iterator it stores: that of the last node, and `none` where it
stores nothing. -/
def vlListSortSegmentLength (list : VlLinkedList α) (beginIter : Option VlPoolIdx) :
    Except Fault (ℕ × Option VlPoolIdx) :=
  if beginIter.isNone then .ok (0, none)
  else vlListSortSegmentLoop list list.nodePool.capacity beginIter beginIter 0

/-- The two lines that link a node behind another. -/
def vlListSortLink (list : VlLinkedList α) (tail next header : Option VlPoolIdx) :
    Except Fault (VlLinkedList α) := do
  let list ← list.modify tail (·.setNext next)
  list.modify header (·.setPrev tail)

/-- The local variables of `vl_ListSortMerge`. A header is named by its iterator. -/
structure VlListMerge (α : Type) where
  list : VlLinkedList α
  aIter : Option VlPoolIdx
  bIter : Option VlPoolIdx
  leftHeader : Option VlPoolIdx
  rightHeader : Option VlPoolIdx
  mergeTail : Option VlPoolIdx

/-- The loop of `vl_ListSortMerge`. -/
def vlListSortMergeLoop (compareFunction : α → α → ℤ) :
    ℕ → VlListMerge α → Except Fault (VlListMerge α)
  | 0, m => if m.aIter.isSome ∧ m.bIter.isSome then .error .noReturn else .ok m
  | fuel + 1, m =>
    if m.aIter.isSome ∧ m.bIter.isSome then do
      let left ← m.list.node m.aIter
      let right ← m.list.node m.bIter
      if compareFunction left.elem right.elem ≤ 0 then do
        let list ← vlListSortLink m.list m.mergeTail m.aIter m.aIter
        let left ← list.node m.aIter
        let tail ← list.node m.mergeTail
        vlListSortMergeLoop compareFunction fuel
          ⟨list, left.next, m.bIter, m.aIter, m.bIter, tail.next⟩
      else do
        let list ← vlListSortLink m.list m.mergeTail m.bIter m.bIter
        let right ← list.node m.bIter
        let tail ← list.node m.mergeTail
        vlListSortMergeLoop compareFunction fuel
          ⟨list, m.aIter, right.next, m.aIter, m.bIter, tail.next⟩
    else .ok m

/-- The end of `vl_ListSortMerge`: link what is left, and find the last node. -/
def vlListSortMergeRest (m : VlListMerge α) : Except Fault (Option VlPoolIdx × VlLinkedList α) :=
  if m.aIter.isSome then do
    let list ← vlListSortLink m.list m.mergeTail m.aIter m.leftHeader
    let (_, mergeTail) ← vlListSortSegmentLength list m.aIter
    return (mergeTail, list)
  else do
    let list ← vlListSortLink m.list m.mergeTail m.bIter m.rightHeader
    let (_, mergeTail) ← vlListSortSegmentLength list m.bIter
    return (mergeTail, list)

/-- `vl_ListSortMerge`. Returns the head and the tail of the merged list. -/
def vlListSortMerge (list : VlLinkedList α) (aIter bIter : Option VlPoolIdx)
    (compareFunction : α → α → ℤ) :
    Except Fault (Option VlPoolIdx × Option VlPoolIdx × VlLinkedList α) :=
  if aIter.isNone then do
    let (_, mergeTail) ← vlListSortSegmentLength list bIter
    return (bIter, mergeTail, list)
  else if bIter.isNone then do
    let (_, mergeTail) ← vlListSortSegmentLength list aIter
    return (aIter, mergeTail, list)
  else do
    let left ← list.node aIter
    let right ← list.node bIter
    let first : VlListMerge α :=
      if compareFunction left.elem right.elem ≤ 0 then ⟨list, left.next, bIter, aIter, bIter, aIter⟩
      else ⟨list, aIter, right.next, aIter, bIter, bIter⟩
    let m ← vlListSortMergeLoop compareFunction list.nodePool.capacity first
    let (mergeTail, list) ← vlListSortMergeRest m
    return (first.mergeTail, mergeTail, list)

/-- The loop of `vl_ListSortSplit`: the iterator of the last of `length` nodes, `none` if no node comes
behind them. -/
def vlListSortSplitLoop (list : VlLinkedList α) :
    ℕ → Option VlPoolIdx → Option VlPoolIdx → Except Fault (Option VlPoolIdx)
  | 0, _, atHeader => .ok atHeader
  | n + 1, atIter, _ => do
    let atHeader ← list.node atIter
    if atHeader.next.isNone then return none
    else vlListSortSplitLoop list n atHeader.next atIter

/-- `vl_ListSortSplit`. Returns the iterator of the second part. -/
def vlListSortSplit (list : VlLinkedList α) (atIter : Option VlPoolIdx) (length : ℕ) :
    Except Fault (Option VlPoolIdx × VlLinkedList α) :=
  if atIter.isNone ∨ length = 0 then .ok (none, list)
  else do
    let atHeader ← vlListSortSplitLoop list length atIter none
    if atHeader.isNone then return (none, list)
    else do
      let header ← list.node atHeader
      let list ← list.modifyValid header.next (·.setPrev none)
      let list ← list.modify atHeader (·.setNext none)
      return (header.next, list)

/-- The inner loop of `vlListSort`: one pass. -/
def vlListSortPass (compareFunction : α → α → ℤ) (passLength : ℕ) :
    ℕ → VlLinkedList α → Option VlPoolIdx → Option VlPoolIdx → Except Fault (VlLinkedList α)
  | _, list, none, _ => .ok list
  | 0, _, some _, _ => .error .noReturn
  | fuel + 1, list, some leftIter, tailIter => do
    let (rightIter, list) ← vlListSortSplit list (some leftIter) passLength
    let (currentIter, list) ← vlListSortSplit list rightIter passLength
    let (mergedHead, mergedTail, list) ←
      vlListSortMerge list (some leftIter) rightIter compareFunction
    let list ← (if tailIter.isNone then .ok { list with head := mergedHead }
      else vlListSortLink list tailIter mergedHead mergedHead)
    vlListSortPass compareFunction passLength fuel list currentIter mergedTail

/-- The outer loop of `vlListSort`. The length of a run is kept in 32 bits: after 32 rounds it is zero
for good. -/
def vlListSortLoop (compareFunction : α → α → ℤ) (length : ℕ) :
    ℕ → ℕ → VlLinkedList α → Except Fault (VlLinkedList α)
  | 0, passLength, list => if passLength < length then .error .noReturn else .ok list
  | fuel + 1, passLength, list =>
    if passLength < length then do
      let list ← vlListSortPass compareFunction passLength list.nodePool.capacity list list.head none
      vlListSortLoop compareFunction length fuel (passLength * 2 % 2 ^ 32) list
    else .ok list

/-- `vlListSort`. It leaves the tail of the list as it is. -/
def vlListSort (list : VlLinkedList α) (compareFunction : α → α → ℤ) :
    Except Fault (VlLinkedList α) :=
  if list.head = list.tail then .ok list
  else vlListSortLoop compareFunction list.length 32 1 list

/-- The entries in the order of their elements. -/
def compareEntries (cmp : α → α → ℤ) (x y : VlPoolIdx × α) : ℤ := cmp x.2 y.2

theorem LawfulComparator.entries {cmp : α → α → ℤ} (h : LawfulComparator cmp) :
    LawfulComparator (compareEntries cmp) := h.comap _

/-! ### What a step touches -/

section Steps

variable {list s t : VlLinkedList α} {l l' l₁ l₂ a b m : List (VlPoolIdx × α)} {e : VlPoolIdx × α}
  {p q : Option VlPoolIdx} {k n : ℕ}

/-- The second list differs from the first in the nodes of some entries only. -/
structure VlLinkedList.Touches (list s : VlLinkedList α) (l : List (VlPoolIdx × α)) : Prop where
  same : s = { list with mem := s.mem }
  frame : ∀ j ∉ l.map Prod.fst, s.heap j = list.heap j

namespace VlLinkedList.Touches

theorem refl (list : VlLinkedList α) (l : List (VlPoolIdx × α)) : Touches list list l :=
  ⟨rfl, fun _ _ => rfl⟩

theorem mono (h : Touches list s l) (hsub : l ⊆ l') : Touches list s l' :=
  ⟨h.same, fun j hj => h.frame j fun hmem => hj (List.map_subset _ hsub hmem)⟩

theorem trans (h : Touches list s l) (h' : Touches s t l) : Touches list t l := by
  refine ⟨?_, fun j hj => (h'.frame j hj).trans (h.frame j hj)⟩
  rw [h'.same, h.same]

theorem apart (h : Touches list s l) (hap : list.Apart) : s.Apart := by
  rw [h.same]
  exact hap

theorem capacity (h : Touches list s l) : s.nodePool.capacity = list.nodePool.capacity := by
  rw [h.same]

/-- The other nodes are linked as before. -/
theorem segment (h : Touches list s l) (hs : Segment list.heap p l' q)
    (hdisj : (l'.map Prod.fst).Disjoint (l.map Prod.fst)) : Segment s.heap p l' q :=
  hs.congr fun j hj => h.frame j (hdisj hj)

end VlLinkedList.Touches

/-- Writing to one node touches no other. -/
theorem ListHeap.modify_frame {h : ListHeap VlPoolIdx α} {o : Option VlPoolIdx}
    {f : VlLinkedListNode α → VlLinkedListNode α} (ho : ∀ i, o = some i → i ∈ l.map Prod.fst) :
    ∀ j ∉ l.map Prod.fst, h.modify o f j = h j :=
  fun j hj => ListHeap.modify_of_ne fun hoj => hj (ho j hoj)

/-- An entry of a segment has a node. -/
theorem Segment.exists_node {h : ListHeap VlPoolIdx α} (hl : Segment h p l q) {i : VlPoolIdx}
    (hi : i ∈ l.map Prod.fst) : ∃ n, h i = some n := by
  obtain ⟨e, he, rfl⟩ := List.mem_map.mp hi
  obtain ⟨l₁, l₂, rfl⟩ := List.append_of_mem he
  exact ⟨_, hl.node⟩

/-- **A list is linked behind another**. -/
theorem vlListSortLink_spec (hap : list.Apart) (h₁ : Segment list.heap none l₁ q)
    (h₂ : Segment list.heap p l₂ none) (hnd : ((l₁ ++ l₂).map Prod.fst).Nodup) (hne₁ : l₁ ≠ [])
    (hne₂ : l₂ ≠ []) :
    ∃ s, vlListSortLink list (tailIter none l₁) (headIter l₂ none) (headIter l₂ none) = .ok s ∧
      Touches list s (l₁ ++ l₂) ∧ Segment s.heap none (l₁ ++ l₂) none := by
  obtain ⟨i, hi⟩ : ∃ i, tailIter none l₁ = some i :=
    Option.ne_none_iff_exists'.mp fun hnil => hne₁ (tailIter_none_eq_none.mp hnil)
  obtain ⟨j, hj⟩ : ∃ j, headIter l₂ none = some j :=
    Option.ne_none_iff_exists'.mp fun hnil => hne₂ (headIter_none_eq_none.mp hnil)
  obtain ⟨mem, hop, hheap⟩ := relink_spec hap
    (fun i hi => h₁.exists_node (mem_of_tailIter hi)) (fun i hi => h₂.exists_node (mem_of_headIter hi))
    (headIter l₂ none) (tailIter none l₁)
  obtain ⟨hs₁, hs₂⟩ : Segment (heap { list with mem }) none l₁ (headIter l₂ none) ∧
      Segment (heap { list with mem }) (tailIter none l₁) l₂ none := by
    rw [hheap]
    exact h₁.relink h₂ hnd
  refine ⟨{ list with mem }, ?_, ⟨rfl, fun k hk => ?_⟩, segment_append.mpr ⟨hs₁, hs₂⟩⟩
  · rw [hi, hj] at hop ⊢
    exact hop
  · rw [List.map_append, List.mem_append, not_or] at hk
    rw [hheap, ListHeap.modify_frame (fun i hi => mem_of_headIter hi) k hk.2,
      ListHeap.modify_frame (fun i hi => mem_of_tailIter hi) k hk.1]

/-! ### Splitting -/

theorem vlListSortSplitLoop_spec (h : Segment list.heap p l none) (hne : l ≠ []) (n : ℕ)
    (atHeader : Option VlPoolIdx) :
    vlListSortSplitLoop list n (headIter l none) atHeader =
      .ok (if l.length ≤ n then none else tailIter atHeader (l.take n)) := by
  induction n generalizing p l atHeader with
  | zero =>
    rw [vlListSortSplitLoop, if_neg, List.take_zero, tailIter_nil]
    exact Nat.not_le.mpr (List.length_pos_of_ne_nil hne)
  | succ n ih =>
    obtain ⟨e, l, rfl⟩ := List.exists_cons_of_ne_nil hne
    rw [headIter_cons, vlListSortSplitLoop, node_some h.1, ok_bind]
    cases l with
    | nil =>
      have hone : [e].length ≤ n + 1 := Nat.le_add_left 1 n
      rw [if_pos hone]
      rfl
    | cons e' l =>
      have hrest := ih h.2 (List.cons_ne_nil e' l) (some e.1)
      have hlen : (e :: e' :: l).length ≤ n + 1 ↔ (e' :: l).length ≤ n := Nat.succ_le_succ_iff
      simp only [hlen, List.take_succ_cons, tailIter_cons]
      exact hrest

/-- **`vl_ListSortSplit`** cuts off the first entries. -/
theorem vlListSortSplit_spec (hap : list.Apart) (h : Segment list.heap none l none)
    (hnd : (l.map Prod.fst).Nodup) (hk : 0 < k) :
    ∃ s, vlListSortSplit list (headIter l none) k = .ok (headIter (l.drop k) none, s) ∧
      Touches list s l ∧ Segment s.heap none (l.take k) none ∧
      Segment s.heap none (l.drop k) none := by
  rw [vlListSortSplit]
  by_cases hne : l = []
  · subst hne
    have hnil : (headIter ([] : List (VlPoolIdx × α)) none).isNone = true := rfl
    refine ⟨list, ?_, .refl list [], ?_, ?_⟩
    · rw [if_pos (Or.inl hnil), List.drop_nil]
      rfl
    · rw [List.take_nil]
      trivial
    · rw [List.drop_nil]
      trivial
  rw [if_neg (by
    rw [Option.isNone_iff_eq_none, headIter_none_eq_none]
    exact not_or.mpr ⟨hne, hk.ne'⟩), vlListSortSplitLoop_spec h hne, ok_bind]
  by_cases hlen : l.length ≤ k
  · refine ⟨list, ?_, .refl list l, ?_, ?_⟩
    · rw [if_pos hlen, List.drop_eq_nil_of_le hlen]
      rfl
    · rwa [List.take_of_length_le hlen]
    · rw [List.drop_eq_nil_of_le hlen]
      trivial
  -- the last entry of the first part, and the rest
  have hfirst : l.take k ≠ [] := by
    rw [ne_eq, List.take_eq_nil_iff, not_or]
    exact ⟨hk.ne', hne⟩
  obtain ⟨l', e, hl'⟩ : ∃ l' e, l.take k = l' ++ [e] := (l.take k).eq_nil_or_concat'.resolve_left hfirst
  have hcut : l = l' ++ [e] ++ l.drop k := by rw [← hl', List.take_append_drop]
  have hnode : list.heap e.1 = some ⟨tailIter none l', headIter (l.drop k) none, e.2⟩ := by
    have hseg : Segment list.heap none (l' ++ e :: l.drop k) none := by
      rwa [List.append_cons, ← hcut]
    exact hseg.node
  have hright : ∀ i, headIter (l.drop k) none = some i → i ∈ l.map Prod.fst := fun i hi =>
    List.map_subset _ (List.drop_subset k l) (mem_of_headIter hi)
  obtain ⟨mem₁, hop₁, hheap₁⟩ := modifyValid_spec hap (fun i hi => h.exists_node (hright i hi))
    (·.setPrev none)
  have hleft : e.1 ∈ l.map Prod.fst := by
    rw [hcut]
    simp
  have hap₁ : Apart { list with mem := mem₁ } := hap
  obtain ⟨n₁, hn₁⟩ : ∃ n, heap { list with mem := mem₁ } e.1 = some n := by
    rw [hheap₁, ListHeap.modify]
    split_ifs
    · exact ⟨_, by rw [hnode]; rfl⟩
    · exact ⟨_, hnode⟩
  obtain ⟨mem₂, hop₂, hheap₂⟩ := modify_spec hap₁ hn₁ (·.setNext none)
  have hseg : Segment list.heap none (l.take k ++ l.drop k) none := by rwa [List.take_append_drop]
  have hnd' : ((l.take k ++ l.drop k).map Prod.fst).Nodup := by rwa [List.take_append_drop]
  have htail : tailIter none (l.take k) = some e.1 := by rw [hl', tailIter_concat]
  obtain ⟨hs₁, hs₂⟩ : Segment (heap { list with mem := mem₂ }) none (l.take k) none ∧
      Segment (heap { list with mem := mem₂ }) none (l.drop k) none := by
    rw [hheap₂, hheap₁, ← htail]
    exact hseg.cut hnd' hfirst
  refine ⟨{ list with mem := mem₂ }, ?_, ⟨rfl, fun j hj => ?_⟩, hs₁, hs₂⟩
  · have hop₂' : VlLinkedList.modify { list with mem := mem₁ } (some e.1) (·.setNext none) =
        .ok { list with mem := mem₂ } := hop₂
    rw [if_neg hlen, htail]
    simp only [Option.isNone_some, Bool.false_eq_true, if_false]
    rw [node_some hnode, ok_bind]
    dsimp only
    rw [hop₁, ok_bind, hop₂', ok_bind]
    rfl
  · have hframe₂ : heap { list with mem := mem₂ } j = heap { list with mem := mem₁ } j := by
      refine (congrFun hheap₂ j).trans (ListHeap.modify_of_ne ?_)
      rintro ⟨⟩
      exact hj hleft
    rw [hframe₂, hheap₁]
    exact ListHeap.modify_frame hright j hj

/-! ### Merging -/

theorem vlListSortSegmentLoop_spec (h : Segment list.heap p l none) {fuel : ℕ}
    (hfuel : l.length ≤ fuel) (lastIter : Option VlPoolIdx) (length : ℕ) :
    vlListSortSegmentLoop list fuel (headIter l none) lastIter length =
      .ok (length + l.length, tailIter lastIter l) := by
  induction l generalizing p fuel lastIter length with
  | nil =>
    cases fuel with
    | zero => rfl
    | succ fuel => rfl
  | cons e l ih =>
    obtain ⟨fuel, rfl⟩ : ∃ n, fuel = n + 1 := ⟨fuel - 1, by rw [List.length_cons] at hfuel; omega⟩
    rw [headIter_cons, vlListSortSegmentLoop, node_some h.1, ok_bind,
      ih h.2 (Nat.le_of_succ_le_succ hfuel), List.length_cons, Nat.add_comm l.length, Nat.add_assoc]
    rfl

/-- **`vl_ListSortSegmentLength`** finds the last entry. -/
theorem vlListSortSegmentLength_spec (h : Segment list.heap p l none)
    (hcap : l.length ≤ list.nodePool.capacity) :
    vlListSortSegmentLength list (headIter l none) = .ok (l.length, tailIter none l) := by
  cases l with
  | nil => rfl
  | cons e l =>
    rw [vlListSortSegmentLength, if_neg (by simp), vlListSortSegmentLoop_spec h hcap,
      Nat.zero_add]
    rfl

/-- What is left of the first list is linked behind what is merged. -/
theorem vlListSortMergeRest_left (hap : list.Apart) (hm : Segment list.heap none m q)
    (hl : Segment list.heap p l none) (hnd : ((m ++ l).map Prod.fst).Nodup) (hne : m ≠ [])
    (hne' : l ≠ []) (hcap : l.length ≤ list.nodePool.capacity) (bIter rightHeader) :
    ∃ s, vlListSortMergeRest
        ⟨list, headIter l none, bIter, headIter l none, rightHeader, tailIter none m⟩ =
          .ok (tailIter none (m ++ l), s) ∧
      Touches list s (m ++ l) ∧ Segment s.heap none (m ++ l) none := by
  obtain ⟨s, hop, htouch, hseg⟩ := vlListSortLink_spec hap hm hl hnd hne hne'
  have hsome : (headIter l none).isSome = true := by
    obtain ⟨e, l, rfl⟩ := List.exists_cons_of_ne_nil hne'
    rfl
  refine ⟨s, ?_, htouch, hseg⟩
  rw [vlListSortMergeRest, if_pos hsome, hop, ok_bind,
    vlListSortSegmentLength_spec (segment_append.mp hseg).2 (hcap.trans_eq htouch.capacity.symm),
    ok_bind, tailIter_append, tailIter_eq_of_ne_nil hne']
  rfl

/-- What is left of the second list is linked behind what is merged. -/
theorem vlListSortMergeRest_right (hap : list.Apart) (hm : Segment list.heap none m q)
    (hl : Segment list.heap p l none) (hnd : ((m ++ l).map Prod.fst).Nodup) (hne : m ≠ [])
    (hne' : l ≠ []) (hcap : l.length ≤ list.nodePool.capacity) (leftHeader) :
    ∃ s, vlListSortMergeRest
        ⟨list, none, headIter l none, leftHeader, headIter l none, tailIter none m⟩ =
          .ok (tailIter none (m ++ l), s) ∧
      Touches list s (m ++ l) ∧ Segment s.heap none (m ++ l) none := by
  obtain ⟨s, hop, htouch, hseg⟩ := vlListSortLink_spec hap hm hl hnd hne hne'
  have hnone : ¬ (none : Option VlPoolIdx).isSome = true := Bool.false_ne_true
  refine ⟨s, ?_, htouch, hseg⟩
  rw [vlListSortMergeRest, if_neg hnone, hop, ok_bind,
    vlListSortSegmentLength_spec (segment_append.mp hseg).2 (hcap.trans_eq htouch.capacity.symm),
    ok_bind, tailIter_append, tailIter_eq_of_ne_nil hne']
  rfl

/-- **One round of the merge**: the first entry of one list is linked behind what is merged. -/
theorem vlListSortLink_step (hap : list.Apart) (hm : Segment list.heap none m q)
    (ha : Segment list.heap p (e :: a) none) (hnd : ((m ++ e :: a).map Prod.fst).Nodup)
    (hne : m ≠ []) :
    ∃ s left tail, vlListSortLink list (tailIter none m) (some e.1) (some e.1) = .ok s ∧
      Touches list s (m ++ e :: a) ∧ s.node (some e.1) = .ok left ∧
      left.next = headIter a none ∧ s.node (tailIter none m) = .ok tail ∧ tail.next = some e.1 ∧
      Segment s.heap none (m ++ [e]) (headIter a none) ∧ Segment s.heap (some e.1) a none := by
  obtain ⟨s, hop, htouch, hseg⟩ := vlListSortLink_spec hap hm ha hnd hne (List.cons_ne_nil e a)
  obtain ⟨m', z, rfl⟩ : ∃ m' z, m = m' ++ [z] := m.eq_nil_or_concat'.resolve_left hne
  have hcut := hseg
  rw [List.append_cons, segment_append, tailIter_concat] at hcut
  have htail := hseg
  rw [List.append_assoc] at htail
  rw [tailIter_concat] at hop ⊢
  exact ⟨s, _, _, hop, htouch, node_some hseg.node, rfl, node_some htail.node, rfl, hcut⟩

/-- **The loop of `vl_ListSortMerge`** and the lines behind it merge what is left of the two lists
behind what is merged already. -/
theorem vlListSortMergeLoop_spec (cmp : α → α → ℤ) (fuel : ℕ)
    (leftHeader rightHeader : Option VlPoolIdx) {p p' : Option VlPoolIdx} (hap : list.Apart)
    (hm : Segment list.heap none m q)
    (ha : Segment list.heap p a none) (hb : Segment list.heap p' b none)
    (hnd : ((m ++ (a ++ b)).map Prod.fst).Nodup) (hne : m ≠ []) (hsome : a ++ b ≠ [])
    (hleft : b = [] → leftHeader = headIter a none) (hright : a = [] → rightHeader = headIter b none)
    (hfuel : (a ++ b).length ≤ fuel) (hcap : (a ++ b).length ≤ list.nodePool.capacity) :
    ∃ s, (do
        let m ← vlListSortMergeLoop cmp fuel
          ⟨list, headIter a none, headIter b none, leftHeader, rightHeader, tailIter none m⟩
        vlListSortMergeRest m) =
          .ok (tailIter none (m ++ a.merge b (notAbove (compareEntries cmp))), s) ∧
      Touches list s (m ++ (a ++ b)) ∧
      Segment s.heap none (m ++ a.merge b (notAbove (compareEntries cmp))) none := by
  induction fuel generalizing list m a b q p p' leftHeader rightHeader with
  | zero =>
    exact absurd (List.length_pos_of_ne_nil hsome) (by omega)
  | succ fuel ih =>
    cases a with
    | nil =>
      have hloop : vlListSortMergeLoop cmp (fuel + 1)
          ⟨list, none, headIter b none, leftHeader, rightHeader, tailIter none m⟩ =
            .ok ⟨list, none, headIter b none, leftHeader, rightHeader, tailIter none m⟩ := by
        rw [vlListSortMergeLoop]
        exact if_neg fun h => Bool.false_ne_true h.1
      rw [headIter_nil, hloop, ok_bind, hright rfl, List.nil_merge, List.nil_append]
      exact vlListSortMergeRest_right hap hm hb hnd hne hsome hcap leftHeader
    | cons x a =>
      cases b with
      | nil =>
        have hloop : vlListSortMergeLoop cmp (fuel + 1)
            ⟨list, headIter (x :: a) none, none, leftHeader, rightHeader, tailIter none m⟩ =
              .ok ⟨list, headIter (x :: a) none, none, leftHeader, rightHeader, tailIter none m⟩ := by
          rw [vlListSortMergeLoop]
          exact if_neg fun h => Bool.false_ne_true h.2
        rw [List.append_nil] at hnd hcap ⊢
        rw [headIter_nil, hloop, ok_bind, hleft rfl, List.merge_right]
        exact vlListSortMergeRest_left hap hm ha hnd hne (List.cons_ne_nil x a) hcap none rightHeader
      | cons y b =>
        have hnda : ((m ++ x :: a).map Prod.fst).Nodup :=
          hnd.sublist (((List.sublist_append_left _ _).append_left _).map _)
        have hndb : ((m ++ y :: b).map Prod.fst).Nodup :=
          hnd.sublist (((List.sublist_append_right _ _).append_left _).map _)
        have hboth : (headIter (x :: a) none).isSome ∧ (headIter (y :: b) none).isSome := ⟨rfl, rfl⟩
        have hdisj : (((m ++ x :: a).map Prod.fst).Disjoint ((y :: b).map Prod.fst)) := by
          rw [← List.append_assoc, List.map_append, List.nodup_append'] at hnd
          exact hnd.2.2
        have hdisj' : (((m ++ y :: b).map Prod.fst).Disjoint ((x :: a).map Prod.fst)) := by
          have hswap : ((m ++ y :: b ++ x :: a).map Prod.fst).Nodup := by
            refine ((List.Perm.map _ ?_).nodup_iff).mpr hnd
            rw [List.append_assoc]
            exact List.perm_append_comm.append_left m
          rw [List.map_append, List.nodup_append'] at hswap
          exact hswap.2.2
        rw [List.length_append, List.length_cons, List.length_cons] at hfuel hcap
        rw [vlListSortMergeLoop, if_pos hboth]
        simp only [headIter_cons]
        rw [node_some ha.1, ok_bind, node_some hb.1, ok_bind, List.cons_merge_cons]
        by_cases hle : cmp x.2 y.2 ≤ 0
        · obtain ⟨s, left, tail, hop, htouch, hnode, hnext, hlast, hsecond, hs₁, hs₂⟩ :=
            vlListSortLink_step hap hm ha hnda hne
          have hb' : Segment s.heap p' (y :: b) none := htouch.segment hb hdisj.symm
          obtain ⟨t, hrest, htouch', hseg⟩ := ih (some x.1) (some y.1) (htouch.apart hap) hs₁ hs₂ hb'
            (by rwa [List.append_assoc]) (by simp) (by simp)
            (fun h => absurd h (List.cons_ne_nil y b)) (fun _ => rfl)
            (by rw [List.length_append, List.length_cons]; omega)
            (by rw [htouch.capacity, List.length_append, List.length_cons]; omega)
          have hmerge : notAbove (compareEntries cmp) x y = true :=
            notAbove_iff.mpr hle
          rw [List.append_assoc] at hrest htouch' hseg
          refine ⟨t, ?_, (htouch.mono ?_).trans htouch', ?_⟩
          · rw [if_pos hle, hop, ok_bind, hnode, ok_bind, hlast, ok_bind, hnext, hsecond,
              if_pos hmerge]
            rw [tailIter_concat] at hrest
            exact hrest
          · exact List.Sublist.subset ((List.sublist_append_left _ _).append_left m)
          · rw [if_pos hmerge]
            exact hseg
        · obtain ⟨s, right, tail, hop, htouch, hnode, hnext, hlast, hsecond, hs₁, hs₂⟩ :=
            vlListSortLink_step hap hm hb hndb hne
          have ha' : Segment s.heap p (x :: a) none := htouch.segment ha hdisj'.symm
          have hperm : (m ++ [y] ++ (x :: a ++ b)).Perm (m ++ (x :: a ++ y :: b)) := by
            have hmid : (y :: (x :: a ++ b)).Perm (x :: a ++ y :: b) := List.perm_middle.symm
            rw [List.append_assoc]
            exact hmid.append_left m
          obtain ⟨t, hrest, htouch', hseg⟩ := ih (some x.1) (some y.1) (htouch.apart hap) hs₁ ha' hs₂
            ((hperm.map Prod.fst).nodup_iff.mpr hnd) (by simp) (by simp) (fun _ => rfl)
            (fun h => absurd h (List.cons_ne_nil x a))
            (by rw [List.length_append, List.length_cons]; omega)
            (by rw [htouch.capacity, List.length_append, List.length_cons]; omega)
          have hmerge : ¬ notAbove (compareEntries cmp) x y = true :=
            fun h => hle (notAbove_iff.mp h)
          rw [List.append_assoc] at hrest hseg
          refine ⟨t, ?_, (htouch.mono ?_).trans (htouch'.mono hperm.subset), ?_⟩
          · rw [if_neg hle, hop, ok_bind, hnode, ok_bind, hlast, ok_bind, hnext, hsecond,
              if_neg hmerge]
            rw [tailIter_concat] at hrest
            exact hrest
          · exact List.Sublist.subset ((List.sublist_append_right _ _).append_left m)
          · rw [if_neg hmerge]
            exact hseg

/-- **`vl_ListSortMerge`** merges two lists. -/
theorem vlListSortMerge_spec (cmp : α → α → ℤ) (hap : list.Apart)
    (ha : Segment list.heap none a none) (hb : Segment list.heap none b none)
    (hnd : ((a ++ b).map Prod.fst).Nodup) (hcap : (a ++ b).length ≤ list.nodePool.capacity)
    {c : List (VlPoolIdx × α)} (hc : c = a.merge b (notAbove (compareEntries cmp))) :
    ∃ s, vlListSortMerge list (headIter a none) (headIter b none) cmp =
        .ok (headIter c none, tailIter none c, s) ∧
      Touches list s (a ++ b) ∧ Segment s.heap none c none := by
  cases a with
  | nil =>
    obtain rfl : c = b := by rw [hc, List.nil_merge]
    have hnone : (headIter ([] : List (VlPoolIdx × α)) none).isNone = true := rfl
    refine ⟨list, ?_, .refl list _, hb⟩
    rw [vlListSortMerge, if_pos hnone, vlListSortSegmentLength_spec hb hcap]
    rfl
  | cons x a =>
    have hsome : ¬ (headIter (x :: a) none).isNone = true := Bool.false_ne_true
    cases b with
    | nil =>
      obtain rfl : c = x :: a := by rw [hc, List.merge_right]
      have hnone : (headIter ([] : List (VlPoolIdx × α)) none).isNone = true := rfl
      rw [List.append_nil] at hcap
      refine ⟨list, ?_, .refl list _, ha⟩
      rw [vlListSortMerge, if_neg hsome, if_pos hnone, vlListSortSegmentLength_spec ha hcap]
      rfl
    | cons y b =>
      have hsome' : ¬ (headIter (y :: b) none).isNone = true := Bool.false_ne_true
      have hlen := hcap
      rw [List.length_append, List.length_cons, List.length_cons] at hlen
      rw [vlListSortMerge, if_neg hsome, if_neg hsome']
      simp only [headIter_cons]
      rw [node_some ha.1, ok_bind, node_some hb.1, ok_bind]
      rw [List.cons_merge_cons] at hc
      by_cases hle : cmp x.2 y.2 ≤ 0
      · have hmerge : notAbove (compareEntries cmp) x y = true :=
          notAbove_iff.mpr hle
        have hfirst : Segment list.heap none [x] (headIter a none) := ⟨ha.1, trivial⟩
        obtain ⟨s, hrest, htouch, hseg⟩ := vlListSortMergeLoop_spec cmp list.nodePool.capacity
          (some x.1) (some y.1) hap hfirst ha.2 hb hnd (List.cons_ne_nil x []) (by simp)
          (fun h => absurd h (List.cons_ne_nil y b)) (fun _ => rfl)
          (by rw [List.length_append, List.length_cons]; omega)
          (by rw [List.length_append, List.length_cons]; omega)
        rw [if_pos hmerge] at hc
        obtain ⟨r, hloop, hrest⟩ := exists_of_bind_eq_ok hrest
        refine ⟨s, ?_, htouch, hc ▸ hseg⟩
        simp only [hle, if_true]
        have hloop' : vlListSortMergeLoop cmp list.nodePool.capacity
            ⟨list, headIter a none, some y.1, some x.1, some y.1, some x.1⟩ = .ok r := hloop
        rw [hloop', ok_bind, hrest, hc]
        rfl
      · have hmerge : ¬ notAbove (compareEntries cmp) x y = true :=
          fun h => hle (notAbove_iff.mp h)
        have hfirst : Segment list.heap none [y] (headIter b none) := ⟨hb.1, trivial⟩
        have hperm : (y :: (x :: a ++ b)).Perm (x :: a ++ y :: b) := List.perm_middle.symm
        obtain ⟨s, hrest, htouch, hseg⟩ := vlListSortMergeLoop_spec cmp list.nodePool.capacity
          (some x.1) (some y.1) hap hfirst ha hb.2 ((hperm.map Prod.fst).nodup_iff.mpr hnd)
          (List.cons_ne_nil y []) (by simp) (fun _ => rfl) (fun h => absurd h (List.cons_ne_nil x a))
          (by rw [List.length_append, List.length_cons]; omega)
          (by rw [List.length_append, List.length_cons]; omega)
        rw [if_neg hmerge] at hc
        obtain ⟨r, hloop, hrest⟩ := exists_of_bind_eq_ok hrest
        refine ⟨s, ?_, htouch.mono hperm.subset, hc ▸ hseg⟩
        simp only [hle, if_false]
        have hloop' : vlListSortMergeLoop cmp list.nodePool.capacity
            ⟨list, some x.1, headIter b none, some x.1, some y.1, some y.1⟩ = .ok r := hloop
        rw [hloop', ok_bind, hrest, hc]
        rfl

/-! ### Passes -/

/-- The first run begins where the list does. -/
theorem headIter_take (hk : 0 < k) : headIter (l.take k) p = headIter l p := by
  obtain ⟨k, rfl⟩ : ∃ n, k = n + 1 := ⟨k - 1, by omega⟩
  cases l with
  | nil => rfl
  | cons e l => rfl

/-- Two runs are cut off the front of a list and merged. -/
theorem vlListSortRuns_spec (cmp : α → α → ℤ) (hap : list.Apart)
    (h : Segment list.heap none l none) (hnd : (l.map Prod.fst).Nodup) (hk : 0 < k)
    (hcap : l.length ≤ list.nodePool.capacity) {c : List (VlPoolIdx × α)}
    (hc : c = (l.take k).merge ((l.drop k).take k) (notAbove (compareEntries cmp))) :
    ∃ s₁ s₂ s, vlListSortSplit list (headIter l none) k = .ok (headIter (l.drop k) none, s₁) ∧
      vlListSortSplit s₁ (headIter (l.drop k) none) k =
        .ok (headIter ((l.drop k).drop k) none, s₂) ∧
      vlListSortMerge s₂ (headIter l none) (headIter (l.drop k) none) cmp =
        .ok (headIter c none, tailIter none c, s) ∧
      Touches list s l ∧ Segment s.heap none c none ∧
      Segment s.heap none ((l.drop k).drop k) none := by
  obtain ⟨s₁, hop₁, htouch₁, hfirst₁, hrest₁⟩ := vlListSortSplit_spec hap h hnd hk
  have hcut : l.take k ++ l.drop k = l := List.take_append_drop k l
  have hcut' : (l.drop k).take k ++ (l.drop k).drop k = l.drop k := List.take_append_drop k _
  have hnd₁ := hnd
  rw [← hcut, List.map_append, List.nodup_append'] at hnd₁
  obtain ⟨hndfirst, hndrest, hdisj⟩ := hnd₁
  obtain ⟨s₂, hop₂, htouch₂, hsecond₂, hrest₂⟩ :=
    vlListSortSplit_spec (htouch₁.apart hap) hrest₁ hndrest hk
  have hfirst₂ : Segment s₂.heap none (l.take k) none := htouch₂.segment hfirst₁ hdisj
  have hsub : (l.take k ++ (l.drop k).take k).Sublist l := by
    have := (List.take_sublist k (l.drop k)).append_left (l.take k)
    rwa [hcut] at this
  have hap₂ : s₂.Apart := htouch₂.apart (htouch₁.apart hap)
  obtain ⟨s, hop, htouch, hseg⟩ := vlListSortMerge_spec cmp hap₂ hfirst₂ hsecond₂
    (hnd.sublist (hsub.map _))
    (hsub.length_le.trans (hcap.trans_eq (htouch₂.capacity.trans htouch₁.capacity).symm)) hc
  have hdisj' : (((l.drop k).drop k).map Prod.fst).Disjoint
      ((l.take k ++ (l.drop k).take k).map Prod.fst) := by
    have hall := hnd
    rw [← hcut, ← hcut', ← List.append_assoc, List.map_append, List.nodup_append'] at hall
    exact hall.2.2.symm
  rw [headIter_take hk, headIter_take hk] at hop
  refine ⟨s₁, s₂, s, hop₁, hop₂, hop, ?_, hseg, htouch.segment hrest₂ hdisj'⟩
  exact htouch₁.trans ((htouch₂.mono (List.drop_subset k l)).trans (htouch.mono hsub.subset))

/-- What a pass has merged comes behind what it merged before, or becomes the head. -/
theorem vlListSortAppend_spec {c r : List (VlPoolIdx × α)} (hap : list.Apart)
    (h₁ : Segment list.heap none l₁ none) (hc : Segment list.heap none c none)
    (hr : Segment list.heap none r none) (hnd : ((l₁ ++ c ++ r).map Prod.fst).Nodup)
    (hne : c ≠ []) (hhead : l₁ ≠ [] → list.head = headIter l₁ none) :
    ∃ s, (if (tailIter none l₁).isNone then .ok { list with head := headIter c none }
        else vlListSortLink list (tailIter none l₁) (headIter c none) (headIter c none)) = .ok s ∧
      s = { list with mem := s.mem, head := headIter (l₁ ++ c) none } ∧
      Segment s.heap none (l₁ ++ c) none ∧ Segment s.heap none r none := by
  rw [List.map_append, List.nodup_append'] at hnd
  obtain ⟨hnd, -, hdisj⟩ := hnd
  by_cases hnil : l₁ = []
  · subst hnil
    exact ⟨{ list with head := headIter c none }, rfl, rfl, hc, hr⟩
  · obtain ⟨s, hop, htouch, hseg⟩ := vlListSortLink_spec hap h₁ hc hnd hnil hne
    have hsome : ¬ (tailIter none l₁).isNone = true := by
      rwa [Option.isNone_iff_eq_none, tailIter_none_eq_none]
    refine ⟨s, by rw [if_neg hsome, hop], ?_, hseg, htouch.segment hr hdisj.symm⟩
    have hsame : headIter (l₁ ++ c) none = list.head := by
      obtain ⟨e, l, rfl⟩ := List.exists_cons_of_ne_nil hnil
      rw [hhead hnil]
      rfl
    rw [hsame]
    exact htouch.same

/-- **A pass merges the runs** of a list in pairs. -/
theorem vlListSortPass_spec (cmp : α → α → ℤ) (hk : 0 < k) (fuel : ℕ) (hap : list.Apart)
    (hdone : Segment list.heap none l₁ none) (hrest : Segment list.heap none l₂ none)
    (hnd : ((l₁ ++ l₂).map Prod.fst).Nodup) (hhead : list.head = headIter (l₁ ++ l₂) none)
    (hfuel : l₂.length ≤ fuel) (hcap : (l₁ ++ l₂).length ≤ list.nodePool.capacity)
    {r : List (VlPoolIdx × α)} (hr : r = l₁ ++ mergePass (compareEntries cmp) k l₂) :
    ∃ s, vlListSortPass cmp k fuel list (headIter l₂ none) (tailIter none l₁) = .ok s ∧
      s = { list with mem := s.mem, head := headIter r none } ∧ Segment s.heap none r none := by
  induction fuel generalizing list l₁ l₂ with
  | zero =>
    obtain rfl : l₂ = [] := List.eq_nil_of_length_eq_zero (Nat.le_zero.mp hfuel)
    rw [mergePass_nil, List.append_nil] at hr
    rw [List.append_nil] at hhead
    subst hr
    exact ⟨list, rfl, by rw [← hhead], hdone⟩
  | succ fuel ih =>
    by_cases hnil : l₂ = []
    · subst hnil
      rw [mergePass_nil, List.append_nil] at hr
      rw [List.append_nil] at hhead
      subst hr
      exact ⟨list, rfl, by rw [← hhead], hdone⟩
    have hnds := hnd
    rw [List.map_append, List.nodup_append'] at hnds
    obtain ⟨-, hnd₂, hdisj⟩ := hnds
    obtain ⟨c, hc⟩ : ∃ c, c = (l₂.take k).merge ((l₂.drop k).take k)
      (notAbove (compareEntries cmp)) := ⟨_, rfl⟩
    rw [List.length_append] at hcap
    obtain ⟨s₁, s₂, s₃, hop₁, hop₂, hop₃, htouch, hseg, hrest'⟩ :=
      vlListSortRuns_spec cmp hap hrest hnd₂ hk (by omega) hc
    -- the merged runs and the rest are the list again
    have hperm : (c ++ (l₂.drop k).drop k).Perm l₂ := by
      have hmerge : c.Perm (l₂.take k ++ (l₂.drop k).take k) := hc ▸ List.merge_perm_append _
      have hcut : l₂.take k ++ (l₂.drop k).take k ++ (l₂.drop k).drop k = l₂ := by
        rw [List.append_assoc, List.take_append_drop, List.take_append_drop]
      have happ := hmerge.append_right ((l₂.drop k).drop k)
      rwa [hcut] at happ
    have hlen := hperm.length_eq
    rw [List.length_append] at hlen
    have hpos := List.length_pos_of_ne_nil hnil
    have hcne : c ≠ [] := by
      rintro rfl
      rw [List.length_nil, List.length_drop, List.length_drop] at hlen
      omega
    have hnd' : ((l₁ ++ c ++ (l₂.drop k).drop k).map Prod.fst).Nodup := by
      rw [List.append_assoc]
      exact ((hperm.append_left l₁).map Prod.fst).nodup_iff.mpr hnd
    obtain ⟨s₄, hop₄, hsame, hdone₄, hrest₄⟩ := vlListSortAppend_spec (htouch.apart hap)
      (htouch.segment hdone hdisj) hseg hrest' hnd' hcne fun hne => by
        obtain ⟨e, l, rfl⟩ := List.exists_cons_of_ne_nil hne
        rw [htouch.same]
        exact hhead
    have hlist : s₄ = { list with mem := s₄.mem, head := headIter (l₁ ++ c) none } := by
      rw [hsame, htouch.same]
    have hap₄ : s₄.Apart := by
      rw [hlist]
      exact hap
    have hcap₄ : s₄.nodePool.capacity = list.nodePool.capacity := by rw [hlist]
    have hhead₄ : s₄.head = headIter (l₁ ++ c ++ (l₂.drop k).drop k) none := by
      obtain ⟨e, l, rfl⟩ := List.exists_cons_of_ne_nil hcne
      rw [hlist, headIter_append, headIter_append, headIter_append]
      rfl
    obtain ⟨s, hop, hsame', hfinal⟩ := ih hap₄ hdone₄ hrest₄ hnd' hhead₄
      (by have := List.length_pos_of_ne_nil hcne; omega)
      (by rw [List.length_append, List.length_append, hcap₄]; omega)
      (by rw [hr, mergePass_eq hk, ← hc, List.append_assoc])
    refine ⟨s, ?_, ?_, hfinal⟩
    · obtain ⟨e, l, rfl⟩ := List.exists_cons_of_ne_nil hnil
      have htail : tailIter none c = tailIter none (l₁ ++ c) := by
        rw [tailIter_append, tailIter_eq_of_ne_nil hcne]
      rw [headIter_cons] at hop₁ hop₃ ⊢
      rw [vlListSortPass, hop₁, ok_bind]
      dsimp only
      rw [hop₂, ok_bind]
      dsimp only
      rw [hop₃, ok_bind]
      dsimp only
      rw [hop₄, ok_bind, htail, hop]
    · rw [hsame', hlist]

/-- **The passes sort the list**, as long as its length does not lose its place in 32 bits. -/
theorem vlListSortLoop_spec {cmp : α → α → ℤ} (hlaw : LawfulComparator cmp) (fuel j : ℕ)
    (h : Segment list.heap none l none) (hap : list.Apart) (hnd : (l.map Prod.fst).Nodup)
    (hhead : list.head = headIter l none) (hcap : l.length ≤ list.nodePool.capacity)
    (hruns : Runs (compareEntries cmp) (2 ^ j) l) {length : ℕ}
    (hlen : l.length ≤ length) (hmax : length ≤ 2 ^ 31) (hfuel : 32 ≤ fuel + j) :
    ∃ s l', vlListSortLoop cmp length fuel (2 ^ j) list = .ok s ∧
      s = { list with mem := s.mem, head := headIter l' none } ∧ Segment s.heap none l' none ∧
      Rearranges (compareEntries cmp) l l' ∧ Ascending (compareEntries cmp) l' := by
  induction fuel generalizing list l j with
  | zero =>
    have hpow : 2 ^ 32 ≤ 2 ^ j := Nat.pow_le_pow_right two_pos (by omega)
    have hlt : ¬ 2 ^ j < length := by omega
    refine ⟨list, l, by rw [vlListSortLoop, if_neg hlt], by rw [← hhead], h, .refl l,
      hruns.ascending (by omega)⟩
  | succ fuel ih =>
    by_cases hlt : 2 ^ j < length
    · have hj : j < 31 := (Nat.pow_lt_pow_iff_right (by norm_num : 1 < 2)).mp (by omega)
      have hnext : 2 ^ j * 2 % 2 ^ 32 = 2 ^ (j + 1) := by
        rw [← Nat.pow_succ, Nat.mod_eq_of_lt]
        exact Nat.pow_lt_pow_right (by norm_num) (by omega)
      obtain ⟨hrear, hruns'⟩ :=
        hruns.mergePass_spec hlaw.entries (Nat.two_pow_pos j)
      rw [← Nat.pow_succ'] at hruns'
      obtain ⟨s₁, hop₁, hsame₁, hseg₁⟩ := vlListSortPass_spec cmp (Nat.two_pow_pos j)
        list.nodePool.capacity hap (show Segment list.heap none [] none from trivial) h hnd hhead
        hcap hcap rfl
      have hlen' := hrear.perm.length_eq
      obtain ⟨s, l', hop, hsame, hseg, hrear', hasc⟩ := ih (j + 1) hseg₁
        (by rw [hsame₁]; exact hap) ((hrear.perm.map Prod.fst).nodup_iff.mpr hnd) (by rw [hsame₁])
        (by rw [hsame₁]; exact hlen'.trans_le hcap) hruns' (hlen'.trans_le hlen) (by omega)
      refine ⟨s, l', ?_, by rw [hsame, hsame₁], hseg, hrear.trans hrear', hasc⟩
      rw [vlListSortLoop, if_pos hlt, hhead]
      have hop₁' : vlListSortPass cmp (2 ^ j) list.nodePool.capacity list (headIter l none) none =
          .ok s₁ := hop₁
      rw [hop₁', ok_bind, hnext, hop]
    · refine ⟨list, l, by rw [vlListSortLoop, if_neg hlt], by rw [← hhead], h, .refl l,
        hruns.ascending (by omega)⟩

end Steps

end VeritableLasagna
