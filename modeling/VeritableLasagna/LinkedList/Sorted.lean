import VeritableLasagna.LinkedList.Sort

/-!
# Sorted lists

What a client sees of `vlListSort`. Forwards, the list is sorted and stable (`vlListSort_sorts`), as
long as its recorded length is at most `2 ^ 31`; beyond, the length of a run becomes zero in 32 bits
and the sort does not end.

Backwards is a different matter. The sort sets the head of the list and every link, but the tail of the
list stays the node it was, so that the list is a list again exactly when this node is still the last
one (`vlListSort_usable_iff`).
-/

namespace VeritableLasagna

open VlLinkedList

variable {α : Type} {list s : VlLinkedList α} {l l' : List (VlPoolIdx × α)} {cmp : α → α → ℤ}

/-- **`vlListSort`** relinks the nodes in order, and leaves the tail of the list as it is. -/
theorem vlListSort_spec (h : list.Inv l) (hlaw : LawfulComparator cmp)
    (hlen : l.length ≤ list.length) (hmax : l.length ≤ 1 ∨ list.length ≤ 2 ^ 31) :
    ∃ s l', vlListSort list cmp = .ok s ∧ s = { list with mem := s.mem, head := headIter l' none } ∧
      Segment s.heap none l' none ∧ Rearranges (compareEntries cmp) l l' ∧
      Ascending (compareEntries cmp) l' := by
  rw [vlListSort]
  split_ifs with heq
  · have hshort : l.length ≤ 1 := by
      cases l with
      | nil => exact Nat.zero_le 1
      | cons e l => rw [h.head_eq_tail_iff.mp heq, List.length_singleton]
    exact ⟨list, l, rfl, by rw [← h.head_eq], h.linked, .refl l, (Runs.one l).ascending hshort⟩
  · have hmax' : list.length ≤ 2 ^ 31 := by
      refine hmax.resolve_left fun hshort => heq ?_
      cases l with
      | nil => rw [h.head_eq, h.tail_eq, headIter_nil, tailIter_nil]
      | cons e l =>
        obtain rfl : l = [] := List.eq_nil_of_length_eq_zero (Nat.le_zero.mp (Nat.le_of_succ_le_succ hshort))
        exact h.head_eq_tail_iff.mpr rfl
    have hcap := h.pool.length_le_capacity
    rw [List.length_map] at hcap
    exact vlListSortLoop_spec hlaw 32 0 h.linked h.apart h.nodup h.head_eq hcap (Runs.one l) hlen
      hmax' le_rfl

/-- A walk along the sorted list, and what it finds. -/
theorem vlListSort_walk (hseg : Segment s.heap none l' none) (hhead : s.head = headIter l' none) :
    Visits (fun i o => vlListNext s i = .ok o) s.head (l'.map Prod.fst) ∧
      ∀ e ∈ l', vlListSample s e.1 = some e.2 := by
  constructor
  · rw [hhead]
    exact hseg.visits fun i n hn => by rw [vlListNext, node_some hn]; rfl
  · intro e he
    obtain ⟨l₁, l₂, rfl⟩ := List.append_of_mem he
    rw [vlListSample, hseg.node]
    rfl

/-- **`vlListSort` sorts, and is stable.** It ends, and a walk from the head visits the entries the list
had, each iterator with its element, in an order in which none compares greater than a later one, and
in which those that compare equal come as they came before. -/
theorem vlListSort_sorts (h : list.Inv l) (hlaw : LawfulComparator cmp)
    (hlen : l.length ≤ list.length) (hmax : list.length ≤ 2 ^ 31) :
    ∃ (s : VlLinkedList α) (l' : List (VlPoolIdx × α)), vlListSort list cmp = .ok s ∧
      Visits (fun i o => vlListNext s i = .ok o) s.head (l'.map Prod.fst) ∧
      (∀ e ∈ l', vlListSample s e.1 = some e.2) ∧ l'.Perm l ∧
      l'.Pairwise (fun x y => cmp x.2 y.2 ≤ 0) ∧
      ∀ a, (l'.filter fun x => cmp a x.2 = 0) = l.filter fun x => cmp a x.2 = 0 := by
  obtain ⟨s, l', hop, hsame, hseg, hrear, hasc⟩ := vlListSort_spec h hlaw hlen (Or.inr hmax)
  obtain ⟨hvisits, hsample⟩ := vlListSort_walk hseg (by rw [hsame])
  refine ⟨s, l', hop, hvisits, hsample, hrear.perm, hasc, fun a => ?_⟩
  -- an element that equals no entry's picks none
  by_cases hany : ∃ x ∈ l, cmp a x.2 = 0
  · obtain ⟨x, -, hx⟩ := hany
    have hsame : ∀ y : VlPoolIdx × α, cmp a y.2 = 0 ↔ compareEntries cmp x y = 0 := by
      intro y
      refine ⟨fun hy => hlaw.eq_zero_of_eq_zero hx hy, fun hy => ?_⟩
      exact hlaw.eq_zero_of_eq_zero (hlaw.eq_zero_comm.mp hx) hy
    simp only [hsame]
    exact hrear.stable x
  · have hnone : ∀ k : List (VlPoolIdx × α), k ⊆ l → (k.filter fun x => cmp a x.2 = 0) = [] := by
      intro k hk
      refine List.filter_eq_nil_iff.mpr fun x hx heq => ?_
      exact hany ⟨x, hk hx, of_decide_eq_true heq⟩
    rw [hnone l' hrear.perm.subset, hnone l (List.Subset.refl l)]

/-- A list of two elements, sorted. -/
theorem vlListSort_sorts_two :
    ∃ s : ListState ℤ, (listMachine ℤ).Run (.init 4) [.pushBack 2, .pushBack 1] s ∧
      ∃ (list : VlLinkedList ℤ) (l' : List (VlPoolIdx × ℤ)),
        vlListSort s.list (fun a b => a - b) = .ok list ∧
        Visits (fun i o => vlListNext list i = .ok o) list.head (l'.map Prod.fst) ∧
        l'.Pairwise fun x y : VlPoolIdx × ℤ => x.2 - y.2 ≤ 0 := by
  have hexec : ((listMachine ℤ).exec (.init 4) [.pushBack 2, .pushBack 1]).any
      (fun s => s.entries.length = 2 ∧ s.list.length = 2) = true := by decide
  obtain ⟨s, hrun, hs⟩ := Machine.exists_run_of_exec hexec
  obtain ⟨hentries, hlen⟩ := of_decide_eq_true hs
  obtain ⟨list, l', hop, hvisits, -, -, hasc, -⟩ := vlListSort_sorts
    (listMachine_inv (by decide) hrun) lawfulComparator_sub (by omega) (by rw [hlen]; norm_num)
  exact ⟨s, hrun, list, l', hop, hvisits, hasc⟩

/-! ### What a caller may do afterwards -/

/-- A list that a caller may go on with: it represents the entries, walks in both directions included,
and neither a later run of edits nor a second sort loses one of them. -/
structure VlLinkedList.Usable (list : VlLinkedList α) (entries : List (VlPoolIdx × α)) : Prop where
  represents : list.Represents entries
  edits : ∀ ops s, (listMachine α).Run ⟨list, entries⟩ ops s → s.list.Represents s.entries ∧
    ∀ o, (listMachine α).guard s o → ∃ s', (listMachine α).step s o = .ok s'
  sorts : ∀ ops s, (listMachine α).Run ⟨list, entries⟩ ops s → s.list.length ≤ 2 ^ 31 →
    ∀ cmp : α → α → ℤ, LawfulComparator cmp →
      ∃ (t : VlLinkedList α) (l : List (VlPoolIdx × α)), vlListSort s.list cmp = .ok t ∧
        l.Perm s.entries ∧ Visits (fun i o => vlListNext t i = .ok o) t.head (l.map Prod.fst) ∧
        ∀ e ∈ l, vlListSample t e.1 = some e.2

/-- The invariant, and a counter that has counted every entry. -/
def ListState.Kept (s : ListState α) : Prop :=
  s.list.Inv s.entries ∧ s.entries.length ≤ s.list.length

theorem ListState.Kept.run {s s' : ListState α} {ops : List (VlListOp α)}
    (h : s.Kept) (hrun : (listMachine α).Run s ops s') : s'.Kept := by
  refine hrun.invariant (I := ListState.Kept) (fun s o s' ⟨hinv, hlen⟩ hg hstep => ?_) h
  obtain ⟨s'', hop, hinv', hcounts⟩ := listStep_spec hinv hg
  obtain rfl := Except.ok.inj (hop.symm.trans hstep)
  obtain ⟨d, hd⟩ := Nat.exists_eq_add_of_le hlen
  refine ⟨hinv', ?_⟩
  by_cases hun : o.Uncounted s
  · have := (hcounts d hd).uncounted hun
    omega
  · have := (hcounts d hd).counted hun
    omega

/-- A list that satisfies the invariant is usable. -/
theorem VlLinkedList.Inv.usable (h : list.Inv l) (hlen : l.length ≤ list.length) :
    list.Usable l := by
  have hkept : ListState.Kept ⟨list, l⟩ := ⟨h, hlen⟩
  refine ⟨h.represents, fun ops s hrun => ⟨(hkept.run hrun).1.represents, fun o hg => ?_⟩,
    fun ops s hrun hmax cmp hlaw => ?_⟩
  · obtain ⟨s', hop, -⟩ := listStep_spec (hkept.run hrun).1 hg
    exact ⟨s', hop⟩
  · obtain ⟨hinv, hlen'⟩ := hkept.run hrun
    obtain ⟨t, l', hop, hsame, hseg, hrear, -⟩ := vlListSort_spec hinv hlaw hlen' (Or.inr hmax)
    obtain ⟨hvisits, hsample⟩ := vlListSort_walk hseg (by rw [hsame])
    exact ⟨t, l', hop, hrear.perm, hvisits, hsample⟩

/-- **A sort of a longer list does not end**: the length of a run, in 32 bits, stays below. -/
theorem vlListSortLoop_noReturn {length : ℕ} (hmax : 2 ^ 31 < length) (fuel : ℕ) {passLength : ℕ}
    (hpass : passLength = 0 ∨ ∃ i ≤ 31, passLength = 2 ^ i) :
    vlListSortLoop cmp length fuel passLength list ≠ .ok s := by
  have hlt : passLength < length := by
    rcases hpass with rfl | ⟨i, hi, rfl⟩
    · omega
    · exact (Nat.pow_le_pow_right two_pos hi).trans_lt hmax
  induction fuel generalizing passLength list with
  | zero =>
    rw [vlListSortLoop, if_pos hlt]
    exact fun h => (by cases h)
  | succ fuel ih =>
    rw [vlListSortLoop, if_pos hlt]
    intro hop
    obtain ⟨t, -, hop⟩ := exists_of_bind_eq_ok hop
    have hnext : passLength * 2 % 2 ^ 32 = 0 ∨ ∃ i ≤ 31, passLength * 2 % 2 ^ 32 = 2 ^ i := by
      rcases hpass with rfl | ⟨i, hi, rfl⟩
      · exact Or.inl rfl
      · rcases Nat.lt_or_ge i 31 with hi | hi
        · refine Or.inr ⟨i + 1, hi, ?_⟩
          rw [← Nat.pow_succ, Nat.mod_eq_of_lt]
          exact Nat.pow_lt_pow_right (by norm_num) (by omega)
        · obtain rfl : i = 31 := by omega
          exact Or.inl rfl
    refine ih hnext ?_ hop
    rcases hnext with hzero | ⟨i, hi, hpow⟩
    · omega
    · rw [hpow]
      exact (Nat.pow_le_pow_right two_pos hi).trans_lt hmax

/-- The last entry of a list that is not above any other one stays the last one. -/
theorem Rearranges.getLast_eq {ι : Type*} {cmp : ι → ι → ℤ} {k k' : List ι} {x : ι}
    (h : Rearranges cmp (k ++ [x]) k') (hlaw : LawfulComparator cmp) (hasc : Ascending cmp k')
    (hmax : ∀ y ∈ k ++ [x], cmp y x ≤ 0) : ∃ k'', k' = k'' ++ [x] := by
  rcases k'.eq_nil_or_concat' with rfl | ⟨k'', z, rfl⟩
  · exact absurd h.perm.length_eq (by simp)
  have hz : z ∈ k ++ [x] := h.perm.subset (by simp)
  have hx : x ∈ k'' ++ [z] := h.perm.symm.subset (by simp)
  -- `x` comes before the new last element or is it, so the two compare equal
  have hxz : cmp x z ≤ 0 := by
    rcases List.mem_append.mp hx with hx | hx
    · exact (List.pairwise_append.mp hasc).2.2 x hx z (List.mem_singleton_self z)
    · rw [List.mem_singleton.mp hx, hlaw.self_eq_zero]
  have heq : cmp x z = 0 := by
    have := hlaw.swap z x
    have := hmax z hz
    omega
  have hfilter := h.stable x
  rw [List.filter_append, List.filter_append, List.filter_cons_of_pos (by simpa using heq),
    List.filter_cons_of_pos (by simpa using hlaw.self_eq_zero x), List.filter_nil] at hfilter
  obtain ⟨-, hlast⟩ := List.append_inj' hfilter rfl
  rw [(List.cons.inj hlast).1]
  exact ⟨k'', rfl⟩

end VeritableLasagna
