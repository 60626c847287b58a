import VeritableLasagna.AsyncPool.Client

/-!
# Clearing, resetting and freeing an asynchronous pool

`vlAsyncPoolClear` and `vlAsyncPoolReset` walk from the primary block back to the first one, and
`vlAsyncPoolFree` walks from the primary block to the last one. What each of them leaves depends on
where in the list the primary block stands: clearing is right wherever it does, resetting loses the
blocks behind it, and freeing misses those before it.
-/

namespace VeritableLasagna

variable {T : Type}

section Walks

variable {s : AsyncPool T} {before behind as lost released : List ℕ} {current fuel a : ℕ} {b : AsyncBlock}
  {q : Option ℕ}

/-- The first of the blocks up to `current`. -/
def firstBlock (before : List ℕ) (current : ℕ) : ℕ := before.head?.getD current

@[simp] theorem firstBlock_nil : firstBlock [] current = current := rfl

@[simp] theorem firstBlock_concat {p : ℕ} :
    firstBlock (before ++ [p]) current = firstBlock before p := by
  cases before with
  | nil => rfl
  | cons a before => rfl

theorem firstBlock_mem : firstBlock before current ∈ before ++ [current] := by
  cases before with
  | nil => exact List.mem_singleton_self _
  | cons a before => exact List.mem_cons_self

/-- A block whose elements are all back. -/
def AsyncBlock.cleared (b : AsyncBlock) : AsyncBlock := { b with taken := 0 }

/-- The blocks of a list cleared. -/
def clearBlocks (blocks : ℕ → Option AsyncBlock) (as : List ℕ) : ℕ → Option AsyncBlock :=
  fun a => if a ∈ as then (blocks a).map AsyncBlock.cleared else blocks a

/-- The blocks without those of a list. -/
def dropBlocks (blocks : ℕ → Option AsyncBlock) (as : List ℕ) : ℕ → Option AsyncBlock :=
  fun a => if a ∈ as then none else blocks a

/-- The end of a list that is walked backwards: its last block, and the segment before it. -/
theorem segment_concat (h : Segment (blockLinks s.blocks) none (blockEntries (as ++ [current])) q) :
    ∃ b, s.blocks current = some b ∧ iterOf b.prev = as.getLast? ∧
      Segment (blockLinks s.blocks) none (blockEntries as) (some current) := by
  rw [blockEntries_append] at h
  obtain ⟨hfront, hnode, -⟩ := segment_append.mp h
  rw [tailIter_blockEntries, blockLinks] at hnode
  obtain ⟨b, hb, hnode⟩ := Option.map_eq_some_iff.mp hnode
  exact ⟨b, hb, congrArg ListNode.prev hnode, hfront⟩

/-- The start of a list that is walked forwards: its first block, and the segment behind it. -/
theorem segment_cons {p : Option ℕ}
    (h : Segment (blockLinks s.blocks) p (blockEntries (current :: as)) none) :
    ∃ b, s.blocks current = some b ∧ iterOf b.next = as.head? ∧
      Segment (blockLinks s.blocks) (some current) (blockEntries as) none := by
  obtain ⟨hnode, hrest⟩ := h
  obtain ⟨b, hb, hnode⟩ := Option.map_eq_some_iff.mp hnode
  exact ⟨b, hb, (congrArg ListNode.next hnode).trans headIter_blockEntries, hrest⟩

/-- A segment does not see a change of another block. -/
theorem segment_update {o : Option AsyncBlock} {p : Option ℕ} (ha : a ∉ as)
    (h : Segment (blockLinks s.blocks) p (blockEntries as) q) :
    Segment (blockLinks (Function.update s.blocks a o)) p (blockEntries as) q := by
  refine h.congr fun x hx => ?_
  rw [blockEntries_fst] at hx
  have hne : x ≠ a := by
    rintro rfl
    exact ha hx
  rw [blockLinks, blockLinks, Function.update_of_ne hne]

/-- The last block of a list is cleared before those in front of it. -/
theorem clearBlocks_concat {blocks : ℕ → Option AsyncBlock} (hb : blocks a = some b) (ha : a ∉ as) :
    clearBlocks (Function.update blocks a (some b.cleared)) as = clearBlocks blocks (as ++ [a]) := by
  funext x
  rw [clearBlocks, clearBlocks]
  by_cases hx : x = a
  · rw [hx, if_neg ha, Function.update_self, if_pos (by simp), hb]
    rfl
  · rw [Function.update_of_ne hx]
    simp [hx]

theorem dropBlocks_nil {blocks : ℕ → Option AsyncBlock} : dropBlocks blocks [] = blocks := rfl

/-- The last block of a list is dropped before those in front of it. -/
theorem dropBlocks_concat {blocks : ℕ → Option AsyncBlock} :
    dropBlocks (Function.update blocks a none) as = dropBlocks blocks (as ++ [a]) := by
  funext x
  rw [dropBlocks, dropBlocks]
  by_cases hx : x = a
  · rw [hx, Function.update_self]
    simp
  · rw [Function.update_of_ne hx]
    simp [hx]

/-- The first block of a list is dropped before those behind it. -/
theorem dropBlocks_cons {blocks : ℕ → Option AsyncBlock} :
    dropBlocks (Function.update blocks a none) as = dropBlocks blocks (a :: as) := by
  funext x
  rw [dropBlocks, dropBlocks]
  by_cases hx : x = a
  · rw [hx, Function.update_self]
    simp
  · rw [Function.update_of_ne hx]
    simp [hx]

/-- `vlAsyncPoolClear` at the first block. -/
theorem vlAsyncPoolClearLoop_first (hcurrent : current ≠ 0) (hb : s.blocks current = some b)
    (hprev : b.prev = 0) :
    vlAsyncPoolClearLoop s (fuel + 1) current =
      .ok { s.setBlock current b.cleared with primaryBlock := s.primaryBlock.next current } := by
  obtain ⟨n, rfl⟩ := Nat.exists_eq_succ_of_ne_zero hcurrent
  obtain ⟨next, prev, elements, taken⟩ := b
  obtain rfl : prev = 0 := hprev
  simp only [vlAsyncPoolClearLoop]
  rw [hb, deref_some, ok_bind, if_pos rfl, vlAsyncPoolClearLoop]
  rfl

/-- `vlAsyncPoolClear` at another block. -/
theorem vlAsyncPoolClearLoop_next (hcurrent : current ≠ 0) (hb : s.blocks current = some b)
    (hprev : b.prev ≠ 0) :
    vlAsyncPoolClearLoop s (fuel + 1) current =
      vlAsyncPoolClearLoop (s.setBlock current b.cleared) fuel b.prev := by
  obtain ⟨n, rfl⟩ := Nat.exists_eq_succ_of_ne_zero hcurrent
  simp only [vlAsyncPoolClearLoop]
  rw [hb, deref_some, ok_bind, if_neg hprev]
  rfl

/-- `vlAsyncPoolReset` at the first block. -/
theorem vlAsyncPoolResetLoop_first {last : ℕ} (hcurrent : current ≠ 0)
    (hb : s.blocks current = some b) (hprev : b.prev = 0) :
    vlAsyncPoolResetLoop s last (fuel + 1) current = .ok ([], current,
      { s.setBlock current b.cleared with primaryBlock := s.primaryBlock.next current }) := by
  obtain ⟨n, rfl⟩ := Nat.exists_eq_succ_of_ne_zero hcurrent
  obtain ⟨next, prev, elements, taken⟩ := b
  obtain rfl : prev = 0 := hprev
  simp only [vlAsyncPoolResetLoop]
  rw [hb, deref_some, ok_bind, if_neg (by simp), vlAsyncPoolResetLoop]
  rfl

/-- `vlAsyncPoolReset` at another block. -/
theorem vlAsyncPoolResetLoop_next {last : ℕ} (hcurrent : current ≠ 0)
    (hb : s.blocks current = some b) (hprev : b.prev ≠ 0) :
    vlAsyncPoolResetLoop s last (fuel + 1) current =
      (vlAsyncPoolResetLoop (s.dropBlock current) current fuel b.prev).map
        fun r => (current :: r.1, r.2) := by
  obtain ⟨n, rfl⟩ := Nat.exists_eq_succ_of_ne_zero hcurrent
  simp only [vlAsyncPoolResetLoop]
  have hdrop : (s.setBlock n.succ b.cleared).dropBlock n.succ = s.dropBlock n.succ := by
    simp [AsyncPool.dropBlock, AsyncPool.setBlock]
  rw [hb, deref_some, ok_bind, if_pos hprev, ← hdrop]
  rfl

/-- `vlAsyncPoolFree` at a block. -/
theorem vlAsyncPoolFreeLoop_next (hcurrent : current ≠ 0) (hb : s.blocks current = some b) :
    vlAsyncPoolFreeLoop s (fuel + 1) current =
      (vlAsyncPoolFreeLoop (s.dropBlock current) fuel b.next).map fun r => (current :: r.1, r.2) := by
  obtain ⟨n, rfl⟩ := Nat.exists_eq_succ_of_ne_zero hcurrent
  rw [vlAsyncPoolFreeLoop, hb, deref_some, ok_bind]
  rfl

/-- **`vlAsyncPoolClear` walks to the first block** and clears what it passes. -/
theorem vlAsyncPoolClearLoop_spec
    (h : Segment (blockLinks s.blocks) none (blockEntries (before ++ [current])) q)
    (hnodup : (before ++ [current]).Nodup) (hnull : 0 ∉ before ++ [current])
    (hfuel : before.length < fuel) :
    vlAsyncPoolClearLoop s fuel current = .ok { s with
      blocks := clearBlocks s.blocks (before ++ [current])
      primaryBlock := s.primaryBlock.next (firstBlock before current) } := by
  induction before using List.reverseRecOn generalizing s current fuel q with
  | nil =>
    obtain ⟨b, hb, hprev, -⟩ := segment_concat h
    obtain ⟨fuel, rfl⟩ := Nat.exists_eq_succ_of_ne_zero (Nat.ne_of_gt hfuel)
    rw [vlAsyncPoolClearLoop_first (fun heq => hnull (by simp [heq])) hb (iterOf_eq_none hprev),
      ← clearBlocks_concat hb (by simp)]
    rfl
  | append_singleton before p ih =>
    obtain ⟨b, hb, hprev, hfront⟩ := segment_concat h
    rw [List.getLast?_concat] at hprev
    have hprev : b.prev = p := iterOf_eq_some hprev
    obtain ⟨hnodup', -, hdisj⟩ := List.nodup_append'.mp hnodup
    have hmem : current ∉ before ++ [p] := fun hmem => hdisj hmem (List.mem_singleton_self _)
    obtain ⟨fuel, rfl⟩ := Nat.exists_eq_succ_of_ne_zero (Nat.ne_of_gt (Nat.zero_lt_of_lt hfuel))
    rw [List.length_append, List.length_singleton] at hfuel
    have hrest := ih (s := s.setBlock current b.cleared) (segment_update hmem hfront) hnodup'
      (fun hzero => hnull (List.mem_append_left _ hzero)) (Nat.lt_of_succ_lt_succ hfuel)
    rw [vlAsyncPoolClearLoop_next (fun heq => hnull (by simp [heq])) hb
      (hprev ▸ fun heq => hnull (by simp [heq])), hprev, hrest, firstBlock_concat,
      ← clearBlocks_concat hb hmem]
    rfl

/-- **`vlAsyncPoolReset` walks to the first block** and releases what it passes before. -/
theorem vlAsyncPoolResetLoop_spec (last : ℕ)
    (h : Segment (blockLinks s.blocks) none (blockEntries (before ++ [current])) q)
    (hnodup : (before ++ [current]).Nodup) (hnull : 0 ∉ before ++ [current])
    (hfuel : before.length < fuel) :
    vlAsyncPoolResetLoop s last fuel current =
      .ok ((before ++ [current]).tail.reverse, firstBlock before current, { s with
        blocks := clearBlocks (dropBlocks s.blocks (before ++ [current]).tail)
          [firstBlock before current]
        primaryBlock := s.primaryBlock.next (firstBlock before current) }) := by
  induction before using List.reverseRecOn generalizing s current fuel q last with
  | nil =>
    obtain ⟨b, hb, hprev, -⟩ := segment_concat h
    obtain ⟨fuel, rfl⟩ := Nat.exists_eq_succ_of_ne_zero (Nat.ne_of_gt hfuel)
    rw [vlAsyncPoolResetLoop_first (fun heq => hnull (by simp [heq])) hb (iterOf_eq_none hprev)]
    have hclear := clearBlocks_concat hb (List.not_mem_nil (a := current))
    change _ = Except.ok (_, _, { s with
      blocks := clearBlocks (dropBlocks s.blocks []) ([] ++ [current]), primaryBlock := _ })
    rw [dropBlocks_nil, ← hclear]
    rfl
  | append_singleton before p ih =>
    obtain ⟨b, hb, hprev, hfront⟩ := segment_concat h
    rw [List.getLast?_concat] at hprev
    have hprev : b.prev = p := iterOf_eq_some hprev
    obtain ⟨hnodup', -, hdisj⟩ := List.nodup_append'.mp hnodup
    have hmem : current ∉ before ++ [p] := fun hmem => hdisj hmem (List.mem_singleton_self _)
    obtain ⟨fuel, rfl⟩ := Nat.exists_eq_succ_of_ne_zero (Nat.ne_of_gt (Nat.zero_lt_of_lt hfuel))
    rw [List.length_append, List.length_singleton] at hfuel
    have hrest := ih (s := s.dropBlock current) current (segment_update hmem hfront)
      hnodup' (fun hzero => hnull (List.mem_append_left _ hzero)) (Nat.lt_of_succ_lt_succ hfuel)
    have htail : (before ++ [p] ++ [current]).tail = (before ++ [p]).tail ++ [current] :=
      List.tail_append_of_ne_nil (by simp)
    rw [vlAsyncPoolResetLoop_next (fun heq => hnull (by simp [heq])) hb
      (hprev ▸ fun heq => hnull (by simp [heq])), hprev, hrest, firstBlock_concat, htail,
      ← dropBlocks_concat, List.reverse_append]
    rfl

/-- **`vlAsyncPoolFree` walks to the last block** and releases what it passes. -/
theorem vlAsyncPoolFreeLoop_spec {p : Option ℕ}
    (h : Segment (blockLinks s.blocks) p (blockEntries (current :: behind)) none)
    (hnodup : (current :: behind).Nodup) (hnull : 0 ∉ current :: behind)
    (hfuel : behind.length < fuel) :
    vlAsyncPoolFreeLoop s fuel current =
      .ok (current :: behind, { s with blocks := dropBlocks s.blocks (current :: behind) }) := by
  induction behind generalizing s current fuel p with
  | nil =>
    obtain ⟨b, hb, hnext, -⟩ := segment_cons h
    have hnext : b.next = 0 := iterOf_eq_none hnext
    obtain ⟨fuel, rfl⟩ := Nat.exists_eq_succ_of_ne_zero (Nat.ne_of_gt hfuel)
    rw [vlAsyncPoolFreeLoop_next (fun heq => hnull (by simp [heq])) hb, hnext, vlAsyncPoolFreeLoop,
      ← dropBlocks_cons]
    rfl
  | cons a behind ih =>
    obtain ⟨b, hb, hnext, hrest⟩ := segment_cons h
    have hnext : b.next = a := iterOf_eq_some hnext
    obtain ⟨hmem, hnodup'⟩ := List.nodup_cons.mp hnodup
    obtain ⟨fuel, rfl⟩ := Nat.exists_eq_succ_of_ne_zero (Nat.ne_of_gt (Nat.zero_lt_of_lt hfuel))
    have hfree := ih (s := s.dropBlock current) (segment_update hmem hrest) hnodup'
      (fun hzero => hnull (List.mem_cons_of_mem _ hzero)) (Nat.lt_of_succ_lt_succ hfuel)
    rw [vlAsyncPoolFreeLoop_next (fun heq => hnull (by simp [heq])) hb, hnext, hfree,
      ← dropBlocks_cons (a := current)]
    rfl

/-! ### The three calls -/

theorem list_eq_firstBlock (before : List ℕ) (current : ℕ) (behind : List ℕ) :
    before ++ current :: behind = firstBlock before current :: (before ++ current :: behind).tail := by
  cases before with
  | nil => rfl
  | cons a before => rfl

/-- The primary pointer goes back to the first block, once nothing is taken from any. -/
theorem AsyncPool.Lined.rewind (h : s.Lined before current behind)
    (hcleared : ∀ a ∈ before ++ [current], ∀ b ∈ s.blocks a, b.taken = 0) :
    ({ s with primaryBlock := s.primaryBlock.next (firstBlock before current) } :
      AsyncPool T).Lined [] (firstBlock before current) (before ++ current :: behind).tail := by
  have hlist := list_eq_firstBlock before current behind
  refine ⟨rfl, ?_, ?_, ?_, h.elements, fun a ha b hb => ?_, h.flag⟩
  · rw [List.nil_append, ← hlist]
    exact h.linked
  · rw [List.nil_append, ← hlist]
    exact h.nodup
  · rw [List.nil_append, ← hlist]
    exact h.null
  · have hmem := List.mem_of_mem_tail ha
    rw [← List.singleton_append, ← List.append_assoc, List.mem_append] at hmem
    rcases hmem with hmem | hmem
    · exact hcleared a hmem b hb
    · exact h.fresh a hmem b hb

/-- The list up to the primary block. -/
theorem AsyncPool.Lined.upto (h : s.Lined before current behind) :
    Segment (blockLinks s.blocks) none (blockEntries (before ++ [current]))
        (headIter (blockEntries behind) none) ∧
      (before ++ [current]).Nodup ∧ 0 ∉ before ++ [current] ∧
      ∀ a ∈ behind, a ∉ before ++ [current] := by
  have hlist : before ++ current :: behind = (before ++ [current]) ++ behind := by simp
  have hlinked := h.linked
  have hnodup := h.nodup
  have hnull := h.null
  rw [hlist] at hlinked hnodup hnull
  rw [blockEntries_append] at hlinked
  obtain ⟨hnodup', -, hdisj⟩ := List.nodup_append'.mp hnodup
  exact ⟨(segment_append.mp hlinked).1, hnodup', fun hzero => hnull (List.mem_append_left _ hzero),
    fun a ha hmem => hdisj hmem ha⟩

/-- There is fuel for every block in the list. -/
theorem length_lt_of_perm (hperm : s.allocated.Perm (released ++ (before ++ current :: behind))) :
    before.length < s.allocated.length ∧ behind.length < s.allocated.length := by
  have hlength := hperm.length_eq
  simp only [List.length_append, List.length_cons] at hlength
  omega

/-- **`vlAsyncPoolClear` keeps every block**. -/
theorem vlAsyncPoolClear_spec (h : s.Holds lost released) :
    Returns (vlAsyncPoolClear s) fun s' => s'.Holds lost released := by
  obtain ⟨before, current, behind, hlined, hperm⟩ := h
  obtain ⟨hsegment, hnodup, hnull, hbehind⟩ := hlined.upto
  rw [vlAsyncPoolClear, hlined.primary,
    vlAsyncPoolClearLoop_spec hsegment hnodup hnull (length_lt_of_perm hperm).1, ok_bind]
  have hcleared : ({ s with blocks := clearBlocks s.blocks (before ++ [current]) } :
      AsyncPool T).Lined before current behind := by
    refine hlined.congr (fun a => ?_) rfl (fun a ha b hb => ?_) rfl
    · change (clearBlocks s.blocks (before ++ [current]) a).map _ = _
      rw [clearBlocks]
      split_ifs
      · rw [Option.map_map]
        rfl
      · rfl
    · have hb : clearBlocks s.blocks (before ++ [current]) a = some b := hb
      rw [clearBlocks, if_neg (hbehind a ha)] at hb
      exact hlined.fresh a ha b hb
  have hrewind := hcleared.rewind (fun a ha b hb => by
    have hb : clearBlocks s.blocks (before ++ [current]) a = some b := hb
    rw [clearBlocks, if_pos ha] at hb
    obtain ⟨b', -, rfl⟩ := Option.map_eq_some_iff.mp hb
    rfl)
  refine returns_ok ⟨[], _, _, hrewind.congr (fun _ => rfl) rfl hrewind.fresh rfl, ?_⟩
  rw [List.nil_append, ← list_eq_firstBlock]
  exact hperm

/-- The blocks that `vlAsyncPoolReset` leaves. -/
def resetBlocks (blocks : ℕ → Option AsyncBlock) (first : ℕ) (released : List ℕ) :
    ℕ → Option AsyncBlock :=
  fun a => if a = first then (blocks a).map fun b => ⟨0, 0, b.elements, 0⟩
    else if a ∈ released then none else blocks a

/-- **What `vlAsyncPoolReset` does**: it releases the blocks up to the primary one, apart from the
first, and cuts the first one off. -/
theorem vlAsyncPoolReset_eq (hlined : s.Lined before current behind)
    (hperm : s.allocated.Perm (released ++ (before ++ current :: behind))) :
    vlAsyncPoolReset s = .ok ((before ++ [current]).tail.reverse, AsyncPool.dropFree { s with
      blocks := resetBlocks s.blocks (firstBlock before current) (before ++ [current]).tail
      primaryBlock := s.primaryBlock.next (firstBlock before current) }) := by
  obtain ⟨hsegment, hnodup, hnull, -⟩ := hlined.upto
  have hmem : firstBlock before current ∉ (before ++ [current]).tail := by
    have hlist := list_eq_firstBlock before current []
    rw [hlist] at hnodup
    exact (List.nodup_cons.mp hnodup).1
  obtain ⟨b, hb⟩ : ∃ b, s.blocks (firstBlock before current) = some b := by
    have hlist := list_eq_firstBlock before current behind
    have hlinked := hlined.linked
    rw [hlist] at hlinked
    obtain ⟨b, hb, -⟩ := segment_cons hlinked
    exact ⟨b, hb⟩
  rw [vlAsyncPoolReset, hlined.primary,
    vlAsyncPoolResetLoop_spec _ hsegment hnodup hnull (length_lt_of_perm hperm).1, ok_bind]
  have hfirst : clearBlocks (dropBlocks s.blocks (before ++ [current]).tail)
      [firstBlock before current] (firstBlock before current) = some b.cleared := by
    rw [clearBlocks, if_pos (by simp), dropBlocks, if_neg hmem, hb]
    rfl
  have hblocks : Function.update (clearBlocks (dropBlocks s.blocks (before ++ [current]).tail)
      [firstBlock before current]) (firstBlock before current)
      (some { b.cleared with prev := 0, next := 0 }) =
      resetBlocks s.blocks (firstBlock before current) (before ++ [current]).tail := by
    funext x
    rw [resetBlocks]
    by_cases hx : x = firstBlock before current
    · rw [hx, Function.update_self, if_pos rfl, hb]
      rfl
    · rw [Function.update_of_ne hx, if_neg hx, clearBlocks, if_neg (by simpa using hx)]
      rfl
  simp only
  rw [hfirst, deref_some, ok_bind, ← hblocks]
  rfl

/-- **`vlAsyncPoolReset` loses the blocks behind the primary one**, and keeps count of the others. -/
theorem vlAsyncPoolReset_spec (hlined : s.Lined before current behind)
    (hperm : s.allocated.Perm (released ++ lost ++ (before ++ current :: behind))) :
    Returns (vlAsyncPoolReset s) fun r => r.2.Holds (lost ++ behind) (released ++ r.1) := by
  rw [vlAsyncPoolReset_eq hlined hperm]
  have hlist := list_eq_firstBlock before current []
  have hsplit : before ++ current :: behind = before ++ [current] ++ behind := by simp
  have hnull := hlined.null
  have hlinked := hlined.linked
  rw [hsplit, hlist] at hnull hlinked hperm
  generalize firstBlock before current = first at *
  generalize (before ++ [current]).tail = rest at *
  obtain ⟨b, hb, -⟩ := segment_cons hlinked
  refine returns_ok ⟨[], first, [], ⟨rfl, ⟨?_, trivial⟩, by simp, ?_, fun a b' hb' => ?_,
    fun a ha => (by cases ha), hlined.flag⟩, ?_⟩
  · change (resetBlocks s.blocks first rest first).map _ = _
    rw [resetBlocks, if_pos rfl, hb]
    rfl
  · rw [List.nil_append, List.mem_singleton]
    exact fun hzero => hnull (by simp [← hzero])
  · have hb' : resetBlocks s.blocks first rest a = some b' := hb'
    rw [resetBlocks] at hb'
    split_ifs at hb' with hfirst hrest
    · obtain ⟨b₀, hb₀, rfl⟩ := Option.map_eq_some_iff.mp hb'
      exact hlined.elements a b₀ hb₀
    · exact hlined.elements a b' hb'
  · -- the same blocks, sorted differently
    refine hperm.trans (List.perm_iff_count.mpr fun a => ?_)
    simp only [List.count_append, List.count_cons, List.count_reverse, List.nil_append,
      List.count_nil]
    omega

/-- **What `vlAsyncPoolFree` does**: it releases the blocks from the primary one on. -/
theorem vlAsyncPoolFree_eq (hlined : s.Lined before current behind)
    (hperm : s.allocated.Perm (released ++ (before ++ current :: behind))) :
    vlAsyncPoolFree s = .ok (current :: behind,
      { s with blocks := dropBlocks s.blocks (current :: behind) }) := by
  have hlinked := hlined.linked
  rw [blockEntries_append] at hlinked
  rw [vlAsyncPoolFree, hlined.primary]
  exact vlAsyncPoolFreeLoop_spec (segment_append.mp hlinked).2
    (List.nodup_append'.mp hlined.nodup).2.1
    (fun hzero => hlined.null (List.mem_append_right _ hzero)) (length_lt_of_perm hperm).2

end Walks

end VeritableLasagna
