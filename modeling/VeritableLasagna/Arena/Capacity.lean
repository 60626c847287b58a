import VeritableLasagna.Arena.Runs
import VeritableLasagna.Memory.Buffer

/-!
# Capacity doubling

A buffer and an arena grow by one loop, `while (newSize <= needed) newSize *= 2;`, in 64 bits. The
other modules stop it where an allocation of that size could not be served; here it is taken as the
source has it (`vlMemDoubling`), with a capacity that is shifted out of its 64 bits and a sum that
wraps.

* `vlMemDoubling_iff` says when the loop is left with more than the bytes that are needed: exactly
  if the sum of the sizes fits 64 bits and some shift of the capacity, cut to 64 bits, exceeds it.
* `vlCapacity_iff` is about the three callers, for **every** buffer and for every arena that calls
  with **any** arguments lead to: all they need is that the free set is a set
  (`VlArena.Usable`), which no operation breaks (`arenaStep_usable`).
* `vlBufferWrite_capacity`, `vlArenaMemAlloc_usable` and `vlArenaReserve_usable`: what the callers
  return has the capacity the loop is left with.

An empty capacity never grows, whatever is asked for (`not_growsBeyond_zero`), and any other
capacity grows as long as the sum stays below `2 ^ 63` (`growsBeyond_of_lt`).
-/

namespace VeritableLasagna

/-! ### The loop -/

/-- The loop `while (newSize <= needed) newSize *= 2;` in 64 bits, watched for a number of rounds. -/
def vlMemDoubling (needed : ℕ) : ℕ → ℕ → Except Fault ℕ
  | 0, _ => .error .noReturn
  | rounds + 1, newSize =>
    if newSize ≤ needed then vlMemDoubling needed rounds (newSize * 2 % 2 ^ 64) else .ok newSize

/-- Some shift of the capacity, cut to 64 bits, exceeds the bytes that are needed, and their number
itself fits 64 bits. -/
def GrowsBeyond (capacity needed : ℕ) : Prop :=
  needed < 2 ^ 64 ∧ ∃ k < 64, needed < capacity * 2 ^ k % 2 ^ 64

/-- **A call leaves its loop** with more than the bytes that are needed, if it reaches the loop: from
some number of rounds on it does not turn in it, and a new capacity exceeds them. -/
def LeavesLoop (call : ℕ → Except Fault (Option ℕ)) (needed : ℕ) : Prop :=
  ∃ rounds, call rounds ≠ .error .noReturn ∧
    ∀ newSize, call rounds = .ok (some newSize) → needed < newSize

section Loop

variable {capacity needed bound rounds size r k : ℕ}

/-- One round more. -/
private theorem shift_succ : size * 2 % 2 ^ 64 * 2 ^ k % 2 ^ 64 = size * 2 ^ (k + 1) % 2 ^ 64 := by
  rw [Nat.mod_mul_mod, Nat.mul_assoc, ← Nat.pow_succ']

/-- What the loop returns is a shift of the capacity above its bound. -/
theorem vlMemDoubling_shift (h : vlMemDoubling bound rounds size = .ok r) (hsize : size < 2 ^ 64) :
    bound < r ∧ ∃ k, r = size * 2 ^ k % 2 ^ 64 := by
  induction rounds generalizing size with
  | zero => cases h
  | succ rounds ih =>
    rw [vlMemDoubling] at h
    split_ifs at h with hle
    · obtain ⟨hlt, k, rfl⟩ := ih h (Nat.mod_lt _ (by norm_num))
      exact ⟨hlt, k + 1, shift_succ⟩
    · obtain rfl := Except.ok.inj h
      exact ⟨Nat.not_le.mp hle, 0, by rw [pow_zero, Nat.mul_one, Nat.mod_eq_of_lt hsize]⟩

/-- If some shift of the capacity exceeds the bound, the loop ends. -/
theorem vlMemDoubling_ends (hsize : size < 2 ^ 64) (h : bound < size * 2 ^ k % 2 ^ 64) :
    ∃ r, vlMemDoubling bound (k + 1) size = .ok r := by
  induction k generalizing size with
  | zero =>
    rw [pow_zero, Nat.mul_one, Nat.mod_eq_of_lt hsize] at h
    exact ⟨size, if_neg (Nat.not_le.mpr h)⟩
  | succ k ih =>
    rw [vlMemDoubling]
    split_ifs with hle
    · rw [← shift_succ] at h
      exact ih (Nat.mod_lt _ (by norm_num)) h
    · exact ⟨size, rfl⟩

/-- **When the loop does what it is for**: it is left with more than the bytes that are needed,
although it compares with their number cut to 64 bits, exactly if `GrowsBeyond`. -/
theorem vlMemDoubling_iff (hcap : capacity < 2 ^ 64) :
    (∃ rounds, Returns (vlMemDoubling (needed % 2 ^ 64) rounds capacity) (needed < ·)) ↔
      GrowsBeyond capacity needed := by
  constructor
  · rintro ⟨rounds, r, hloop, hlt⟩
    obtain ⟨-, k, rfl⟩ := vlMemDoubling_shift hloop hcap
    have hbound : capacity * 2 ^ k % 2 ^ 64 < 2 ^ 64 := Nat.mod_lt _ (by norm_num)
    refine ⟨hlt.trans hbound, k, ?_, hlt⟩
    -- 64 rounds shift every capacity out
    by_contra hk
    have hdvd : 2 ^ 64 ∣ capacity * 2 ^ k :=
      (Nat.pow_dvd_pow 2 (Nat.not_lt.mp hk)).mul_left capacity
    rw [Nat.mod_eq_zero_of_dvd hdvd] at hlt
    exact Nat.not_lt_zero _ hlt
  · rintro ⟨hfit, k, -, hlt⟩
    rw [Nat.mod_eq_of_lt hfit]
    obtain ⟨r, hloop⟩ := vlMemDoubling_ends hcap hlt
    exact ⟨k + 1, r, hloop, (vlMemDoubling_shift hloop hcap).1⟩

/-- The loop itself fails only by turning on. -/
theorem vlMemDoubling_error {e : Fault} (h : vlMemDoubling bound rounds size = .error e) :
    e = .noReturn := by
  induction rounds generalizing size with
  | zero => exact (Except.error.inj h).symm
  | succ rounds ih =>
    rw [vlMemDoubling] at h
    split_ifs at h
    exact ih h

/-- **The loop of a call** that reaches it. -/
theorem leavesLoop_doubling {call : ℕ → Except Fault (Option ℕ)} (hcap : capacity < 2 ^ 64)
    (hcall : ∀ rounds, call rounds = (vlMemDoubling (needed % 2 ^ 64) rounds capacity >>=
      fun newSize => .ok (some newSize))) :
    LeavesLoop call needed ↔ GrowsBeyond capacity needed := by
  rw [← vlMemDoubling_iff hcap]
  constructor
  · rintro ⟨rounds, hne, hgrown⟩
    rw [hcall] at hne hgrown
    cases hloop : vlMemDoubling (needed % 2 ^ 64) rounds capacity with
    | ok r => exact ⟨rounds, r, hloop, hgrown r (by rw [hloop]; rfl)⟩
    | error e =>
      obtain rfl := vlMemDoubling_error hloop
      exact absurd (by rw [hloop]; rfl) hne
  · rintro ⟨rounds, r, hloop, hlt⟩
    refine ⟨rounds, fun herr => ?_, fun newSize hnew => ?_⟩
    · rw [hcall, hloop] at herr
      cases herr
    · rw [hcall, hloop] at hnew
      obtain rfl := Option.some_injective _ (Except.ok.inj hnew)
      exact hlt

/-- **An empty capacity never grows.** -/
theorem not_growsBeyond_zero : ¬ GrowsBeyond 0 needed := by
  rintro ⟨-, k, -, hlt⟩
  rw [Nat.zero_mul] at hlt
  exact Nat.not_lt_zero _ hlt

/-- **Any other capacity grows** beyond a sum in the lower half of the 64 bits. -/
theorem growsBeyond_of_lt (hpos : 0 < capacity) (hcap : capacity < 2 ^ 64)
    (hneeded : needed < 2 ^ 63) : GrowsBeyond capacity needed := by
  refine ⟨by omega, 63 - Nat.log 2 capacity, by omega, ?_⟩
  have hlog : Nat.log 2 capacity < 64 := Nat.log_lt_of_lt_pow hpos.ne' hcap
  have hlow := Nat.pow_log_le_self 2 hpos.ne'
  have hhigh := Nat.lt_pow_succ_log_self one_lt_two capacity
  -- the shift that moves the leading bit to the top
  have hsplit : 2 ^ 64 = 2 ^ (Nat.log 2 capacity + 1) * 2 ^ (63 - Nat.log 2 capacity) := by
    rw [← pow_add]
    congr 1
    omega
  have htop : 2 ^ 63 = 2 ^ Nat.log 2 capacity * 2 ^ (63 - Nat.log 2 capacity) := by
    rw [← pow_add]
    congr 1
    omega
  have hfit : capacity * 2 ^ (63 - Nat.log 2 capacity) < 2 ^ 64 := by
    rw [hsplit]
    exact Nat.mul_lt_mul_of_pos_right hhigh (by positivity)
  rw [Nat.mod_eq_of_lt hfit]
  calc needed < 2 ^ 63 := hneeded
    _ = 2 ^ Nat.log 2 capacity * 2 ^ (63 - Nat.log 2 capacity) := htop
    _ ≤ capacity * 2 ^ (63 - Nat.log 2 capacity) := Nat.mul_le_mul_right _ hlow

/-- What `vlMemDouble` is served with fits 64 bits. -/
theorem vlMemDouble_lt (h : vlMemDouble needed rounds capacity = .ok r) (hcap : capacity < 2 ^ 64) :
    needed < r ∧ r < 2 ^ 64 := by
  induction rounds generalizing capacity with
  | zero => cases h
  | succ rounds ih =>
    rw [vlMemDouble] at h
    split_ifs at h with hle hbig
    · exact ih h (by omega)
    · obtain rfl := Except.ok.inj h
      exact ⟨Nat.not_le.mp hle, hcap⟩

/-- Where `vlMemDouble` is served, it follows the loop. -/
theorem vlMemDoubling_of_double (h : vlMemDouble needed rounds capacity = .ok r)
    (hcap : capacity < 2 ^ 64) :
    vlMemDoubling (needed % 2 ^ 64) rounds capacity = .ok r := by
  obtain ⟨hlt, hfit⟩ := vlMemDouble_lt h hcap
  rw [Nat.mod_eq_of_lt (hlt.trans hfit)]
  clear hlt hfit
  induction rounds generalizing capacity with
  | zero => cases h
  | succ rounds ih =>
    rw [vlMemDouble] at h
    rw [vlMemDoubling]
    split_ifs at h with hle hbig
    · rw [if_pos hle, Nat.mod_eq_of_lt (by omega)]
      exact ih h (by omega)
    · obtain rfl := Except.ok.inj h
      exact if_neg hle

end Loop

/-! ### The callers -/

/-- The capacity `vlBufferWrite` grows to. -/
def vlBufferWriteCapacity (buffer : VlBuffer) (size rounds : ℕ) : Except Fault (Option ℕ) := do
  let initSize := vlMemSize buffer.data
  let newSize ← vlMemDoubling ((size + buffer.offset) % 2 ^ 64) rounds initSize
  return some newSize

/-- The capacity `vlArenaMemAlloc` grows to, unless it returns before. -/
def vlArenaMemAllocCapacity (arena : VlArena) (size rounds : ℕ) : Except Fault (Option ℕ) :=
  if size = 0 then .ok none
  else do
    let freeIter ← vlSetFront arena.freeSet
    let size := (size + 8) % 2 ^ 64
    let found ← vlArenaMemAllocLoop arena size arena.freeSet.totalElements freeIter
    match found with
    | some _ => return none
    | none => do
      let initSize := vlMemSize arena.data
      let newSize ← vlMemDoubling ((size + initSize) % 2 ^ 64) rounds initSize
      return some newSize

/-- The bytes `vlArenaReserve` needs beyond the memory, for a request and what is free. -/
def vlArenaReserveBytes (numBytes freeMem : ℕ) : ℕ :=
  numBytes - (if numBytes ≤ freeMem then 0 else freeMem)

/-- The capacity `vlArenaReserve` grows to. -/
def vlArenaReserveCapacity (arena : VlArena) (numBytes rounds : ℕ) : Except Fault (Option ℕ) := do
  let freeMem ← vlArenaTotalFree arena
  let initSize := vlMemSize arena.data
  let newSize ←
    vlMemDoubling ((vlArenaReserveBytes numBytes freeMem + initSize) % 2 ^ 64) rounds initSize
  return some newSize

/-- **`vlBufferWrite`** leaves its loop exactly if the capacity grows beyond the end of the write. -/
theorem vlBufferWriteCapacity_iff {buffer : VlBuffer} (hcap : buffer.data.size < 2 ^ 64) (size : ℕ) :
    LeavesLoop (vlBufferWriteCapacity buffer size) (size + buffer.offset) ↔
      GrowsBeyond buffer.data.size (size + buffer.offset) :=
  leavesLoop_doubling hcap fun _ => rfl

/-- The capacity after a write is the one before. -/
theorem VlMemory.size_store {mem mem' : VlMemory} {p : ℕ} {bs : List UInt8}
    (h : mem.store p bs = .ok mem') : mem'.size = mem.size := by
  rw [VlMemory.store] at h
  split_ifs at h
  obtain rfl := Except.ok.inj h
  rfl

/-- What `vlBufferWrite` returns has the capacity its loop is left with. -/
theorem vlBufferWrite_capacity {buffer : VlBuffer} {size : ℕ} {src : Option (List UInt8)}
    {r : ℕ × VlBuffer} (hcap : buffer.data.size < 2 ^ 64)
    (hop : vlBufferWrite buffer size src = .ok r) :
    vlBufferWriteCapacity buffer size 65 = .ok (some r.2.data.size) := by
  obtain ⟨newSize, hdouble, hop⟩ := exists_of_bind_eq_ok hop
  -- the loop never shrinks the block
  obtain ⟨j, hpow⟩ := vlMemDouble_pow hdouble
  have hle : buffer.data.size ≤ newSize :=
    hpow ▸ Nat.le_mul_of_pos_right _ (Nat.two_pow_pos j)
  have hgrown : (if newSize > vlMemSize buffer.data then vlMemRealloc buffer.data newSize
      else buffer.data).size = newSize := by
    split_ifs with hgrow
    · rfl
    · exact Nat.le_antisymm hle (Nat.not_lt.mp hgrow)
  have hsize : r.2.data.size = newSize := by
    cases src with
    | none =>
      obtain ⟨mem, hkept, hop⟩ := exists_of_bind_eq_ok hop
      obtain rfl := Except.ok.inj hkept
      obtain rfl := Except.ok.inj hop
      exact hgrown
    | some bs =>
      obtain ⟨mem, hcopy, hop⟩ := exists_of_bind_eq_ok hop
      obtain rfl := Except.ok.inj hop
      dsimp only [VlMemory.memcpy] at hcopy
      by_cases hshort : size ≤ bs.length
      · rw [if_pos hshort] at hcopy
        exact (VlMemory.size_store hcopy).trans hgrown
      · rw [if_neg hshort] at hcopy
        cases hcopy
  rw [vlBufferWriteCapacity, vlMemDoubling_of_double hdouble hcap, hsize]
  rfl

/-! ### Any calls -/

/-- The free set is a set, and the capacity is a number of 64 bits. Nothing is said about the nodes. -/
structure VlArena.Usable (arena : VlArena) : Prop where
  free : ∃ l, FreeHolds arena.freeSet l
  capacity : arena.data.size < 2 ^ 64

/-- A call that returns without the loop. -/
theorem leavesLoop_of_none {call : ℕ → Except Fault (Option ℕ)} {needed : ℕ}
    (h : call 0 = .ok none) : LeavesLoop call needed := by
  refine ⟨0, ?_, ?_⟩
  · rw [h]
    exact fun herr => (by cases herr)
  · rw [h]
    exact fun newSize hnew => (by cases hnew)

section Usable

variable {arena arena' : VlArena} {freeSet : VlSet VlArenaNode}
  {l pre post : List (VlPoolIdx × VlArenaNode)} {x : VlPoolIdx × VlArenaNode} {size fuel n : ℕ}

/-- The iterator is one of the entries of the free set. -/
def FreeEntry (freeSet : VlSet VlArenaNode) (iter : VlPoolIdx) : Prop :=
  ∃ pre x post, x.1 = iter ∧ FreeHolds freeSet (pre ++ x :: post)

/-- **Inserting any node** leaves a set that has the entry that is returned. -/
theorem vlSetInsert_any (h : FreeHolds freeSet l) (node : VlArenaNode) :
    Returns (vlSetInsert freeSet node) fun r => FreeEntry r.2 r.1 := by
  obtain ⟨hcmp, t, ht, rfl⟩ := h
  have hlaw : LawfulComparator freeSet.comparator := hcmp ▸ vlArenaNodeCompare_lawful
  refine (vlSetInsert_spec hlaw ht node).mono ?_
  rintro r ⟨hkind, ⟨a, ha, -, hsame⟩ | ⟨t', l₁, l₂, hins⟩⟩
  · obtain ⟨pre, post, hsplit⟩ := List.append_of_mem ha
    exact ⟨pre, (r.1, a), post, rfl, hsame ▸ ⟨hcmp, t, ht, hsplit⟩⟩
  · exact ⟨l₁, (r.1, node), l₂, rfl, hkind.trans hcmp, t', hins.inv, hins.after⟩

/-- Phase 1 ends at an entry, whatever the nodes are. -/
private theorem vlHeapCoalesceRight_any (fuel : ℕ) (h : FreeHolds freeSet (pre ++ x :: post))
    (hfuel : post.length ≤ fuel) :
    Returns (vlHeapCoalesceRight freeSet fuel (some x.1) (firstIter post)) fun r =>
      ∃ iter, r = some iter ∧ FreeEntry freeSet iter := by
  have hx : vlSetSample freeSet (some x.1) = some x.2 := h.sample (by simp)
  have hdone : ∃ iter, some x.1 = some iter ∧ FreeEntry freeSet iter :=
    ⟨x.1, rfl, pre, x, post, rfl, h⟩
  induction post generalizing pre x fuel with
  | nil => cases fuel <;> exact returns_ok hdone
  | cons z post ih =>
    obtain ⟨fuel, rfl⟩ : ∃ k, fuel = k + 1 := ⟨fuel - 1, by simp at hfuel; omega⟩
    have hz : vlSetSample freeSet (some z.1) = some z.2 := h.sample (by simp)
    have h' : FreeHolds freeSet ((pre ++ [x]) ++ z :: post) := by simpa using h
    rw [firstIter_cons, vlHeapCoalesceRight, hz]
    dsimp only
    rw [hx, deref_some, ok_bind]
    split_ifs with hapart
    · exact returns_ok hdone
    · rw [h'.next, ok_bind]
      exact ih fuel h' (by simpa using hfuel) hz ⟨z.1, rfl, _, z, post, rfl, h'⟩

/-- Phase 2 leaves a set, whatever the nodes are. -/
private theorem vlHeapCoalesceLeft_any (fuel : ℕ) (h : FreeHolds freeSet (pre ++ x :: post))
    (hfuel : pre.length ≤ fuel) :
    Returns (vlHeapCoalesceLeft fuel freeSet (some x.1) (firstIter pre.reverse)) fun s =>
      ∃ l, FreeHolds s l := by
  induction pre using List.reverseRecOn generalizing x freeSet fuel with
  | nil => cases fuel <;> exact returns_ok ⟨_, h⟩
  | append_singleton pre z ih =>
    obtain ⟨fuel, rfl⟩ : ∃ k, fuel = k + 1 := ⟨fuel - 1, by simp at hfuel; omega⟩
    have hz : vlSetSample freeSet (some z.1) = some z.2 := h.sample (by simp)
    have hx : vlSetSample freeSet (some x.1) = some x.2 := h.sample (by simp)
    have hsplit : FreeHolds freeSet (pre ++ (z.1, z.2) :: (x :: post)) := by simpa using h
    rw [List.reverse_append, List.reverse_singleton, List.singleton_append, firstIter_cons,
      vlHeapCoalesceLeft, hz]
    dsimp only
    rw [hx, deref_some, ok_bind]
    split_ifs with hapart
    · exact returns_ok ⟨_, h⟩
    · refine (hsplit.resize (z.2.size + x.2.size)).bind fun s₁ h₁ => ?_
      rw [h₁.prev, ok_bind]
      have h₁' : FreeHolds s₁ ((pre ++ [(z.1, { z.2 with size := z.2.size + x.2.size })]) ++
          x :: post) := by simpa using h₁
      refine h₁'.remove.bind fun s₂ h₂ => ?_
      have h₂' : FreeHolds s₂ (pre ++ (z.1, { z.2 with size := z.2.size + x.2.size }) :: post) := by
        simpa using h₂
      exact ih (x := (z.1, { z.2 with size := z.2.size + x.2.size })) fuel h₂'
        (by simpa using hfuel)

/-- **`vl_HeapCoalesce`** leaves a set, whatever the nodes are. -/
theorem vlHeapCoalesce_any {iter : VlPoolIdx} (h : FreeEntry freeSet iter) :
    Returns (vlHeapCoalesce freeSet (some iter)) fun s => ∃ l, FreeHolds s l := by
  obtain ⟨pre, x, post, rfl, h⟩ := h
  have hx : vlSetSample freeSet (some x.1) = some x.2 := h.sample (by simp)
  have htotal := h.totalElements
  rw [List.length_append, List.length_cons] at htotal
  rw [vlHeapCoalesce, if_neg (by simp [hx]), h.next, ok_bind]
  refine (vlHeapCoalesceRight_any _ h (by omega)).bind ?_
  rintro r ⟨iter, hr, hentry⟩
  obtain ⟨pre', y, post', rfl, h'⟩ := hentry
  have htotal' := h'.totalElements
  rw [List.length_append, List.length_cons] at htotal'
  rw [hr, h'.prev, ok_bind]
  exact vlHeapCoalesceLeft_any _ h' (by omega)

/-- **Freeing any node** keeps an arena usable. -/
theorem VlArena.Usable.addFree (h : arena.Usable) (node : VlArenaNode) :
    Returns (arena.addFree node) fun a => a.Usable ∧ a.data = arena.data := by
  obtain ⟨⟨l, hl⟩, hcap⟩ := h
  refine (vlSetInsert_any hl node).bind ?_
  rintro ⟨iter, freeSet⟩ hentry
  refine (vlHeapCoalesce_any hentry).bind fun freeSet' hfree => ?_
  exact returns_ok ⟨⟨hfree, hcap⟩, rfl⟩

/-- The arena stays usable when its bytes change. -/
theorem VlArena.Usable.store {mem : VlMemory} {p : ℕ} {bs : List UInt8} (h : arena.Usable)
    (hop : arena.data.store p bs = .ok mem) : VlArena.Usable { arena with data := mem } :=
  ⟨h.free, (VlMemory.size_store hop).trans_lt h.capacity⟩

/-- A search that takes a node: it does not turn on, and what it returns has a set of free nodes and
the capacity of before. -/
def VlArena.Takes (arena : VlArena) (search : Except Fault (Option (ℕ × VlArena))) : Prop :=
  search ≠ .error .noReturn ∧ ∀ r, search = .ok r → ∃ p a, r = some (p, a) ∧
    (∃ l, FreeHolds a.freeSet l) ∧ a.data.size = arena.data.size

/-- A node is taken, unless its header would be written outside the memory. -/
private theorem takes_store (arena : VlArena) (o : ℕ) (hfree : FreeHolds freeSet l) :
    arena.Takes (arena.data.storeNumber o 8 size >>= fun data =>
      .ok (some (o + 8, { data, freeSet }))) := by
  rw [VlMemory.storeNumber, VlMemory.store]
  split_ifs
  · refine ⟨fun herr => (by cases herr), fun r hr => ?_⟩
    obtain rfl := Except.ok.inj hr
    exact ⟨_, _, rfl, ⟨l, hfree⟩, rfl⟩
  · exact ⟨fun herr => (by cases herr), fun r hr => (by cases hr)⟩

/-- **The search of `vlArenaMemAlloc`** finds no node if all are too small, and takes one otherwise. -/
theorem vlArenaMemAllocLoop_any (size fuel : ℕ) (h : FreeHolds arena.freeSet (pre ++ post))
    (hfuel : post.length ≤ fuel) :
    (∀ x ∈ post, x.2.size < size) ∧
        vlArenaMemAllocLoop arena size fuel (firstIter post) = .ok none ∨
      (∃ x ∈ post, size ≤ x.2.size) ∧
        arena.Takes (vlArenaMemAllocLoop arena size fuel (firstIter post)) := by
  induction post generalizing pre fuel with
  | nil => exact Or.inl ⟨fun x hx => (by cases hx), by cases fuel <;> rfl⟩
  | cons x post ih =>
    obtain ⟨fuel, rfl⟩ : ∃ k, fuel = k + 1 := ⟨fuel - 1, by simp at hfuel; omega⟩
    have hx : vlSetSample arena.freeSet (some x.1) = some x.2 := h.sample (by simp)
    rw [firstIter_cons, vlArenaMemAllocLoop, hx, deref_some, ok_bind]
    rcases Nat.lt_or_ge x.2.size size with hsmall | hlarge
    · have h' : FreeHolds arena.freeSet ((pre ++ [x]) ++ post) := by simpa using h
      rw [if_neg hsmall.ne, if_neg hsmall.not_gt, h.next, ok_bind]
      rcases ih fuel h' (by simpa using hfuel) with ⟨hall, hop⟩ | ⟨⟨y, hy, hfit⟩, hop⟩
      · exact Or.inl ⟨fun y hy => (List.mem_cons.mp hy).elim (fun heq => heq ▸ hsmall) (hall y), hop⟩
      · exact Or.inr ⟨⟨y, List.mem_cons_of_mem _ hy, hfit⟩, hop⟩
    · refine Or.inr ⟨⟨x, List.mem_cons_self, hlarge⟩, ?_⟩
      split_ifs with heq hgt
      · obtain ⟨freeSet, hremove, hfree⟩ := h.remove
        rw [hremove, ok_bind]
        exact takes_store arena _ hfree
      · obtain ⟨freeSet, hwrite, hfree⟩ := h.resize (x.2.size - size)
        dsimp only
        rw [hwrite, ok_bind]
        exact takes_store arena _ hfree
      · omega

/-- **`vlArenaMemAlloc`** leaves its loop exactly if it does not come to it, since nothing is asked for
or a free node is large enough, or the capacity grows beyond the sizes. -/
theorem vlArenaMemAllocCapacity_iff (h : arena.Usable) (size : ℕ) :
    LeavesLoop (vlArenaMemAllocCapacity arena size) (size + 8 + arena.data.size) ↔
      size = 0 ∨ (∃ nodes, arena.freeNodes = .ok nodes ∧
        ∃ node ∈ nodes, (size + 8) % 2 ^ 64 ≤ node.size) ∨
      GrowsBeyond arena.data.size (size + 8 + arena.data.size) := by
  obtain ⟨⟨l, hl⟩, hcap⟩ := h
  have hnodes : arena.freeNodes = .ok (l.map Prod.snd) := VlArena.freeNodes_eq ⟨l, hl, rfl⟩
  by_cases hzero : size = 0
  · exact iff_of_true (leavesLoop_of_none (if_pos hzero)) (Or.inl hzero)
  have hl' : FreeHolds arena.freeSet ([] ++ l) := hl
  rcases vlArenaMemAllocLoop_any ((size + 8) % 2 ^ 64) arena.freeSet.totalElements hl'
    hl.totalElements.ge with ⟨hsmall, hsearch⟩ | ⟨⟨x, hx, hfit⟩, hne, htaken⟩
  · have hcall : ∀ rounds, vlArenaMemAllocCapacity arena size rounds =
        (vlMemDoubling ((size + 8 + arena.data.size) % 2 ^ 64) rounds arena.data.size >>=
          fun newSize => .ok (some newSize)) := by
      intro rounds
      rw [vlArenaMemAllocCapacity, if_neg hzero, hl.front, ok_bind]
      dsimp only
      rw [hsearch, ok_bind]
      dsimp only
      rw [vlMemSize, Nat.mod_add_mod]
      rfl
    rw [leavesLoop_doubling hcap hcall]
    refine ⟨fun hgrows => Or.inr (Or.inr hgrows), ?_⟩
    rintro (hzero' | ⟨nodes, heq, node, hnode, hfit⟩ | hgrows)
    · exact absurd hzero' hzero
    · obtain rfl := Except.ok.inj (hnodes.symm.trans heq)
      obtain ⟨x, hx, rfl⟩ := List.mem_map.mp hnode
      exact absurd (hsmall x hx) (Nat.not_lt.mpr hfit)
    · exact hgrows
  · refine iff_of_true ?_ (Or.inr (Or.inl ⟨_, hnodes, x.2, List.mem_map_of_mem hx, hfit⟩))
    have hcall : vlArenaMemAllocCapacity arena size 0 =
        (vlArenaMemAllocLoop arena ((size + 8) % 2 ^ 64) arena.freeSet.totalElements (firstIter l) >>=
          fun found => match found with
            | some _ => .ok none
            | none => .error .noReturn) := by
      rw [vlArenaMemAllocCapacity, if_neg hzero, hl.front, ok_bind]
      rfl
    cases hsearch : vlArenaMemAllocLoop arena ((size + 8) % 2 ^ 64) arena.freeSet.totalElements
      (firstIter l) with
    | error e =>
      have hfail : vlArenaMemAllocCapacity arena size 0 = .error e := by
        rw [hcall, hsearch]
        rfl
      refine ⟨0, ?_, ?_⟩
      · rw [hfail]
        intro herr
        obtain rfl := Except.error.inj herr
        exact hne hsearch
      · rw [hfail]
        exact fun newSize hnew => (by cases hnew)
    | ok found =>
      obtain ⟨p, a, rfl, -⟩ := htaken found hsearch
      refine leavesLoop_of_none ?_
      rw [hcall, hsearch]
      rfl

/-- The free bytes are added up, whatever the nodes are. -/
theorem vlArenaTotalFree_any (h : arena.Usable) : ∃ freeMem, vlArenaTotalFree arena = .ok freeMem := by
  obtain ⟨⟨l, hl⟩, -⟩ := h
  have hloop : ∀ (k : List (VlPoolIdx × VlArenaNode)) (n : ℕ), (∀ x ∈ k, x ∈ l) →
      ∃ freeMem, (k.map Prod.fst).foldlM (fun sum iter => do
        let node ← deref (vlSetSample arena.freeSet (some iter))
        return (sum + node.size) % 2 ^ 64) n = (.ok freeMem : Except Fault ℕ) := by
    intro k
    induction k with
    | nil => exact fun n _ => ⟨n, rfl⟩
    | cons x k ih =>
      intro n hk
      rw [List.map_cons, List.foldlM_cons, hl.sample (hk x List.mem_cons_self), deref_some, ok_bind,
        pure_eq_ok, ok_bind]
      exact ih _ fun y hy => hk y (List.mem_cons_of_mem _ hy)
  rw [vlArenaTotalFree, hl.foreach, ok_bind]
  exact hloop l 0 fun _ hx => hx

/-- **`vlArenaReserve`** leaves its loop exactly if the capacity grows beyond what it reserves. -/
theorem vlArenaReserveCapacity_iff (h : arena.Usable) (numBytes : ℕ) :
    ∃ freeMem, vlArenaTotalFree arena = .ok freeMem ∧
      (LeavesLoop (vlArenaReserveCapacity arena numBytes)
          (vlArenaReserveBytes numBytes freeMem + arena.data.size) ↔
        GrowsBeyond arena.data.size (vlArenaReserveBytes numBytes freeMem + arena.data.size)) := by
  obtain ⟨freeMem, hfree⟩ := vlArenaTotalFree_any h
  refine ⟨freeMem, hfree, leavesLoop_doubling h.capacity fun rounds => ?_⟩
  rw [vlArenaReserveCapacity, hfree, ok_bind]
  rfl

/-! ### The operations -/

/-- What `vlArenaMemAlloc` returns after growing has the capacity of its loop. -/
theorem vlArenaMemAllocGrow_usable {r : ℕ × VlArena} (h : arena.Usable)
    (hop : vlArenaMemAllocGrow arena size = .ok r) :
    r.2.Usable ∧ vlMemDouble (size + arena.data.size) 65 arena.data.size = .ok r.2.data.size := by
  obtain ⟨newSize, hdouble, hop⟩ := exists_of_bind_eq_ok hop
  obtain ⟨a, hadd, hop⟩ := exists_of_bind_eq_ok hop
  obtain ⟨mem, hstore, hop⟩ := exists_of_bind_eq_ok hop
  obtain rfl := Except.ok.inj hop
  rw [vlMemGrow_eq] at hadd
  have hgrown : VlArena.Usable { arena with data := { arena.data with size := newSize } } :=
    ⟨h.free, (vlMemDouble_lt hdouble h.capacity).2⟩
  obtain ⟨ha, hdata⟩ := (hgrown.addFree _).of_ok hadd
  refine ⟨ha.store hstore, ?_⟩
  rw [VlMemory.size_store hstore, hdata]
  exact hdouble

/-- **`vlArenaMemAlloc`** keeps an arena usable, and grows it to the capacity its loop is left with. -/
theorem vlArenaMemAlloc_usable {r : ℕ × VlArena} (h : arena.Usable)
    (hop : vlArenaMemAlloc arena size = .ok r) :
    r.2.Usable ∧ ∃ newSize, vlArenaMemAllocCapacity arena size 65 = .ok newSize ∧
      r.2.data.size = newSize.getD arena.data.size := by
  by_cases hzero : size = 0
  · rw [vlArenaMemAlloc, if_pos hzero] at hop
    obtain rfl := Except.ok.inj hop
    exact ⟨h, none, if_pos hzero, rfl⟩
  rw [vlArenaMemAlloc, if_neg hzero] at hop
  rw [vlArenaMemAllocCapacity, if_neg hzero]
  obtain ⟨freeIter, hfront, hop⟩ := exists_of_bind_eq_ok hop
  obtain ⟨found, hsearch, hop⟩ := exists_of_bind_eq_ok hop
  rw [hfront, ok_bind]
  dsimp only at hsearch ⊢
  rw [hsearch, ok_bind]
  cases found with
  | none =>
    obtain ⟨husable, hdouble⟩ := vlArenaMemAllocGrow_usable h hop
    refine ⟨husable, some r.2.data.size, ?_, rfl⟩
    dsimp only
    rw [vlMemSize, vlMemDoubling_of_double hdouble h.capacity]
    rfl
  | some t =>
    obtain rfl := Except.ok.inj hop
    obtain ⟨⟨l, hl⟩, hcap⟩ := h
    have hl' : FreeHolds arena.freeSet ([] ++ l) := hl
    obtain rfl : firstIter l = freeIter := Except.ok.inj (hl.front.symm.trans hfront)
    rcases vlArenaMemAllocLoop_any ((size + 8) % 2 ^ 64) arena.freeSet.totalElements hl'
      hl.totalElements.ge with ⟨-, hnone⟩ | ⟨-, -, htaken⟩
    · cases hnone.symm.trans hsearch
    · obtain ⟨p, a, heq, hfree, hsize⟩ := htaken _ hsearch
      obtain rfl := Option.some_injective _ heq
      exact ⟨⟨hfree, hsize.trans_lt hcap⟩, none, rfl, hsize⟩

/-- **`vlArenaReserve`** keeps an arena usable, and grows it to the capacity its loop is left with. -/
theorem vlArenaReserve_usable {numBytes : ℕ} (h : arena.Usable)
    (hop : vlArenaReserve arena numBytes = .ok arena') :
    arena'.Usable ∧ vlArenaReserveCapacity arena numBytes 65 = .ok (some arena'.data.size) := by
  obtain ⟨freeMem, hfree, hop⟩ := exists_of_bind_eq_ok hop
  obtain ⟨newSize, hdouble, hadd⟩ := exists_of_bind_eq_ok hop
  dsimp only at hdouble hadd
  rw [vlMemGrow_eq] at hadd
  have hgrown : VlArena.Usable { arena with data := { arena.data with size := newSize } } :=
    ⟨h.free, (vlMemDouble_lt hdouble h.capacity).2⟩
  obtain ⟨ha, hdata⟩ := (hgrown.addFree _).of_ok hadd
  refine ⟨ha, ?_⟩
  rw [vlArenaReserveCapacity, hfree, ok_bind, vlArenaReserveBytes]
  dsimp only
  rw [vlMemDoubling_of_double hdouble h.capacity, hdata]
  rfl

/-- **`vlArenaMemFree`** keeps an arena usable. -/
theorem vlArenaMemFree_usable {ptr : ℕ} (h : arena.Usable)
    (hop : vlArenaMemFree arena ptr = .ok arena') : arena'.Usable := by
  obtain ⟨p, -, hop⟩ := exists_of_bind_eq_ok hop
  obtain ⟨n, -, hop⟩ := exists_of_bind_eq_ok hop
  split_ifs at hop with hzero
  · obtain rfl := Except.ok.inj hop
    exact h
  · exact ((h.addFree _).of_ok hop).1

/-- Taking memory from a node that was found keeps an arena usable. -/
theorem vlArenaMemExtend_usable {p origSize : ℕ} {i : VlPoolIdx} {elem rightNode : VlArenaNode}
    {r : ℕ × VlArena} (h : arena.Usable) (hfind : vlSetFind arena.freeSet elem = .ok (some i))
    (hop : vlArenaMemExtend arena p size origSize (some i) rightNode = .ok r) : r.2.Usable := by
  obtain ⟨⟨l, hl⟩, hcap⟩ := h
  -- the node is one of the set
  rw [hl.find vlArenaNodeCompare_lawful] at hfind
  obtain ⟨e, he, rfl⟩ := Option.map_eq_some_iff.mp (Except.ok.inj hfind)
  obtain ⟨pre, post, rfl⟩ := List.append_of_mem (List.mem_of_find?_eq_some he)
  obtain ⟨freeSet, hremove, hop⟩ := exists_of_bind_eq_ok hop
  have hremoved := hl.remove.of_ok hremove
  dsimp only at hop
  split_ifs at hop with hrest
  · obtain ⟨freeSet', hinsert, hop⟩ := exists_of_bind_eq_ok hop
    obtain ⟨⟨iter, s⟩, hs, hinsert⟩ := exists_of_bind_eq_ok hinsert
    obtain rfl := Except.ok.inj hinsert
    obtain ⟨mem, hstore, hop⟩ := exists_of_bind_eq_ok hop
    obtain rfl := Except.ok.inj hop
    obtain ⟨pre', x, post', -, hholds⟩ := (vlSetInsert_any hremoved _).of_ok hs
    exact ⟨⟨_, hholds⟩, (VlMemory.size_store hstore).trans_lt hcap⟩
  · obtain ⟨freeSet', hkept, hop⟩ := exists_of_bind_eq_ok hop
    obtain rfl := Except.ok.inj hkept
    obtain ⟨mem, hstore, hop⟩ := exists_of_bind_eq_ok hop
    obtain rfl := Except.ok.inj hop
    exact ⟨⟨_, hremoved⟩, (VlMemory.size_store hstore).trans_lt hcap⟩

/-- **`vlArenaMemRealloc`** keeps an arena usable. -/
theorem vlArenaMemRealloc_usable {ptr : ℕ} {r : ℕ × VlArena} (h : arena.Usable)
    (hop : vlArenaMemRealloc arena ptr size = .ok r) : r.2.Usable := by
  obtain ⟨p, -, hop⟩ := exists_of_bind_eq_ok hop
  obtain ⟨origSize, -, hop⟩ := exists_of_bind_eq_ok hop
  have hmove : ∀ n, vlArenaMemMove arena p n origSize = .ok r → r.2.Usable := by
    intro n hop
    obtain ⟨⟨result, a⟩, halloc, hop⟩ := exists_of_bind_eq_ok hop
    obtain ⟨bytes, -, hop⟩ := exists_of_bind_eq_ok hop
    obtain ⟨mem, hstore, hop⟩ := exists_of_bind_eq_ok hop
    obtain ⟨a', hfree, hop⟩ := exists_of_bind_eq_ok hop
    obtain rfl := Except.ok.inj hop
    exact vlArenaMemFree_usable ((vlArenaMemAlloc_usable h halloc).1.store hstore) hfree
  dsimp only at hop
  split_ifs at hop with hsame hshrink
  · obtain rfl := Except.ok.inj hop
    exact h
  · obtain ⟨a, hadd, hop⟩ := exists_of_bind_eq_ok hop
    obtain ⟨mem, hstore, hop⟩ := exists_of_bind_eq_ok hop
    obtain rfl := Except.ok.inj hop
    exact ((h.addFree _).of_ok hadd).1.store hstore
  · obtain ⟨rightIter, hfind, hop⟩ := exists_of_bind_eq_ok hop
    cases rightIter with
    | none => exact hmove _ hop
    | some i =>
      obtain ⟨rightNode, hsample, hop⟩ := exists_of_bind_eq_ok hop
      split_ifs at hop with hroom
      · exact vlArenaMemExtend_usable h hfind hop
      · exact hmove _ hop

/-- **`vlArenaClear`** keeps an arena usable. -/
theorem vlArenaClear_usable (h : arena.Usable) (hop : vlArenaClear arena = .ok arena') :
    arena'.Usable := by
  obtain ⟨⟨l, hl⟩, hcap⟩ := h
  obtain ⟨freeSet, hclear, hop⟩ := exists_of_bind_eq_ok hop
  obtain ⟨⟨iter, s⟩, hs, hop⟩ := exists_of_bind_eq_ok hop
  obtain rfl := Except.ok.inj hop
  obtain ⟨pre, x, post, -, hholds⟩ := (vlSetInsert_any (hl.clear.of_ok hclear) _).of_ok hs
  exact ⟨⟨_, hholds⟩, hcap⟩

/-- **`vlArenaInit`** gives a usable arena, of any size. -/
theorem vlArenaInit_usable {contents : ByteMem} {initialSize : ℕ} (hsize : initialSize < 2 ^ 64) :
    Returns (vlArenaInit contents initialSize) VlArena.Usable := by
  have hempty : FreeHolds (vlSetInit vlArenaNodeSize vlArenaNodeCompare) [] :=
    vlSetInit_holds vlArenaNodeCompare (by decide)
  refine (vlSetInsert_any hempty ⟨0, initialSize⟩).bind ?_
  rintro ⟨iter, s⟩ ⟨pre, x, post, -, hholds⟩
  exact returns_ok ⟨⟨_, hholds⟩, hsize⟩

/-- **Every call** keeps an arena usable, whatever its arguments. -/
theorem arenaStep_usable {s s' : ArenaState} {o : VlArenaOp} (h : s.arena.Usable)
    (hop : arenaStep s o = .ok s') : s'.arena.Usable := by
  cases o with
  | alloc size =>
    obtain ⟨r, halloc, hop⟩ := exists_of_bind_eq_ok hop
    obtain rfl := Except.ok.inj hop
    exact (vlArenaMemAlloc_usable h halloc).1
  | free ptr =>
    obtain ⟨a, hfree, hop⟩ := exists_of_bind_eq_ok hop
    obtain rfl := Except.ok.inj hop
    exact vlArenaMemFree_usable h hfree
  | realloc ptr size =>
    obtain ⟨origSize, -, hop⟩ := exists_of_bind_eq_ok hop
    obtain ⟨r, hre, hop⟩ := exists_of_bind_eq_ok hop
    obtain rfl := Except.ok.inj hop
    exact vlArenaMemRealloc_usable h hre
  | reserve numBytes =>
    obtain ⟨a, hreserve, hop⟩ := exists_of_bind_eq_ok hop
    obtain rfl := Except.ok.inj hop
    exact (vlArenaReserve_usable h hreserve).1
  | clear =>
    obtain ⟨a, hclear, hop⟩ := exists_of_bind_eq_ok hop
    obtain rfl := Except.ok.inj hop
    exact vlArenaClear_usable h hclear
  | write ptr offset bs =>
    obtain ⟨mem, hstore, hop⟩ := exists_of_bind_eq_ok hop
    obtain rfl := Except.ok.inj hop
    exact h.store hstore

end Usable

/-- **The calls of an arena**, in any order and with any arguments. -/
def arenaCalls : Machine ArenaState VlArenaOp where
  guard _ _ := True
  step := arenaStep

/-- **Every run of calls** reaches usable arenas. -/
theorem arenaCalls_usable {s s' : ArenaState} {os : List VlArenaOp} (h : s.arena.Usable)
    (hrun : arenaCalls.Run s os s') : s'.arena.Usable :=
  hrun.invariant (I := fun s => s.arena.Usable) (fun _ _ _ hs _ hop => arenaStep_usable hs hop) h

/-- **When the doubling loops are left** with more than the bytes that are needed: for every buffer, and
for every arena whose free set is a set, exactly if the capacity grows beyond these bytes, or, in
`vlArenaMemAlloc`, if the loop is not reached. From an initial size of 64 bits, no calls lead to other
arenas. -/
theorem vlCapacity_iff {buffer : VlBuffer} {arena : VlArena} (contents : ByteMem)
    {initialSize : ℕ} (hbuffer : buffer.data.size < 2 ^ 64) (harena : arena.Usable)
    (hinit : initialSize < 2 ^ 64) (size : ℕ) :
    (LeavesLoop (vlBufferWriteCapacity buffer size) (size + buffer.offset) ↔
      GrowsBeyond buffer.data.size (size + buffer.offset)) ∧
    (LeavesLoop (vlArenaMemAllocCapacity arena size) (size + 8 + vlArenaTotalCapacity arena) ↔
      size = 0 ∨ (∃ nodes, arena.freeNodes = .ok nodes ∧
        ∃ node ∈ nodes, (size + 8) % 2 ^ 64 ≤ node.size) ∨
      GrowsBeyond (vlArenaTotalCapacity arena) (size + 8 + vlArenaTotalCapacity arena)) ∧
    (∃ freeMem, vlArenaTotalFree arena = .ok freeMem ∧
      (LeavesLoop (vlArenaReserveCapacity arena size)
          (vlArenaReserveBytes size freeMem + vlArenaTotalCapacity arena) ↔
        GrowsBeyond (vlArenaTotalCapacity arena)
          (vlArenaReserveBytes size freeMem + vlArenaTotalCapacity arena))) ∧
    Returns (vlArenaInit contents initialSize) fun arena =>
      ∀ os s, arenaCalls.Run ⟨arena, []⟩ os s → s.arena.Usable := by
  refine ⟨vlBufferWriteCapacity_iff hbuffer size, vlArenaMemAllocCapacity_iff harena size,
    vlArenaReserveCapacity_iff harena size, ?_⟩
  exact (vlArenaInit_usable hinit).mono fun arena h os s hrun => arenaCalls_usable h hrun

/-- A byte written to a buffer of 16, next to the arena of 64 bytes. -/
theorem vlCapacity_iff_small :
    LeavesLoop (vlBufferWriteCapacity (vlBufferInitExt (fun _ => 0) 16) 1) 1 := by
  have hinit : 64 < 2 ^ 64 := by norm_num
  have hreturns : Returns (vlArenaInit (fun _ => 0) 64) VlArena.Usable := vlArenaInit_usable hinit
  obtain ⟨arena, -, harena⟩ := hreturns
  have hbuffer : (vlBufferInitExt (fun _ => 0) 16).data.size < 2 ^ 64 := by decide
  exact (vlCapacity_iff (fun _ => 0) hbuffer harena hinit 1).1.mpr
    (growsBeyond_of_lt (by decide) (by decide) (by decide))

/-- A buffer that was made with, or reset to, no capacity turns in its loop when a byte is written. -/
theorem not_leavesLoop_empty :
    ¬ LeavesLoop (vlBufferWriteCapacity (vlBufferInitExt (fun _ => 0) 0) 1) 1 := fun h =>
  not_growsBeyond_zero ((vlBufferWriteCapacity_iff (by decide) 1).mp h)

end VeritableLasagna
