import VeritableLasagna.Stack.Basic

/-!
# Runs of the stack

A run of the stack starts at `vlStackInit` and pushes elements of any sizes, pops, also when the stack
is empty, and resets, in any order. Beside the stack goes the list of what is still on it: each element
with the offset its push returned, the most recent one first.

`vlStack_faithful` says that in every state of a run the stack gives back exactly this list, as long
as it is shorter than 2 ^ 32. The depth is a number of 32 bits, so a stack of 2 ^ 32 elements has depth
zero (`vlStack_not_faithful_full`), and its elements can no longer be popped.
-/

namespace VeritableLasagna

/-- The operations of a caller of the stack. -/
inductive VlStackOp
  | pushValue (data : List UInt8)
  | pop
  | reset

/-- A stack, and the elements that were pushed and not popped since, the most recent one first. -/
structure StackState where
  stack : VlStack
  elements : List (ℕ × List UInt8)

/-- One operation, with the bookkeeping of the elements. -/
def stackStep (s : StackState) : VlStackOp → Except Fault StackState
  | .pushValue data => do
    let (offset, stack) ← vlStackPushValue s.stack data data.length
    return ⟨stack, (offset, data) :: s.elements⟩
  | .pop => do
    let stack ← vlStackPop s.stack
    return ⟨stack, s.elements.tail⟩
  | .reset => .ok ⟨vlStackReset s.stack, []⟩

/-- The stack as a machine: everything is allowed. -/
def stackMachine : Machine StackState VlStackOp where
  guard _ _ := True
  step := stackStep

/-- The stack as a machine whose depth can count the elements. -/
def countedStackMachine : Machine StackState VlStackOp where
  guard s
    | .pushValue _ => s.elements.length + 1 < 2 ^ 32
    | _ => True
  step := stackStep

instance (s : StackState) : ∀ o, Decidable (countedStackMachine.guard s o)
  | .pushValue _ => inferInstanceAs (Decidable (s.elements.length + 1 < 2 ^ 32))
  | .pop | .reset => inferInstanceAs (Decidable True)

/-- The stack gives back what is on it: at the offset of each element its bytes and its size, at the
top those of the most recent one, and the depth is their number. -/
structure StackState.Faithful (s : StackState) : Prop where
  sample : ∀ e ∈ s.elements,
    s.stack.buffer.data.load (vlStackSample s.stack e.1) e.2.length = .ok e.2 ∧
      vlStackSampleSize s.stack e.1 = .ok e.2.length
  peek : ∀ e ∈ s.elements.head?,
    s.stack.buffer.data.load (vlStackPeek s.stack) e.2.length = .ok e.2 ∧
      vlStackPeekSize s.stack = .ok e.2.length
  depth : s.stack.depth.toNat = s.elements.length

/-- What the invariant says, the stack gives back. -/
theorem VlStack.Inv.faithful {s : StackState} (h : s.stack.Inv s.elements)
    (hlt : s.elements.length < 2 ^ 32) : s.Faithful := by
  have hin := h.buffer.offset_le
  have hsample : ∀ e ∈ s.elements,
      s.stack.buffer.data.load (vlStackSample s.stack e.1) e.2.length = .ok e.2 ∧
        vlStackSampleSize s.stack e.1 = .ok e.2.length := by
    intro e he
    obtain ⟨hlow, hhigh, hbytes, hsize⟩ := h.frames.of_mem he
    rw [vlStackHeaderSize] at hlow
    constructor
    · rw [vlStackSample, VlMemory.load_eq (by omega), hbytes]
    · rw [vlStackSampleSize, VlMemory.loadNumber_eq (by rw [vlStackHeaderSize]; omega),
        VlMemory.number, hsize]
  refine ⟨hsample, fun e he => ?_, ?_⟩
  · obtain ⟨stack, elements⟩ := s
    cases elements with
    | nil => cases he
    | cons top rest =>
      obtain rfl := Option.some_injective _ he
      obtain ⟨hbytes, hsize⟩ := hsample top List.mem_cons_self
      have hoffset : top.1 = stack.headOffset + vlStackHeaderSize := h.frames.1
      have hheader : top.1 - vlStackHeaderSize = stack.headOffset := by omega
      constructor
      · rw [vlStackPeek, ← hoffset]
        exact hbytes
      · rw [vlStackPeekSize, ← hheader]
        exact hsize
  · rw [h.depth_eq]
    exact UInt32.toNat_ofNat_of_lt' hlt

/-- **Step lemma**: every operation returns, unless the buffer cannot grow, and keeps the invariant. -/
theorem stackStep_spec {s : StackState} {o : VlStackOp} (h : s.stack.Inv s.elements)
    (hlt : s.elements.length < 2 ^ 32) (hg : countedStackMachine.guard s o) :
    Serves (stackStep s o) fun s' => s'.stack.Inv s'.elements ∧ s'.elements.length < 2 ^ 32 := by
  cases o with
  | pushValue data =>
    exact (vlStackPushValue_spec h data).bind fun r hr => serves_ok ⟨hr, hg⟩
  | pop =>
    obtain ⟨stack, elements⟩ := s
    cases elements with
    | nil =>
      have hpop : vlStackPop stack = .ok stack := vlStackPop_nil h
      rw [stackStep, hpop]
      exact serves_ok ⟨h, hlt⟩
    | cons top rest =>
      obtain ⟨stack', hpop, hinv⟩ := vlStackPop_cons h hlt
      rw [stackStep, hpop]
      exact serves_ok ⟨hinv, (Nat.lt_succ_self _).trans hlt⟩
  | reset => exact serves_ok ⟨vlStackReset_spec h, by norm_num⟩

/-- **Run lemma**: every state of a run satisfies the invariant. -/
theorem countedStackMachine_inv {contents : ByteMem} {stack : VlStack} {ops : List VlStackOp}
    {s : StackState} (hinit : vlStackInit contents = .ok stack)
    (hrun : countedStackMachine.Run ⟨stack, []⟩ ops s) :
    s.stack.Inv s.elements ∧ s.elements.length < 2 ^ 32 := by
  refine hrun.invariant (I := fun s => s.stack.Inv s.elements ∧ s.elements.length < 2 ^ 32)
    (fun s o s' h hg hstep => (stackStep_spec h.1 h.2 hg).of_ok hstep) ⟨?_, by norm_num⟩
  exact (vlStackInit_spec contents).of_ok hinit

/-- **A stack gives back what is on it.** In every state that a run of pushes, pops and resets reaches
from an initialised stack, while the stack holds fewer than 2 ^ 32 elements, `vlStackSample` and
`vlStackSampleSize` give the bytes and the size of every element at the offset its push returned,
`vlStackPeek` and `vlStackPeekSize` those of the most recent one, and the depth is the number of
elements; and every operation returns, unless the buffer cannot grow any more. -/
theorem vlStack_faithful {contents : ByteMem} {stack : VlStack} {ops : List VlStackOp}
    {s : StackState} (hinit : vlStackInit contents = .ok stack)
    (hrun : countedStackMachine.Run ⟨stack, []⟩ ops s) :
    s.Faithful ∧
      ∀ o, countedStackMachine.guard s o → Serves (countedStackMachine.step s o) fun _ => True := by
  obtain ⟨hinv, hlt⟩ := countedStackMachine_inv hinit hrun
  exact ⟨hinv.faithful hlt, fun o hg => (stackStep_spec hinv hlt hg).mono fun _ _ => trivial⟩

/-- The rule on a concrete run: two elements, the second one popped, and a third one over it. -/
theorem vlStack_faithful_push_pop :
    ∃ stack s, vlStackInit (fun _ => 0) = .ok stack ∧
      countedStackMachine.Run ⟨stack, []⟩ [.pushValue [1, 2, 3], .pushValue [], .pop,
        .pushValue [7]] s ∧ s.elements = [(40, [7]), (16, [1, 2, 3])] ∧ s.Faithful := by
  have hexec : ((vlStackInit fun _ => 0).toOption.any fun stack =>
      (countedStackMachine.exec ⟨stack, []⟩ [.pushValue [1, 2, 3], .pushValue [], .pop,
        .pushValue [7]]).any fun s => s.elements = [(40, [7]), (16, [1, 2, 3])]) = true := by
    decide +kernel
  obtain ⟨stack, hstack, hexec⟩ := (Option.any_eq_true _ _).mp hexec
  have hinit := eq_ok_of_toOption hstack
  obtain ⟨s, hrun, helements⟩ := Machine.exists_run_of_exec hexec
  exact ⟨stack, s, hinit, hrun, of_decide_eq_true helements, (vlStack_faithful hinit hrun).1⟩

/-- Pushing `n` empty elements. -/
theorem stackMachine_push_empty {contents : ByteMem} {stack : VlStack}
    (hinit : vlStackInit contents = .ok stack) {n : ℕ} (hn : 16 * n < 2 ^ 61) :
    ∃ s, stackMachine.Run ⟨stack, []⟩ (List.replicate n (.pushValue [])) s ∧
      s.stack.Inv s.elements ∧ s.elements.length = n ∧ s.stack.buffer.offset = 16 * n := by
  induction n with
  | zero =>
    have hinv := (vlStackInit_spec contents).of_ok hinit
    exact ⟨_, .nil _, hinv, rfl, hinv.frames.2⟩
  | succ n ih =>
    obtain ⟨s, hrun, hinv, hlength, hoffset⟩ := ih (by omega)
    have hsize : vlStackAlignedSize ([] : List UInt8).length = 16 := by decide
    have hbound : vlStackAlignedSize ([] : List UInt8).length + s.stack.buffer.offset < 2 ^ 62 := by
      omega
    obtain ⟨newSize, hdouble⟩ :=
      vlMemDouble_returns hinv.buffer.nonempty hinv.buffer.bound hbound
    have hwrite : ∃ r, vlBufferWrite s.stack.buffer (vlStackAlignedSize ([] : List UInt8).length)
        none = .ok r := by
      rw [vlBufferWrite, vlMemSize, hdouble]
      exact ⟨_, rfl⟩
    obtain ⟨⟨head, buffer⟩, hwrite⟩ := hwrite
    obtain ⟨⟨offset, stack'⟩, hpush, hinv', hoffset'⟩ := vlStackPushValue_of_write hinv hwrite
    have hstep : stackMachine.step s (.pushValue []) = .ok ⟨stack', (offset, []) :: s.elements⟩ := by
      change (do
        let (offset, stack) ← vlStackPushValue s.stack [] ([] : List UInt8).length
        return (⟨stack, (offset, []) :: s.elements⟩ : StackState)) = _
      rw [hpush]
      rfl
    refine ⟨⟨stack', (offset, []) :: s.elements⟩, ?_, hinv', ?_, ?_⟩
    · rw [List.replicate_succ']
      exact hrun.append (.cons trivial hstep (.nil _))
    · rw [List.length_cons, hlength]
    · rw [hoffset', hsize, hoffset]
      omega

/-- A stack of 2 ^ 32 empty elements has depth zero. -/
theorem vlStack_not_faithful_full :
    ∃ stack s, vlStackInit (fun _ => 0) = .ok stack ∧
      stackMachine.Run ⟨stack, []⟩ (List.replicate (2 ^ 32) (.pushValue [])) s ∧
      s.elements.length = 2 ^ 32 ∧ s.stack.depth = 0 ∧ ¬ s.Faithful := by
  obtain ⟨stack, hinit, -⟩ := vlStackInit_spec fun _ => 0
  obtain ⟨s, hrun, hinv, hlength, -⟩ := stackMachine_push_empty hinit (n := 2 ^ 32) (by norm_num)
  have hdepth : s.stack.depth = 0 := by
    rw [hinv.depth_eq, hlength]
    decide
  refine ⟨stack, s, hinit, hrun, hlength, hdepth, fun hfaithful => ?_⟩
  have hcount := hfaithful.depth
  rw [hdepth, hlength] at hcount
  norm_num at hcount

end VeritableLasagna
