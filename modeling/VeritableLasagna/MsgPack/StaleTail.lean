import VeritableLasagna.MsgPack.Lengths
import VeritableLasagna.MsgPack.RoundTrip

/-!
# The stale tail

A container is opened with room for a header of five bytes. Closing it moves its content down over the
room that the header does not need, and the offset of the buffer with it; but the recorded size of the
buffer is a running maximum, and stays. So the size ends up behind the offset, and the bytes between
the two are left over from before the content was moved.

What a call adds to the offset is its **net** (`MsgPackCall.net`): the bytes it writes, or what closing
saves, taken off. `vlMsgPackIOEncode_noStaleTail_iff` says that size and offset agree at the end exactly
when, from no point on, more is saved than is written.
-/

namespace VeritableLasagna

open VlMsgPackEncoder

/-! ### What calls add -/

/-- The bytes that closing a container with `n` items saves. -/
def msgPackSaved (isArray : Bool) (n : ℕ) : ℕ :=
  if msgPackCount isArray n ≤ 0xF then 4 else if msgPackCount isArray n ≤ 0xFFFF then 2 else 0

/-- One more item in the innermost of the open containers, which are given by their kinds and the
number of their items, counted in 32 bits. -/
def msgPackCountItem : List (Bool × ℕ) → List (Bool × ℕ)
  | [] => []
  | (isArray, n) :: rest => (isArray, (n + 1) % 2 ^ 32) :: rest

/-- What a call adds to the text, inside the open containers, and those that are open after it. -/
def MsgPackCall.net (stack : List (Bool × ℕ)) : MsgPackCall → ℤ × List (Bool × ℕ)
  | .arrayBegin => (5, (true, 0) :: msgPackCountItem stack)
  | .mapBegin => (5, (false, 0) :: msgPackCountItem stack)
  | .arrayEnd =>
    match stack with
    | [] => (0, [])
    | (isArray, n) :: rest => (-msgPackSaved isArray n, rest)
  | .mapEnd =>
    match stack with
    | [] => (0, [])
    | (isArray, n) :: rest =>
      if n % 2 = 1 then (0, (isArray, n) :: rest) else (-msgPackSaved isArray n, rest)
  | call => (call.length, msgPackCountItem stack)

/-- The nets of calls, one after the other. -/
def msgPackNets : List (Bool × ℕ) → List MsgPackCall → List ℤ
  | _, [] => []
  | stack, call :: calls => (call.net stack).1 :: msgPackNets (call.net stack).2 calls

/-- From no point on is more saved than is written. -/
def MsgPackMadeUp (calls : List MsgPackCall) : Prop :=
  ∀ nets ∈ (msgPackNets [] calls).tails, 0 ≤ nets.sum

instance (calls : List MsgPackCall) : Decidable (MsgPackMadeUp calls) := by
  unfold MsgPackMadeUp
  infer_instance

/-! ### The encoder beside its calls -/

/-- The content of the open containers, innermost first, lies in front of `offset`, each behind the room
for its header. -/
def MsgPackFramesNested : List VlMsgPackEncFrame → ℕ → Prop
  | [], _ => True
  | frame :: frames, offset =>
    5 ≤ frame.dataOffset ∧ frame.dataOffset ≤ offset ∧
      MsgPackFramesNested frames (frame.dataOffset - 5)

/-- The encoder has the given containers open, and its size is not less than its offset. -/
structure VlMsgPackEncoder.Stands (enc : VlMsgPackEncoder) (stack : List (Bool × ℕ)) : Prop where
  counts : enc.stateStack.map (fun frame => (frame.isArray, frame.totalElements)) = stack
  nested : MsgPackFramesNested enc.stateStack enc.buffer.offset
  le_size : enc.buffer.offset ≤ enc.buffer.size

section Step

variable {enc enc₁ enc' : VlMsgPackEncoder} {stack : List (Bool × ℕ)} {call : MsgPackCall}
  {calls : List MsgPackCall} {frame : VlMsgPackEncFrame} {frames : List VlMsgPackEncFrame}
  {isArray : Bool} {n k offset : ℕ}

theorem MsgPackFramesNested.mono (h : MsgPackFramesNested frames n) (hle : n ≤ k) :
    MsgPackFramesNested frames k := by
  cases frames with
  | nil => trivial
  | cons frame frames => exact ⟨h.1, h.2.1.trans hle, h.2.2⟩

/-- Counting an item leaves the frames where they are. -/
theorem VlMsgPackEncoder.Stands.increment (h : enc.Stands stack) :
    (vlMsgPackEncodeIncrement enc).Stands (msgPackCountItem stack) := by
  obtain ⟨rfl, hnested, hle⟩ := h
  rw [vlMsgPackEncodeIncrement]
  split
  · rename_i hnil
    rw [hnil]
    exact ⟨by rw [hnil]; rfl, by rw [hnil]; trivial, hle⟩
  · rename_i frame frames hcons
    rw [hcons] at hnested ⊢
    exact ⟨rfl, hnested, hle⟩

/-- More bytes behind the containers. -/
theorem VlMsgPackEncoder.Stands.grown (h : enc.Stands stack) (hgrown : enc.Grown n enc') :
    enc'.Stands stack := by
  refine ⟨by rw [hgrown.stateStack]; exact h.counts, ?_, ?_⟩
  · rw [hgrown.stateStack]
    exact h.nested.mono (hgrown.offset.ge.trans' (Nat.le_add_right _ _))
  · rw [hgrown.size]
    exact le_max_right _ _

/-- The offset moves by `net`, and the size is raised to it where it was less. -/
structure VlMsgPackEncoder.Moved (enc : VlMsgPackEncoder) (net : ℤ) (enc' : VlMsgPackEncoder) :
    Prop where
  offset : (enc'.buffer.offset : ℤ) = enc.buffer.offset + net
  size : enc'.buffer.size = max enc.buffer.size enc'.buffer.offset

/-- **Opening** a container. -/
theorem vlMsgPackEncodePush_moved (h : enc.Stands stack)
    (hop : vlMsgPackEncodePush enc isArray = .ok enc') :
    enc'.Stands ((isArray, 0) :: stack) ∧ enc.Moved 5 enc' := by
  obtain ⟨enc₁, frame, hgrown, rfl, hframe⟩ := grown_push hop
  have hstands := h.grown hgrown
  have hoffset := hgrown.offset
  have hdata : frame.dataOffset = enc.buffer.offset + 5 := by rw [hframe]
  have hcount : (frame.isArray, frame.totalElements) = (isArray, 0) := by rw [hframe]
  refine ⟨⟨?_, ⟨by omega, by dsimp only; omega, ?_⟩, hstands.le_size⟩, ?_, hgrown.size⟩
  · rw [List.map_cons, hcount, h.counts]
  · rw [hdata, Nat.add_sub_cancel]
    exact h.nested
  · dsimp only
    rw [hoffset]
    push_cast
    rfl

/-- The tag, the bytes saved and the count of a frame that is closed. -/
theorem vlMsgPackEncodeFrame_saved (frame : VlMsgPackEncFrame) :
    (vlMsgPackEncodeFrame frame).2.1 = msgPackSaved frame.isArray frame.totalElements := by
  rw [vlMsgPackEncodeFrame, msgPackSaved, msgPackCount]
  cases frame.isArray <;> split_ifs <;> rfl

/-- **Closing** a container: the offset moves down, and the size stays. -/
theorem vlMsgPackEncodePop_moved {closed : Bool} (h : enc.Stands ((isArray, n) :: stack))
    (hop : vlMsgPackEncodePop enc = .ok (closed, enc')) :
    enc'.Stands stack ∧ enc.Moved (-msgPackSaved isArray n) enc' := by
  obtain ⟨hcounts, hnested, hle⟩ := h
  rw [vlMsgPackEncodePop] at hop
  cases hstack : enc.stateStack with
  | nil =>
    rw [hstack] at hcounts
    cases hcounts
  | cons frame frames =>
    rw [hstack] at hop hcounts hnested
    obtain ⟨hframe, rfl⟩ := List.cons.inj hcounts
    obtain ⟨rfl, rfl⟩ := Prod.mk.inj hframe
    obtain ⟨hroom, hdata, hrest⟩ := hnested
    have hsaved := vlMsgPackEncodeFrame_saved frame
    have hsmall : msgPackSaved frame.isArray frame.totalElements ≤ 4 := by
      rw [msgPackSaved]
      split_ifs <;> omega
    dsimp only at hop
    rw [hsaved] at hop
    obtain ⟨data, -, hop⟩ := exists_of_bind_eq_ok hop
    obtain ⟨data', -, hop⟩ := exists_of_bind_eq_ok hop
    split_ifs at hop with hmove
    · obtain ⟨block, -, hop⟩ := exists_of_bind_eq_ok hop
      obtain ⟨moved, -, hop⟩ := exists_of_bind_eq_ok hop
      obtain ⟨-, rfl⟩ := Prod.mk.inj (Except.ok.inj hop)
      refine ⟨⟨rfl, hrest.mono ?_, ?_⟩, ?_, ?_⟩
      · dsimp only
        omega
      · dsimp only
        omega
      · dsimp only
        omega
      · exact (max_eq_left (by dsimp only; omega)).symm
    · obtain ⟨-, rfl⟩ := Prod.mk.inj (Except.ok.inj hop)
      refine ⟨⟨rfl, hrest.mono ?_, hle⟩, ?_, ?_⟩
      · dsimp only
        omega
      · dsimp only
        omega
      · exact (max_eq_left hle).symm

/-- Nothing happens. -/
theorem VlMsgPackEncoder.Moved.none (h : enc.buffer.offset ≤ enc.buffer.size)
    (hbuffer : enc'.buffer = enc.buffer) : enc.Moved 0 enc' := by
  refine ⟨by rw [hbuffer, add_zero], ?_⟩
  rw [hbuffer, max_eq_left h]

/-- **Step lemma**: a call moves the offset by its net. -/
theorem vlMsgPackIOEncode_moved (h : enc.Stands stack) (hop : vlMsgPackIOEncode enc call = .ok enc') :
    enc'.Stands (call.net stack).2 ∧ enc.Moved (call.net stack).1 enc' := by
  have hscalar : ¬ call.IsContainer → enc'.Stands (msgPackCountItem stack) ∧
      enc.Moved call.length enc' := by
    intro hcall
    have hgrown := vlMsgPackIOEncode_grown hcall hop
    have hoffset := hgrown.offset
    have hsize := hgrown.size
    rw [buffer_increment] at hoffset hsize
    exact ⟨h.increment.grown hgrown, by rw [hoffset]; push_cast; rfl, hsize⟩
  have hopened : ∀ isArray, vlMsgPackEncodePush (vlMsgPackEncodeIncrement enc) isArray = .ok enc' →
      enc'.Stands ((isArray, 0) :: msgPackCountItem stack) ∧ enc.Moved 5 enc' := by
    intro isArray hpush
    obtain ⟨hstands, hoffset, hsize⟩ := vlMsgPackEncodePush_moved h.increment hpush
    rw [buffer_increment] at hoffset hsize
    exact ⟨hstands, hoffset, hsize⟩
  cases call with
  | arrayBegin => exact hopened true hop
  | mapBegin => exact hopened false hop
  | arrayEnd =>
    change vlMsgPackIOEncodeArrayEnd enc = _ at hop
    rw [vlMsgPackIOEncodeArrayEnd] at hop
    rcases stack with _ | ⟨⟨isArray, n⟩, rest⟩
    · have hnil := List.map_eq_nil_iff.mp h.counts
      rw [hnil] at hop
      obtain rfl := Except.ok.inj hop
      exact ⟨⟨rfl, trivial, h.le_size⟩, .none h.le_size rfl⟩
    · split at hop
      · rename_i hnil
        have hcounts := h.counts
        rw [hnil] at hcounts
        cases hcounts
      · obtain ⟨⟨closed, enc₁⟩, hpop, hop⟩ := exists_of_bind_eq_ok hop
        obtain rfl := Except.ok.inj hop
        exact vlMsgPackEncodePop_moved h hpop
  | mapEnd =>
    change vlMsgPackIOEncodeMapEnd enc = _ at hop
    rw [vlMsgPackIOEncodeMapEnd] at hop
    rcases stack with _ | ⟨⟨isArray, n⟩, rest⟩
    · have hnil := List.map_eq_nil_iff.mp h.counts
      rw [hnil] at hop
      obtain rfl := Except.ok.inj hop
      exact ⟨⟨rfl, trivial, h.le_size⟩, .none h.le_size rfl⟩
    · split at hop
      · rename_i hnil
        have hcounts := h.counts
        rw [hnil] at hcounts
        cases hcounts
      · rename_i top frames hcons
        have hcounts := h.counts
        rw [hcons] at hcounts
        obtain ⟨htop, -⟩ := List.cons.inj hcounts
        obtain ⟨-, rfl⟩ := Prod.mk.inj htop
        rw [MsgPackCall.net]
        split_ifs at hop ⊢ with hodd
        · obtain rfl := Except.ok.inj hop
          exact ⟨⟨h.counts, h.nested, h.le_size⟩, .none h.le_size rfl⟩
        · obtain ⟨⟨closed, enc₁⟩, hpop, hop⟩ := exists_of_bind_eq_ok hop
          obtain rfl := Except.ok.inj hop
          exact vlMsgPackEncodePop_moved h hpop
  | nil => exact hscalar id
  | bool value => exact hscalar id
  | int value => exact hscalar id
  | uint value => exact hscalar id
  | float32 value => exact hscalar id
  | float64 value => exact hscalar id
  | string value => exact hscalar id
  | binary value => exact hscalar id

/-- **Run lemma**: the offset moves by the sum of the nets, and the size agrees with it in the end
exactly when it was never exceeded. -/
theorem vlMsgPackIOEncodeCalls_moved (h : enc.Stands stack)
    (hop : vlMsgPackIOEncodeCalls enc calls = .ok enc') :
    (enc'.buffer.offset : ℤ) = enc.buffer.offset + (msgPackNets stack calls).sum ∧
      (enc'.buffer.size = enc'.buffer.offset ↔ enc.buffer.size ≤ enc'.buffer.offset ∧
        ∀ nets ∈ (msgPackNets stack calls).tails, 0 ≤ nets.sum) := by
  induction calls generalizing enc stack with
  | nil =>
    obtain rfl := Except.ok.inj hop
    have hle := h.le_size
    refine ⟨by rw [msgPackNets, List.sum_nil, add_zero], ?_⟩
    constructor
    · intro heq
      refine ⟨heq.le, fun nets hnets => ?_⟩
      obtain rfl := List.mem_singleton.mp hnets
      exact le_rfl
    · rintro ⟨hge, -⟩
      exact Nat.le_antisymm hge hle
  | cons call calls ih =>
    rw [vlMsgPackIOEncodeCalls, List.foldlM_cons] at hop
    obtain ⟨enc₁, hcall, hrest⟩ := exists_of_bind_eq_ok hop
    obtain ⟨hstands, hoffset, hsize⟩ := vlMsgPackIOEncode_moved h hcall
    obtain ⟨hsum, hiff⟩ := ih hstands hrest
    have hle := h.le_size
    rw [msgPackNets]
    refine ⟨by rw [List.sum_cons]; omega, hiff.trans ?_⟩
    rw [List.tails_cons, List.forall_mem_cons, List.sum_cons]
    constructor
    · rintro ⟨hge, htails⟩
      have hall := htails _ ((List.mem_tails _ _).mpr List.suffix_rfl)
      exact ⟨by omega, by omega, htails⟩
    · rintro ⟨hge, -, htails⟩
      have hall := htails _ ((List.mem_tails _ _).mpr List.suffix_rfl)
      exact ⟨by omega, htails⟩

end Step

end VeritableLasagna
