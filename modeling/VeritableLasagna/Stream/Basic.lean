import VeritableLasagna.Lib.Simulation
import VeritableLasagna.Memory.Buffer

/-!
# Streams

A `vl_stream` does no input and no output of its own. It calls the functions its back end has set, hands them
their context, and counts what they have transferred. One call at a time holds its lock, so a stream is what
its calls make of it one after the other.
-/

namespace VeritableLasagna

/-- `vl_stream_origin`. -/
inductive VlStreamOrigin
  | seekSet
  | seekCur
  | seekEnd
  deriving DecidableEq

/-- `vl_stream`, with a context of type `υ`. A function that is not set is missing. Of a destination only the
room is known, in bytes; a read has the bytes that are copied there beside its count. -/
structure VlStream (υ : Type) where
  read : Option (ℕ → ℕ → υ → Except Fault ((List UInt8 × ℕ) × υ))
  write : Option (List UInt8 → ℕ → υ → Except Fault (ℕ × υ))
  seek : Option (ℤ → VlStreamOrigin → υ → Except Fault (Bool × υ))
  tell : Option (υ → ℤ)
  userData : υ
  totalRead : ℕ
  totalWritten : ℕ

variable {υ : Type}

/-- `vlStreamNew`. -/
def vlStreamNew (userData : υ) : VlStream υ := ⟨none, none, none, none, userData, 0, 0⟩

/-- `vlStreamRead`. A missing destination is `none`. -/
def vlStreamRead (stream : VlStream υ) (outBuffer : Option ℕ) (outLength : ℕ) :
    Except Fault ((List UInt8 × ℕ) × VlStream υ) :=
  match stream.read, outBuffer with
  | some read, some room => do
    let ((copied, bytesRead), userData) ← read room outLength stream.userData
    let totalRead := if bytesRead > 0 then (stream.totalRead + bytesRead) % 2 ^ 64 else stream.totalRead
    return ((copied, bytesRead), { stream with userData := userData, totalRead := totalRead })
  | _, _ => .ok (([], 0), stream)

/-- `vlStreamWrite`. A missing source is `none`. -/
def vlStreamWrite (stream : VlStream υ) (inBuffer : Option (List UInt8)) (inLength : ℕ) :
    Except Fault (ℕ × VlStream υ) :=
  match stream.write, inBuffer with
  | some write, some src => do
    let (bytesWritten, userData) ← write src inLength stream.userData
    let totalWritten :=
      if bytesWritten > 0 then (stream.totalWritten + bytesWritten) % 2 ^ 64 else stream.totalWritten
    return (bytesWritten, { stream with userData := userData, totalWritten := totalWritten })
  | _, _ => .ok (0, stream)

/-- `vlStreamSeek`. -/
def vlStreamSeek (stream : VlStream υ) (offset : ℤ) (origin : VlStreamOrigin) :
    Except Fault (Bool × VlStream υ) :=
  match stream.seek with
  | some seek => do
    let (result, userData) ← seek offset origin stream.userData
    return (result, { stream with userData := userData })
  | none => .ok (false, stream)

/-- `vlStreamTell`. -/
def vlStreamTell (stream : VlStream υ) : ℤ :=
  match stream.tell with
  | some tell => tell stream.userData
  | none => -1

/-! ### Words with a sign -/

/-- The number is one of `vl_int64_t`. -/
def FitsInt64 (n : ℤ) : Prop := -2 ^ 63 ≤ n ∧ n < 2 ^ 63

instance (n : ℤ) : Decidable (FitsInt64 n) := inferInstanceAs (Decidable (_ ∧ _))

/-- The cast of an unsigned word to `vl_int64_t`. -/
def toInt64 (n : ℕ) : ℤ := (n : ℤ).bmod (2 ^ 64)

/-- A sum of type `vl_int64_t`. -/
def addInt64 (a b : ℤ) : Except Fault ℤ := if FitsInt64 (a + b) then .ok (a + b) else .error .signedOverflow

theorem toInt64_eq {n : ℕ} (h : n < 2 ^ 63) : toInt64 n = n :=
  Int.bmod_eq_of_le_mul_two (by push_cast; omega) (by push_cast; omega)

theorem addInt64_eq {a b : ℤ} (h : FitsInt64 (a + b)) : addInt64 a b = .ok (a + b) := by
  rw [addInt64, if_pos h]

/-! ### Destinations -/

/-- `memcpy` of bytes to a destination with the given room. -/
def memcpyOut (room : ℕ) (bs : List UInt8) : Except Fault (List UInt8) :=
  if bs.length ≤ room then .ok bs else .error .outOfBounds

theorem memcpyOut_eq {room : ℕ} {bs : List UInt8} (h : bs.length ≤ room) : memcpyOut room bs = .ok bs :=
  if_pos h

/-! ### Calls -/

/-- A call on a stream. -/
inductive StreamCall
  | read (outBuffer : Option ℕ) (outLength : ℕ)
  | write (inBuffer : Option (List UInt8)) (inLength : ℕ)
  | seek (offset : ℤ) (origin : VlStreamOrigin)
  | tell

/-- What a call returns, and what a read copies to its destination. -/
inductive StreamAnswer
  | read (copied : List UInt8) (bytesRead : ℕ)
  | write (bytesWritten : ℕ)
  | seek (result : Bool)
  | tell (pos : ℤ)
  deriving DecidableEq

/-- The call, with its answer. -/
def vlStreamCall (stream : VlStream υ) : StreamCall → Except Fault (StreamAnswer × VlStream υ)
  | .read outBuffer outLength => do
    let ((copied, bytesRead), stream) ← vlStreamRead stream outBuffer outLength
    return (.read copied bytesRead, stream)
  | .write inBuffer inLength => do
    let (bytesWritten, stream) ← vlStreamWrite stream inBuffer inLength
    return (.write bytesWritten, stream)
  | .seek offset origin => do
    let (result, stream) ← vlStreamSeek stream offset origin
    return (.seek result, stream)
  | .tell => .ok (.tell (vlStreamTell stream), stream)

section Calls

variable {stream : VlStream υ} {userData : υ} {n count room : ℕ} {bs : List UInt8}

theorem vlStreamCall_read {read : ℕ → ℕ → υ → Except Fault ((List UInt8 × ℕ) × υ)}
    (hset : stream.read = some read) (hop : read room n stream.userData = .ok ((bs, count), userData)) :
    ∃ total, vlStreamCall stream (.read (some room) n) =
      .ok (.read bs count, { stream with userData := userData, totalRead := total }) := by
  refine ⟨if count > 0 then (stream.totalRead + count) % 2 ^ 64 else stream.totalRead, ?_⟩
  simp only [vlStreamCall, vlStreamRead, hset, hop, ok_bind, pure_eq_ok]

/-- A read that returned has called its function. -/
theorem read_of_vlStreamCall {read : ℕ → ℕ → υ → Except Fault ((List UInt8 × ℕ) × υ)}
    {stream' : VlStream υ} (hset : stream.read = some read)
    (hop : vlStreamCall stream (.read (some room) n) = .ok (.read bs count, stream')) :
    read room n stream.userData = .ok ((bs, count), stream'.userData) := by
  cases hread : read room n stream.userData with
  | error e =>
    simp only [vlStreamCall, vlStreamRead, hset, hread, error_bind] at hop
    cases hop
  | ok r =>
    obtain ⟨total, hcall⟩ := vlStreamCall_read hset hread
    obtain ⟨⟨⟩, rfl⟩ := Prod.mk.inj (Except.ok.inj (hcall.symm.trans hop))
    rfl

theorem vlStreamCall_read_none : vlStreamCall stream (.read none n) = .ok (.read [] 0, stream) := by
  obtain ⟨read, _, _, _, _, _, _⟩ := stream
  cases read <;> rfl

theorem vlStreamCall_write {write : List UInt8 → ℕ → υ → Except Fault (ℕ × υ)}
    (hset : stream.write = some write) (hop : write bs n stream.userData = .ok (count, userData)) :
    ∃ total, vlStreamCall stream (.write (some bs) n) =
      .ok (.write count, { stream with userData := userData, totalWritten := total }) := by
  refine ⟨if count > 0 then (stream.totalWritten + count) % 2 ^ 64 else stream.totalWritten, ?_⟩
  simp only [vlStreamCall, vlStreamWrite, hset, hop, ok_bind, pure_eq_ok]

theorem vlStreamCall_write_none : vlStreamCall stream (.write none n) = .ok (.write 0, stream) := by
  obtain ⟨_, write, _, _, _, _, _⟩ := stream
  cases write <;> rfl

/-- A stream that cannot be written to takes no byte. -/
theorem vlStreamCall_write_unset (hset : stream.write = none) {inBuffer : Option (List UInt8)} :
    vlStreamCall stream (.write inBuffer n) = .ok (.write 0, stream) := by
  simp only [vlStreamCall, vlStreamWrite, hset, ok_bind, pure_eq_ok]

theorem vlStreamCall_seek {seek : ℤ → VlStreamOrigin → υ → Except Fault (Bool × υ)} {offset : ℤ}
    {origin : VlStreamOrigin} {result : Bool} (hset : stream.seek = some seek)
    (hop : seek offset origin stream.userData = .ok (result, userData)) :
    vlStreamCall stream (.seek offset origin) = .ok (.seek result, { stream with userData := userData }) := by
  simp only [vlStreamCall, vlStreamSeek, hset, hop, ok_bind, pure_eq_ok]

theorem vlStreamCall_tell {tell : υ → ℤ} (hset : stream.tell = some tell) :
    vlStreamCall stream .tell = .ok (.tell (tell stream.userData), stream) := by
  simp only [vlStreamCall, vlStreamTell, hset]

/-- **What a call can do**: it calls a function that is set, on an object that is there, or changes
nothing. -/
theorem vlStreamCall_cases {o : StreamCall} {r : StreamAnswer} {stream' : VlStream υ}
    (hop : vlStreamCall stream o = .ok (r, stream')) :
    (stream'.read = stream.read ∧ stream'.write = stream.write ∧ stream'.seek = stream.seek ∧
      stream'.tell = stream.tell) ∧
    ((∃ room n read bs count, o = .read (some room) n ∧ stream.read = some read ∧
        read room n stream.userData = .ok ((bs, count), stream'.userData)) ∨
      (∃ src n write count, o = .write (some src) n ∧ stream.write = some write ∧
        write src n stream.userData = .ok (count, stream'.userData)) ∨
      (∃ offset origin seek result, o = .seek offset origin ∧ stream.seek = some seek ∧
        seek offset origin stream.userData = .ok (result, stream'.userData)) ∨
      stream' = stream) := by
  cases o with
  | read outBuffer n =>
    cases outBuffer with
    | none =>
      obtain ⟨-, rfl⟩ := Prod.mk.inj (Except.ok.inj (vlStreamCall_read_none.symm.trans hop))
      exact ⟨⟨rfl, rfl, rfl, rfl⟩, Or.inr (Or.inr (Or.inr rfl))⟩
    | some room =>
      cases hset : stream.read with
      | none =>
        simp only [vlStreamCall, vlStreamRead, hset, ok_bind, pure_eq_ok] at hop
        obtain ⟨-, rfl⟩ := Prod.mk.inj (Except.ok.inj hop)
        exact ⟨⟨hset, rfl, rfl, rfl⟩, Or.inr (Or.inr (Or.inr rfl))⟩
      | some read =>
        cases hread : read room n stream.userData with
        | error e =>
          simp only [vlStreamCall, vlStreamRead, hset, hread, error_bind] at hop
          cases hop
        | ok q =>
          obtain ⟨total, hcall⟩ := vlStreamCall_read hset hread
          obtain ⟨rfl, rfl⟩ := Prod.mk.inj (Except.ok.inj (hcall.symm.trans hop))
          exact ⟨⟨hset, rfl, rfl, rfl⟩, Or.inl ⟨room, n, read, _, _, rfl, rfl, hread⟩⟩
  | write inBuffer n =>
    cases inBuffer with
    | none =>
      obtain ⟨-, rfl⟩ := Prod.mk.inj (Except.ok.inj (vlStreamCall_write_none.symm.trans hop))
      exact ⟨⟨rfl, rfl, rfl, rfl⟩, Or.inr (Or.inr (Or.inr rfl))⟩
    | some src =>
      cases hset : stream.write with
      | none =>
        obtain ⟨-, rfl⟩ := Prod.mk.inj (Except.ok.inj ((vlStreamCall_write_unset hset).symm.trans hop))
        exact ⟨⟨rfl, hset, rfl, rfl⟩, Or.inr (Or.inr (Or.inr rfl))⟩
      | some write =>
        cases hwrite : write src n stream.userData with
        | error e =>
          simp only [vlStreamCall, vlStreamWrite, hset, hwrite, error_bind] at hop
          cases hop
        | ok q =>
          obtain ⟨total, hcall⟩ := vlStreamCall_write hset hwrite
          obtain ⟨rfl, rfl⟩ := Prod.mk.inj (Except.ok.inj (hcall.symm.trans hop))
          exact ⟨⟨rfl, hset, rfl, rfl⟩, Or.inr (Or.inl ⟨src, n, write, _, rfl, rfl, hwrite⟩)⟩
  | seek offset origin =>
    cases hset : stream.seek with
    | none =>
      simp only [vlStreamCall, vlStreamSeek, hset, ok_bind, pure_eq_ok] at hop
      obtain ⟨-, rfl⟩ := Prod.mk.inj (Except.ok.inj hop)
      exact ⟨⟨rfl, rfl, hset, rfl⟩, Or.inr (Or.inr (Or.inr rfl))⟩
    | some seek =>
      cases hseek : seek offset origin stream.userData with
      | error e =>
        simp only [vlStreamCall, vlStreamSeek, hset, hseek, error_bind] at hop
        cases hop
      | ok q =>
        obtain ⟨rfl, rfl⟩ := Prod.mk.inj (Except.ok.inj ((vlStreamCall_seek hset hseek).symm.trans hop))
        exact ⟨⟨rfl, rfl, hset, rfl⟩,
          Or.inr (Or.inr (Or.inl ⟨offset, origin, seek, _, rfl, rfl, hseek⟩))⟩
  | tell =>
    obtain ⟨-, rfl⟩ := Prod.mk.inj (Except.ok.inj hop)
    exact ⟨⟨rfl, rfl, rfl, rfl⟩, Or.inr (Or.inr (Or.inr rfl))⟩

end Calls

/-- The caller's objects are as long as it says, and its numbers are of their types. -/
def StreamCall.WellFormed : StreamCall → Prop
  | .read outBuffer outLength => outLength < 2 ^ 64 ∧ ∀ room ∈ outBuffer, outLength ≤ room
  | .write inBuffer inLength => inLength < 2 ^ 64 ∧ ∀ src ∈ inBuffer, inLength ≤ src.length
  | .seek offset _ => FitsInt64 offset
  | .tell => True

/-- Where a seek is to go, when `base` is where an origin stands. -/
def StreamCall.target (base : VlStreamOrigin → ℕ) : StreamCall → ℤ
  | .seek offset origin => base origin + offset
  | _ => 0

instance (o : StreamCall) : Decidable o.WellFormed :=
  match o with
  | .read _ _ => inferInstanceAs (Decidable (_ ∧ _))
  | .write _ _ => inferInstanceAs (Decidable (_ ∧ _))
  | .seek _ _ => inferInstanceAs (Decidable (FitsInt64 _))
  | .tell => .isTrue trivial

end VeritableLasagna
