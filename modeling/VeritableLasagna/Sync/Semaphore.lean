import Mathlib

/-!
# Semaphores

A `vl_semaphore` is a counting semaphore. `vlSemaphoreWait` with a timeout of zero, the only one the
repository uses, is documented to return at once when the count is zero; the two back ends disagree.
The pthread back end polls, as documented. The win32 back end turns a timeout of zero into
`INFINITE` and blocks.
-/

namespace VeritableLasagna

/-- The threading back end that `vl_libconfig.h` selects. -/
inductive ThreadsBackend
  /-- `VL_THREADS_PTHREAD` -/
  | pthread
  /-- `VL_THREADS_WIN32` -/
  | win32
  deriving DecidableEq

/-- Whether `vlSemaphoreWait` with timeout zero returns, given the count it finds. -/
def vlSemaphoreWaitReturns : ThreadsBackend → ℕ → Bool
  | .pthread, _ => true
  | .win32, count => 0 < count

/-- The count after a wait that returns: it stays zero when the wait was in vain. -/
def vlSemaphoreWait (count : ℕ) : ℕ := count - 1

/-- A posted semaphore is never waited for in vain. -/
theorem vlSemaphoreWaitReturns_of_pos (backend : ThreadsBackend) {count : ℕ} (h : 0 < count) :
    vlSemaphoreWaitReturns backend count = true := by
  cases backend with
  | pthread => rfl
  | win32 => exact decide_eq_true h

end VeritableLasagna
