import VeritableLasagna.Lib.Machine
import VeritableLasagna.Lib.Threads

/-!
# The reference count of a stream

`vl_stream` counts its references in one atomic integer. `vlStreamRetain` is a single atomic
addition; `vlStreamDelete` loads the counter, runs a compare-and-swap loop, loads the counter again
and closes and frees the stream when it finds zero. Here every atomic access is a step of its own,
any thread may take the next step, and a thread uses only references it holds.

The loop of `vlStreamDelete` goes on while the compare-and-swap **succeeds** and ends when it
fails. A delete nobody interferes with decrements once and then fails on its own new value. A delete
that meets contention can lose its decrement, decrement twice, or take the zero of another delete
for its own; `DeletePc.safe` says in which states the next access of a delete does none of this, and
`vlStream_sound` shows the reference counting sound on every run of such steps.
-/

namespace VeritableLasagna

/-- Where a thread stands in `vlStreamDelete`. -/
inductive DeletePc
  /-- not in the function -/
  | idle
  /-- before the load of the counter -/
  | load
  /-- before the first compare-and-swap, which expects `old` -/
  | cas (old : ℕ)
  /-- before another compare-and-swap, after a successful one that left `left` -/
  | recas (old left : ℕ)
  /-- before the second load, after a successful compare-and-swap that left `left`, or none -/
  | reload (left : Option ℕ)
  /-- before the close callback -/
  | close (left : Option ℕ)
  /-- before the free -/
  | free
  deriving DecidableEq

/-- A stream, its threads, and what the close callback was called with: the value left by the
decrement of the delete that called it. -/
structure StreamState (T : Type) where
  refCount : ℕ
  held : T → ℕ
  pc : T → DeletePc
  closes : List (Option ℕ)
  frees : ℕ

/-- The operations: calls, and the next atomic access of a delete. -/
inductive StreamOp (T : Type)
  | retain (t : T)
  | pass (t u : T)
  | delete (t : T)
  | advance (t : T)

variable {T : Type} [DecidableEq T] {s s' : StreamState T} {t u : T}

namespace StreamState

/-- The state after `vlStreamNew`, called by `creator`. -/
def init (creator : T) : StreamState T where
  refCount := 1
  held := Function.update (fun _ => 0) creator 1
  pc := fun _ => .idle
  closes := []
  frees := 0

def setPc (s : StreamState T) (t : T) (pc : DeletePc) : StreamState T :=
  { s with pc := Function.update s.pc t pc }

def setHeld (s : StreamState T) (t : T) (n : ℕ) : StreamState T :=
  { s with held := Function.update s.held t n }

/-- An access to the stream, which must not be freed. -/
def access (s : StreamState T) : Except Fault Unit :=
  if s.frees = 0 then .ok () else .error .nullDeref

end StreamState

/-- The next atomic access of `vlStreamDelete`. -/
def vlStreamDeleteAdvance (s : StreamState T) (t : T) : Except Fault (StreamState T) :=
  match s.pc t with
  | .idle => .ok s
  | .load => do
    s.access
    return s.setPc t (.cas s.refCount)
  | .cas old => do
    s.access
    if s.refCount = old then
      let left := (old + (2 ^ 64 - 1)) % 2 ^ 64
      return { s.setPc t (.recas old left) with refCount := left }
    else return s.setPc t (.reload none)
  | .recas old left => do
    s.access
    if s.refCount = old then
      return { s.setPc t (.recas old left) with refCount := (old + (2 ^ 64 - 1)) % 2 ^ 64 }
    else return s.setPc t (.reload (some left))
  | .reload left => do
    s.access
    if s.refCount ≠ 0 then return s.setPc t .idle else return s.setPc t (.close left)
  | .close left => do
    s.access
    return { s.setPc t .free with closes := s.closes ++ [left] }
  | .free => do
    s.access
    return { s.setPc t .idle with frees := s.frees + 1 }

/-- One step. Retaining takes a reference for the thread itself; passing hands one over. -/
def streamStep (s : StreamState T) : StreamOp T → Except Fault (StreamState T)
  | .retain t => do
    s.access
    return { s.setHeld t (s.held t + 1) with refCount := (s.refCount + 1) % 2 ^ 64 }
  | .pass t u =>
    let s := s.setHeld t (s.held t - 1)
    .ok (s.setHeld u (s.held u + 1))
  | .delete t => .ok ((s.setHeld t (s.held t - 1)).setPc t .load)
  | .advance t => vlStreamDeleteAdvance s t

/-- The stream under any interleaving: a thread calls only when it is idle, and only with a
reference it holds. -/
def streamMachine (T : Type) [DecidableEq T] : Machine (StreamState T) (StreamOp T) where
  guard s
    | .retain t | .pass t _ | .delete t => s.pc t = .idle ∧ 0 < s.held t
    | .advance t => s.pc t ≠ .idle
  step := streamStep

instance (s : StreamState T) : ∀ o, Decidable ((streamMachine T).guard s o)
  | .retain t | .pass t _ | .delete t => inferInstanceAs (Decidable (s.pc t = .idle ∧ 0 < s.held t))
  | .advance t => inferInstanceAs (Decidable (s.pc t ≠ .idle))

/-- The next access of a delete does what the delete is for: the first compare-and-swap finds the
value loaded before, the next one does not, and a zero found at the end is its own. -/
def DeletePc.safe (refCount : ℕ) : DeletePc → Bool
  | .cas old => refCount = old
  | .recas old _ => refCount ≠ old
  | .reload left => refCount = 0 → left = some 0
  | .idle | .load | .close _ | .free => true

/-- Whether an operation keeps the counting sound: a retain does not wrap the counter, and an access
of a delete is safe and does not follow the free. -/
def StreamOp.safe (s : StreamState T) : StreamOp T → Bool
  | .retain _ => s.refCount + 1 < 2 ^ 64
  | .advance t => s.frees = 0 ∧ (s.pc t).safe s.refCount
  | .pass _ _ | .delete _ => true

/-- The machine restricted to safe operations. -/
def safeStreamMachine (T : Type) [DecidableEq T] : Machine (StreamState T) (StreamOp T) where
  guard s o := (streamMachine T).guard s o ∧ o.safe s = true
  step := streamStep

instance (s : StreamState T) (o : StreamOp T) : Decidable ((safeStreamMachine T).guard s o) :=
  inferInstanceAs (Decidable ((streamMachine T).guard s o ∧ o.safe s = true))

/-! ### Soundness -/

/-- A delete that has not dropped its reference yet. -/
def DeletePc.pending : DeletePc → ℕ
  | .load | .cas _ => 1
  | .idle | .recas _ _ | .reload _ | .close _ | .free => 0

/-- A delete that dropped the last reference. -/
def DeletePc.last : DeletePc → Bool
  | .recas _ left => left = 0
  | .reload left => left = some 0
  | .close _ | .free => true
  | .idle | .load | .cas _ => false

/-- The references of a thread: those it holds and the one its delete has not dropped. -/
def StreamState.refs (s : StreamState T) (t : T) : ℕ := s.held t + (s.pc t).pending

/-- **Sound reference counting**: the stream is closed and freed at most once, by the delete that
dropped the last reference and never while a reference is left; and it is closed and freed once
every reference is dropped and every delete returned. -/
structure StreamState.Sound (s : StreamState T) : Prop where
  close_once : s.closes = [] ∨ s.closes = [some 0]
  free_once : s.frees ≤ s.closes.length
  close_last : ∀ t left, s.pc t = .close left → left = some 0
  unreferenced : s.closes ≠ [] → ∀ t, s.refs t = 0
  reclaimed : (∀ t, s.held t = 0 ∧ s.pc t = .idle) → s.closes = [some 0] ∧ s.frees = 1

/-- What the local variables of a delete say about each other. -/
def DeletePc.Shape : DeletePc → Prop
  | .recas old left => left + 1 = old
  | .reload left => left.isSome
  | .close left => left = some 0
  | .idle | .load | .cas _ | .free => True

variable [Fintype T]

/-- The invariant of safe runs: the counter counts the references, and once it is zero exactly one
delete is on its way to close and free the stream, or has done so. -/
structure StreamState.Inv (s : StreamState T) : Prop where
  count : s.refCount = ∑ t, s.refs t
  bound : s.refCount < 2 ^ 64
  alive : 0 < s.refCount → s.closes = [] ∧ s.frees = 0 ∧ ∀ t, (s.pc t).last = false
  unique : ∀ t u, (s.pc t).last = true → (s.pc u).last = true → t = u
  dead : s.refCount = 0 → s.frees = 0 → ∃ t, (s.pc t).last = true ∧
    s.closes = if s.pc t = .free then [some 0] else []
  freed : s.frees ≠ 0 → s.frees = 1 ∧ s.closes = [some 0] ∧ ∀ t, (s.pc t).last = false
  shape : ∀ t, (s.pc t).Shape

namespace StreamState.Inv

section

omit [DecidableEq T]

theorem sound (h : s.Inv) : s.Sound := by
  have hcloses : s.closes = [] ∨ s.closes = [some 0] := by
    rcases Nat.eq_zero_or_pos s.refCount with h0 | hpos
    · by_cases hf : s.frees = 0
      · obtain ⟨t, -, ht⟩ := h.dead h0 hf
        split_ifs at ht
        · exact Or.inr ht
        · exact Or.inl ht
      · exact Or.inr (h.freed hf).2.1
    · exact Or.inl (h.alive hpos).1
  refine ⟨hcloses, ?_, fun t left ht => ?_, fun hne => ?_, fun hidle => ?_⟩
  · by_cases hf : s.frees = 0
    · omega
    · obtain ⟨h1, h2, -⟩ := h.freed hf
      rw [h1, h2, List.length_singleton]
  · have := h.shape t
    rwa [ht] at this
  · rcases Nat.eq_zero_or_pos s.refCount with h0 | hpos
    · exact total_eq_zero.mp (h.count.symm.trans h0)
    · exact absurd (h.alive hpos).1 hne
  · have h0 : s.refCount = 0 := by
      rw [h.count, total_eq_zero]
      intro t
      simp [refs, hidle t, DeletePc.pending]
    have hf : s.frees ≠ 0 := by
      intro hf
      obtain ⟨t, ht, -⟩ := h.dead h0 hf
      simp [(hidle t).2, DeletePc.last] at ht
    exact ⟨(h.freed hf).2.1, (h.freed hf).1⟩

/-- A reference of a thread keeps the stream alive. -/
theorem pos (h : s.Inv) (ht : 0 < s.refs t) : 0 < s.refCount := by
  rw [h.count]
  exact lt_of_lt_of_le ht (le_total s.refs t)

/-- A step that changes neither the counter, the references, nor who has dropped the last one. -/
theorem quiet (h : s.Inv) (hcount : s'.refCount = s.refCount)
    (hrefs : ∑ u, s'.refs u = ∑ u, s.refs u)
    (hcloses : s'.closes = s.closes) (hfrees : s'.frees = s.frees)
    (hlast : ∀ u, (s'.pc u).last = (s.pc u).last)
    (hfree : ∀ u, s'.pc u = .free ↔ s.pc u = .free) (hshape : ∀ u, (s'.pc u).Shape) : s'.Inv where
  count := by rw [hcount, hrefs, h.count]
  bound := by rw [hcount]; exact h.bound
  alive := by simpa only [hcount, hcloses, hfrees, hlast] using h.alive
  unique := by simpa only [hlast] using h.unique
  dead := by simpa only [hcount, hcloses, hfrees, hlast, hfree] using h.dead
  freed := by simpa only [hcloses, hfrees, hlast] using h.freed
  shape := hshape

end

/-- A retain adds a reference to the counter and to its thread. -/
theorem retain (h : s.Inv) (hheld : 0 < s.held t) (hwrap : s.refCount + 1 < 2 ^ 64) :
    ({ s.setHeld t (s.held t + 1) with refCount := (s.refCount + 1) % 2 ^ 64 } : StreamState T).Inv
    where
  count := by
    have hsum := sum_change (f := s.refs) (g := (s.setHeld t (s.held t + 1)).refs) (t := t)
      fun u hu => by simp [refs, setHeld, hu]
    have ht : (s.setHeld t (s.held t + 1)).refs t = s.refs t + 1 := by
      simp [refs, setHeld]
      omega
    have hcount := h.count
    change (s.refCount + 1) % 2 ^ 64 = ∑ u, (s.setHeld t (s.held t + 1)).refs u
    rw [Nat.mod_eq_of_lt hwrap]
    omega
  bound := by
    change (s.refCount + 1) % 2 ^ 64 < 2 ^ 64
    omega
  alive _ := h.alive (h.pos (t := t) (by rw [refs]; omega))
  unique := h.unique
  dead h0 := by
    change (s.refCount + 1) % 2 ^ 64 = 0 at h0
    omega
  freed := h.freed
  shape := h.shape

/-- A successful compare-and-swap of a pending delete drops its reference. -/
theorem drop (h : s.Inv) {old : ℕ} (hpc : s.pc t = .cas old) (hold : s.refCount = old) :
    ({ s.setPc t (.recas old (old - 1)) with refCount := old - 1 } : StreamState T).Inv := by
  have hpos : 0 < s.refCount := h.pos (t := t) (by simp [refs, hpc, DeletePc.pending])
  obtain ⟨hcloses, hfrees, hlast⟩ := h.alive hpos
  have hbound := h.bound
  have hother : ∀ u, u ≠ t → ((s.setPc t (.recas old (old - 1))).pc u).last = false := by
    intro u hu
    simp [setPc, hu, hlast u]
  have hself : ((s.setPc t (.recas old (old - 1))).pc t).last = decide (old - 1 = 0) := by
    simp [setPc, DeletePc.last]
  refine ⟨?_, ?_, fun hpos' => ⟨hcloses, hfrees, fun u => ?_⟩, fun u v hu hv => ?_,
    fun h0 _ => ⟨t, ?_, ?_⟩, fun hne => absurd hfrees hne, fun u => ?_⟩
  · have hsum := sum_change (f := s.refs) (g := (s.setPc t (.recas old (old - 1))).refs) (t := t)
      fun u hu => by simp [refs, setPc, hu]
    have ht : (s.setPc t (.recas old (old - 1))).refs t + 1 = s.refs t := by
      simp [refs, setPc, hpc, DeletePc.pending]
    have hcount := h.count
    change old - 1 = ∑ u, (s.setPc t (.recas old (old - 1))).refs u
    omega
  · change old - 1 < 2 ^ 64
    omega
  · change 0 < old - 1 at hpos'
    by_cases hu : u = t
    · rw [hu, hself, decide_eq_false_iff_not]
      omega
    · exact hother u hu
  · by_contra hne
    rcases ne_or_eq u t with hut | rfl
    · rw [hother u hut] at hu
      cases hu
    · rw [hother v (Ne.symm hne)] at hv
      cases hv
  · rw [hself, decide_eq_true_iff]
    exact h0
  · simpa [setPc] using hcloses
  · by_cases hu : u = t
    · simp only [setPc, hu, Function.update_self, DeletePc.Shape]
      omega
    · simpa [setPc, hu] using h.shape u

/-- The close callback runs in the one delete that dropped the last reference. -/
theorem close (h : s.Inv) {left : Option ℕ} (hpc : s.pc t = .close left) (hfrees : s.frees = 0) :
    ({ s.setPc t .free with closes := s.closes ++ [left] } : StreamState T).Inv := by
  have hlast : (s.pc t).last = true := by simp [hpc, DeletePc.last]
  have h0 : s.refCount = 0 := by
    by_contra hne
    rw [(h.alive (Nat.pos_of_ne_zero hne)).2.2 t] at hlast
    cases hlast
  obtain rfl : left = some 0 := by simpa [hpc, DeletePc.Shape] using h.shape t
  have hcloses : s.closes = [] := by
    obtain ⟨u, hu, hcloses⟩ := h.dead h0 hfrees
    obtain rfl := h.unique u t hu hlast
    simpa [hpc] using hcloses
  have hlasts : ∀ u, ((s.setPc t .free).pc u).last = (s.pc u).last := by
    intro u
    by_cases hu : u = t
    · rw [hu, hlast]
      simp [setPc, DeletePc.last]
    · simp [setPc, hu]
  refine ⟨?_, h.bound, fun hpos => absurd h0 hpos.ne', fun u v hu hv => ?_,
    fun _ _ => ⟨t, ?_, ?_⟩, fun hne => absurd hfrees hne, fun u => ?_⟩
  · change s.refCount = ∑ u, (s.setPc t .free).refs u
    rw [h.count]
    refine Finset.sum_congr rfl fun u _ => ?_
    by_cases hu : u = t
    · simp [refs, setPc, hu, hpc, DeletePc.pending]
    · simp [refs, setPc, hu]
  · exact h.unique u v ((hlasts u).symm.trans hu) ((hlasts v).symm.trans hv)
  · exact (hlasts t).trans hlast
  · simp [setPc, hcloses]
  · by_cases hu : u = t
    · simp [setPc, hu, DeletePc.Shape]
    · simpa [setPc, hu] using h.shape u

/-- The free follows the close callback in the same delete. -/
theorem free (h : s.Inv) (hpc : s.pc t = .free) (hfrees : s.frees = 0) :
    ({ s.setPc t .idle with frees := s.frees + 1 } : StreamState T).Inv := by
  have hlast : (s.pc t).last = true := by simp [hpc, DeletePc.last]
  have h0 : s.refCount = 0 := by
    by_contra hne
    rw [(h.alive (Nat.pos_of_ne_zero hne)).2.2 t] at hlast
    cases hlast
  have hcloses : s.closes = [some 0] := by
    obtain ⟨u, hu, hcloses⟩ := h.dead h0 hfrees
    obtain rfl := h.unique u t hu hlast
    simpa [hpc] using hcloses
  have hlasts : ∀ u, ((s.setPc t .idle).pc u).last = false := by
    intro u
    by_cases hu : u = t
    · simp [setPc, hu, DeletePc.last]
    · have : (s.pc u).last ≠ true := fun hu' => hu (h.unique u t hu' hlast)
      simpa [setPc, hu] using this
  refine ⟨?_, h.bound, fun hpos => absurd h0 hpos.ne', fun u v hu _ => ?_, fun _ hf => ?_,
    fun _ => ⟨?_, hcloses, hlasts⟩, fun u => ?_⟩
  · change s.refCount = ∑ u, (s.setPc t .idle).refs u
    rw [h.count]
    refine Finset.sum_congr rfl fun u _ => ?_
    by_cases hu : u = t
    · simp [refs, setPc, hu, hpc, DeletePc.pending]
    · simp [refs, setPc, hu]
  · cases (hlasts u).symm.trans hu
  · cases hf
  · change s.frees + 1 = 1
    rw [hfrees]
  · by_cases hu : u = t
    · simp [setPc, hu, DeletePc.Shape]
    · simpa [setPc, hu] using h.shape u

/-- Where a thread stands may change as long as its references and its part in the end of the
stream stay the same. -/
theorem setPc (h : s.Inv) {pc : DeletePc} (hpending : pc.pending = (s.pc t).pending)
    (hlast : pc.last = (s.pc t).last) (hfree : pc = .free ↔ s.pc t = .free) (hshape : pc.Shape) :
    (s.setPc t pc).Inv := by
  refine h.quiet rfl (Finset.sum_congr rfl fun u _ => ?_) rfl rfl ?_ ?_ ?_
  · by_cases hu : u = t
    · simp [refs, StreamState.setPc, hu, hpending]
    · simp [refs, StreamState.setPc, hu]
  all_goals
    intro u
    by_cases hu : u = t
    · simpa [StreamState.setPc, hu]
    · simp [StreamState.setPc, hu, h.shape u]

/-- **Step rule of the delete**: a safe access keeps the invariant. -/
theorem advance (h : s.Inv) (hfrees : s.frees = 0) (hsafe : (s.pc t).safe s.refCount = true)
    (hstep : vlStreamDeleteAdvance s t = .ok s') : s'.Inv := by
  have haccess : s.access = .ok () := by simp [access, hfrees]
  cases hpc : s.pc t with
  | idle =>
    simp only [vlStreamDeleteAdvance, hpc] at hstep
    obtain rfl := Except.ok.inj hstep
    exact h
  | load =>
    simp only [vlStreamDeleteAdvance, hpc, haccess, ok_bind] at hstep
    obtain rfl := Except.ok.inj hstep
    exact h.setPc (by simp [hpc, DeletePc.pending]) (by simp [hpc, DeletePc.last])
      (by simp [hpc]) trivial
  | cas old =>
    have hold : s.refCount = old := by simpa [hpc, DeletePc.safe] using hsafe
    have hpos : 0 < s.refCount := h.pos (t := t) (by simp [refs, hpc, DeletePc.pending])
    have hbound := h.bound
    have hleft : (old + (2 ^ 64 - 1)) % 2 ^ 64 = old - 1 := by omega
    simp only [vlStreamDeleteAdvance, hpc, haccess, ok_bind, hold, if_true, hleft] at hstep
    obtain rfl := Except.ok.inj hstep
    exact h.drop hpc hold
  | recas old left =>
    have hold : s.refCount ≠ old := by simpa [hpc, DeletePc.safe] using hsafe
    simp only [vlStreamDeleteAdvance, hpc, haccess, ok_bind, hold, if_false] at hstep
    obtain rfl := Except.ok.inj hstep
    exact h.setPc (by simp [hpc, DeletePc.pending]) (by simp [hpc, DeletePc.last])
      (by simp [hpc]) rfl
  | reload left =>
    have hown : s.refCount = 0 → left = some 0 := by
      simpa [hpc, DeletePc.safe, imp_iff_not_or] using hsafe
    simp only [vlStreamDeleteAdvance, hpc, haccess, ok_bind] at hstep
    split_ifs at hstep with h0
    · obtain rfl := Except.ok.inj hstep
      have hlast := (h.alive (Nat.pos_of_ne_zero h0)).2.2 t
      exact h.setPc (by simp [hpc, DeletePc.pending]) hlast.symm (by simp [hpc]) trivial
    · obtain rfl := Except.ok.inj hstep
      have hown := hown (not_not.mp h0)
      exact h.setPc (by simp [hpc, DeletePc.pending]) (by simp [hpc, DeletePc.last, hown])
        (by simp [hpc]) hown
  | close left =>
    simp only [vlStreamDeleteAdvance, hpc, haccess, ok_bind] at hstep
    obtain rfl := Except.ok.inj hstep
    exact h.close hpc hfrees
  | free =>
    simp only [vlStreamDeleteAdvance, hpc, haccess, ok_bind] at hstep
    obtain rfl := Except.ok.inj hstep
    exact h.free hpc hfrees

end StreamState.Inv

/-- **Step rule**: a safe step keeps the invariant. -/
theorem streamStep_inv {o : StreamOp T} (h : s.Inv) (hguard : (safeStreamMachine T).guard s o)
    (hstep : (safeStreamMachine T).step s o = .ok s') : s'.Inv := by
  obtain ⟨hguard, hsafe⟩ := hguard
  cases o with
  | retain t =>
    obtain ⟨-, hheld⟩ := hguard
    have hpos : 0 < s.refCount := h.pos (t := t) (by rw [StreamState.refs]; omega)
    have haccess : s.access = .ok () := by simp [StreamState.access, (h.alive hpos).2.1]
    simp only [safeStreamMachine, streamStep, haccess, ok_bind] at hstep
    obtain rfl := Except.ok.inj hstep
    exact h.retain hheld (by simpa [StreamOp.safe] using hsafe)
  | pass t u =>
    obtain ⟨hidle, hheld⟩ := hguard
    obtain rfl := Except.ok.inj hstep
    refine h.quiet rfl ?_ rfl rfl (fun _ => rfl) (fun _ => Iff.rfl) h.shape
    -- The reference leaves one thread and reaches the other.
    have hleave := sum_change (f := s.refs) (g := (s.setHeld t (s.held t - 1)).refs) (t := t)
      fun v hv => by simp [StreamState.refs, StreamState.setHeld, hv]
    have hreach := sum_change (f := (s.setHeld t (s.held t - 1)).refs)
      (g := ((s.setHeld t (s.held t - 1)).setHeld u ((s.setHeld t (s.held t - 1)).held u + 1)).refs)
      (t := u) fun v hv => by simp [StreamState.refs, StreamState.setHeld, hv]
    have ht : (s.setHeld t (s.held t - 1)).refs t + 1 = s.refs t := by
      simp [StreamState.refs, StreamState.setHeld]
      omega
    have hu : ((s.setHeld t (s.held t - 1)).setHeld u ((s.setHeld t (s.held t - 1)).held u + 1)).refs u
        = (s.setHeld t (s.held t - 1)).refs u + 1 := by
      simp [StreamState.refs, StreamState.setHeld]
      omega
    omega
  | delete t =>
    obtain ⟨hidle, hheld⟩ := hguard
    obtain rfl := Except.ok.inj hstep
    refine h.quiet rfl (Finset.sum_congr rfl fun u _ => ?_) rfl rfl ?_ ?_ ?_
    · by_cases hu : u = t
      · simp only [StreamState.refs, StreamState.setPc, StreamState.setHeld, hu, hidle,
          Function.update_self, DeletePc.pending]
        omega
      · simp [StreamState.refs, StreamState.setPc, StreamState.setHeld, hu]
    all_goals
      intro u
      by_cases hu : u = t
      · simp [StreamState.setPc, hu, hidle, DeletePc.last, DeletePc.Shape]
      · simp [StreamState.setPc, StreamState.setHeld, hu, h.shape u]
  | advance t =>
    obtain ⟨hfrees, hpc⟩ : s.frees = 0 ∧ (s.pc t).safe s.refCount = true := by
      simpa [StreamOp.safe] using hsafe
    exact h.advance hfrees hpc hstep

theorem streamInit_inv (creator : T) : (StreamState.init creator).Inv where
  count := by
    have hrefs : ∀ t, (StreamState.init creator).refs t = if t = creator then 1 else 0 := by
      intro t
      by_cases ht : t = creator
      · simp [StreamState.refs, StreamState.init, ht, DeletePc.pending]
      · simp [StreamState.refs, StreamState.init, ht, DeletePc.pending]
    rw [Finset.sum_congr rfl fun t _ => hrefs t]
    simp [StreamState.init]
  bound := by simp [StreamState.init]
  alive _ := ⟨rfl, rfl, fun _ => rfl⟩
  unique _ _ ht := by cases ht
  dead h0 := by cases h0
  freed hne := absurd rfl hne
  shape _ := trivial

/-- **Sound reference counting on every safe run**: in every state that safe steps of any number of
threads reach, the stream is closed and freed at most once, by the delete that dropped the last
reference, never while a reference is held, and exactly once when all references are dropped. -/
theorem vlStream_sound (creator : T) {os : List (StreamOp T)}
    (hrun : (safeStreamMachine T).Run (StreamState.init creator) os s) : s.Sound :=
  (hrun.invariant (fun _ _ _ => streamStep_inv) (streamInit_inv creator)).sound

local instance two_neZero : NeZero 2 := ⟨two_ne_zero⟩

/-- Two threads drop a reference each, one after the other. -/
def twoDeletes : List (StreamOp (Fin 2)) :=
  [[.retain 0, .pass 0 1, .delete 0], List.replicate 4 (.advance 0), [.delete 1],
    List.replicate 6 (.advance 1)].flatten

/-- The second delete closes and frees the stream. -/
theorem vlStream_sound_two_deletes :
    ∃ s, (safeStreamMachine (Fin 2)).Run (.init 0) twoDeletes s ∧ s.Sound ∧ s.frees = 1 := by
  have hexec : (((safeStreamMachine (Fin 2)).exec (.init 0) twoDeletes).any
      fun s => s.frees = 1) = true := by decide +kernel
  obtain ⟨s, hrun, hfrees⟩ := Machine.exists_run_of_exec hexec
  exact ⟨s, hrun, vlStream_sound 0 hrun, of_decide_eq_true hfrees⟩

/-- Two deletes that meet: the second loads the counter before the first decrements it, its
compare-and-swap fails, and its loop ends there. -/
def meetingDeletes : List (StreamOp (Fin 2)) :=
  [.retain 0, .pass 0 1, .delete 0, .advance 0, .delete 1, .advance 1, .advance 0, .advance 1,
    .advance 1, .advance 0, .advance 0]

/-- Every reference is dropped and every delete has returned, but the stream is neither closed nor
freed. -/
theorem vlStream_leak :
    ∃ s, (streamMachine (Fin 2)).Run (.init 0) meetingDeletes s ∧ ¬ s.Sound := by
  have hexec : (((streamMachine (Fin 2)).exec (.init 0) meetingDeletes).any
      fun s => (∀ t, s.held t = 0 ∧ s.pc t = .idle) ∧ s.frees = 0) = true := by decide +kernel
  obtain ⟨s, hrun, htest⟩ := Machine.exists_run_of_exec hexec
  obtain ⟨hidle, hfrees⟩ := of_decide_eq_true htest
  refine ⟨s, hrun, fun hsound => ?_⟩
  rw [(hsound.reclaimed hidle).2] at hfrees
  cases hfrees

end VeritableLasagna
