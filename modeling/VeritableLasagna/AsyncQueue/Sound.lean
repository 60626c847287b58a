import VeritableLasagna.AsyncQueue.Basic
import VeritableLasagna.Lib.Chain

/-!
# The nodes of the asynchronous queue

A node that is given back is handed out again while other threads still have its address, and its `next`
starts over with tag zero. So a producer that has loaded `tail` and was held up may find the `next` of a
node that another producer has just initialised for its own push, and link its own node there. The nodes
in use therefore lie in several chains: the queue, from `head` on, and one behind the node of each push
that has not linked it yet (`AsyncQueue.Sound`). No chain can get behind itself, because the nodes of such
a chain were handed out in the reverse of their order in it: a node is linked behind one that was handed
out after its producer had loaded the address (`AsyncQueue.Seen`).

This is so in every run in which one thread pops at a time and the compare-and-swap by which a pop helps
`tail` on does not fail for no reason (`AsyncQueueOp.served`): without its help, `tail` would stay on a
node that is given back.
-/

namespace VeritableLasagna

variable {T V : Type}

namespace AsyncQueuePc

/-- The former dummy that is not given back yet. -/
def retired : AsyncQueuePc V → Option ℕ
  | .copy old _ | .giveBack old => some old
  | _ => none

/-- A push has initialised its node, and not linked it. -/
def cleared : AsyncQueuePc V → Bool
  | .pushTail _ | .pushNext _ _ | .link _ _ _ | .catchUp _ _ _ => true
  | _ => false

end AsyncQueuePc

namespace AsyncQueue

variable {s s' : AsyncQueue T V} {queue queue' : List ℕ} {own own' : T → List ℕ} {t u : T}

/-- The links between the nodes. -/
def links (s : AsyncQueue T V) (n : ℕ) : ℕ := (s.next n).ptr

/-- The nodes behind that of a push. -/
def Private (s : AsyncQueue T V) : AsyncQueuePc V → List ℕ → Prop
  | .fill node _, l | .clear node, l => l = [node]
  | .pushTail node, l | .pushNext node _, l | .link node _ _, l | .catchUp node _ _, l =>
    node ≠ 0 ∧ Chain s.links node l
  | _, l => l = []

/-- **A loaded `tail`**, of a push that had its node before. If the node that it points to was handed out
again, then after the load; and a null behind it is the end of a chain. -/
def Seen (s : AsyncQueue T V) (queue : List ℕ) (own : T → List ℕ) (node : ℕ) (tail : TaggedPtr) : Prop :=
  ∃ k, s.stamp node < k ∧ k ≤ s.clock ∧ (∀ t, tail.ptr ∈ own t → k ≤ s.stamp tail.ptr) ∧
    (s.links tail.ptr = 0 → tail.ptr ∈ queue ∨ ∃ t, tail.ptr ∈ own t ∧ (s.pc t).cleared)

/-- **The node to swing `tail` to**: unless `tail` has changed, it is the next one. -/
def Ahead (s : AsyncQueue T V) (tail : TaggedPtr) (node : ℕ) : Prop :=
  tail.tag ≤ s.tail.tag ∧ (s.tail = tail → s.links tail.ptr = node ∧ node ≠ 0)

/-- **A `tail` loaded by a pop**: when `tail` is not at the dummy, it does not return there. -/
def Left (s : AsyncQueue T V) (head tail : TaggedPtr) : Prop :=
  s.head = head ∧ (s.tail = tail ∨ s.tail.ptr ≠ head.ptr)

/-- What holds where a thread stands. -/
def Ok (s : AsyncQueue T V) (queue : List ℕ) (own : T → List ℕ) : AsyncQueuePc V → Prop
  | .pushNext node tail => s.Seen queue own node tail ∧ tail.tag ≤ s.tail.tag
  | .link node tail next => s.Seen queue own node tail ∧ tail.tag ≤ s.tail.tag ∧ next.ptr = 0
  | .swing node tail => s.Ahead tail node
  | .catchUp _ tail next => s.Ahead tail next.ptr
  | .popTail head => s.head = head
  | .popNext head tail => s.Left head tail ∧ tail.tag ≤ s.tail.tag
  | .help head tail next => s.Left head tail ∧ tail.tag ≤ s.tail.tag ∧ head.ptr = tail.ptr ∧
      s.links head.ptr = next.ptr ∧ next.ptr ≠ 0
  | .unlink head next => s.head = head ∧ s.tail.ptr ≠ head.ptr ∧ s.links head.ptr = next.ptr ∧ next.ptr ≠ 0
  | .copy _ new => s.head.ptr = new
  | _ => True

/-- **The nodes in use**: those of the queue, the dummy first, and those behind the node of each push. -/
structure Sound (s : AsyncQueue T V) (queue : List ℕ) (own : T → List ℕ) : Prop where
  chain : Chain s.links s.head.ptr queue
  tail : s.tail.ptr ∈ queue
  queued : ∀ n ∈ queue, n ∈ s.taken
  owned : ∀ t, ∀ n ∈ own t, n ∈ s.taken ∧ n ∉ queue
  once : ∀ t u n, n ∈ own t → n ∈ own u → t = u
  isPrivate : ∀ t, s.Private (s.pc t) (own t)
  younger : ∀ t, (own t).Pairwise fun m n => s.stamp n < s.stamp m
  stamps : ∀ n ∈ s.taken, n ≠ 0 ∧ s.stamp n < s.clock
  distinct : ∀ m ∈ s.taken, ∀ n ∈ s.taken, s.stamp m = s.stamp n → m = n
  retired : ∀ t, ∀ n ∈ (s.pc t).retired, n ∈ s.taken ∧ n ∉ queue ∧ ∀ u, n ∉ own u
  alone : ∀ t u, (s.pc t).popping → (s.pc u).popping → t = u
  ok : ∀ t, s.Ok queue own (s.pc t)

theorem Sound.head_mem (h : s.Sound queue own) : s.head.ptr ∈ queue := by
  refine h.chain.start_mem fun hnull => ?_
  have htail := h.tail
  rw [h.chain.unique (show Chain s.links s.head.ptr [] from hnull)] at htail
  cases htail

/-! ### What the other threads go on to know -/

/-- What a step of one thread leaves to the others. -/
structure Evolves (s s' : AsyncQueue T V) (queue queue' : List ℕ) (own own' : T → List ℕ) : Prop where
  clock : s.clock ≤ s'.clock
  tail : s'.tail = s.tail ∨ s.tail.tag < s'.tail.tag ∧ s'.tail.ptr ≠ s.head.ptr
  follows : ∀ n ∈ queue, s.links n ≠ 0 → s'.links n = s.links n
  stamp : ∀ t, ∀ n ∈ own t, s'.stamp n = s.stamp n
  origin : ∀ t, ∀ n ∈ own' t, (∃ u, n ∈ own u) ∨ s.clock ≤ s'.stamp n
  ends : ∀ n, s'.links n = 0 → (s.links n = 0 → n ∈ queue ∨ ∃ t, n ∈ own t ∧ (s.pc t).cleared) →
    n ∈ queue' ∨ ∃ t, n ∈ own' t ∧ (s'.pc t).cleared

namespace Evolves

theorem tag_le (h : Evolves s s' queue queue' own own') : s.tail.tag ≤ s'.tail.tag := by
  rcases h.tail with heq | ⟨hlt, -⟩
  · rw [heq]
  · exact hlt.le

theorem seen (h : Evolves s s' queue queue' own own') {node : ℕ} {tail : TaggedPtr} (hnode : node ∈ own t)
    (hseen : s.Seen queue own node tail) : s'.Seen queue' own' node tail := by
  obtain ⟨k, hlt, hle, hown, hend⟩ := hseen
  refine ⟨k, h.stamp t node hnode ▸ hlt, hle.trans h.clock, fun u hu => ?_, fun hnull => h.ends _ hnull hend⟩
  rcases h.origin u _ hu with ⟨v, hv⟩ | hnew
  · exact h.stamp v _ hv ▸ hown v hv
  · exact hle.trans hnew

theorem ahead (h : Evolves s s' queue queue' own own') (htail : s.tail.ptr ∈ queue) {tail : TaggedPtr}
    {node : ℕ} (hahead : s.Ahead tail node) : s'.Ahead tail node := by
  obtain ⟨htag, hnext⟩ := hahead
  refine ⟨htag.trans h.tag_le, fun heq => ?_⟩
  rcases h.tail with hsame | ⟨hlt, -⟩
  · obtain ⟨hlinks, hne⟩ := hnext (hsame.symm.trans heq)
    have hmem : tail.ptr ∈ queue := by rwa [← heq, hsame]
    rw [h.follows _ hmem (hlinks ▸ hne)]
    exact ⟨hlinks, hne⟩
  · rw [heq] at hlt
    omega

theorem left (h : Evolves s s' queue queue' own own') {head tail : TaggedPtr} (hhead : s'.head = s.head)
    (hleft : s.Left head tail) : s'.Left head tail := by
  obtain ⟨rfl, hleft⟩ := hleft
  refine ⟨hhead, ?_⟩
  rcases h.tail with hsame | ⟨-, hne⟩
  · rwa [hsame]
  · exact Or.inr hne

/-- **What holds where a thread stands** goes on to hold through the steps of others. -/
theorem ok (h : Evolves s s' queue queue' own own') (hs : s.Sound queue own) {pc : AsyncQueuePc V}
    (hprivate : s.Private pc (own t)) (hok : s.Ok queue own pc) (hhead : pc.popping → s'.head = s.head) :
    s'.Ok queue' own' pc := by
  cases pc with
  | idle | take _ | fill _ _ | clear _ | pushTail _ | grow | popHead | giveBack _ | shrink => trivial
  | pushNext node tail =>
    obtain ⟨hne, hchain⟩ := hprivate
    exact ⟨h.seen (hchain.start_mem hne) hok.1, hok.2.trans h.tag_le⟩
  | link node tail next =>
    obtain ⟨hne, hchain⟩ := hprivate
    exact ⟨h.seen (hchain.start_mem hne) hok.1, hok.2.1.trans h.tag_le, hok.2.2⟩
  | swing node tail => exact h.ahead hs.tail hok
  | catchUp node tail next => exact h.ahead hs.tail hok
  | popTail head => exact (hhead rfl).trans hok
  | popNext head tail => exact ⟨h.left (hhead rfl) hok.1, hok.2.trans h.tag_le⟩
  | help head tail next =>
    obtain ⟨hleft, htag, hat, hlinks, hne⟩ := hok
    refine ⟨h.left (hhead rfl) hleft, htag.trans h.tag_le, hat, ?_, hne⟩
    rw [← hleft.1] at hlinks ⊢
    rw [h.follows _ hs.head_mem (hlinks ▸ hne), hlinks]
  | unlink head next =>
    obtain ⟨rfl, hbehind, hlinks, hne⟩ := hok
    refine ⟨hhead rfl, ?_, ?_, hne⟩
    · rcases h.tail with hsame | ⟨-, hmoved⟩
      · rwa [hsame]
      · exact hmoved
    · rw [h.follows _ hs.head_mem (hlinks ▸ hne), hlinks]
  | copy old new => exact (congrArg TaggedPtr.ptr (hhead rfl)).trans hok

end Evolves

end AsyncQueue

end VeritableLasagna
