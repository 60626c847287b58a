import VeritableLasagna.AsyncQueue.Delivery
import VeritableLasagna.Lib.Ledger

/-!
# The books of the asynchronous queue

Any number of threads push, and one pops at a time. Then no push is lost and none is delivered twice: a
push that has a node is about to link it, or it has linked it and the value in the node is still to be
delivered, or the value has been delivered (`AsyncQueue.Books`, the ledger of the queue). Of the steps, only
four move a push from one place to the next: the node is handed out (`Books.take`), linked (`Books.link`),
becomes the dummy (`Books.unlink`), and its value is copied (`Books.copy`).
-/

namespace VeritableLasagna

variable {T V : Type}

namespace AsyncQueue

variable {s s' : AsyncQueue T V} {queue queue' : List ℕ} {own own' : T → List ℕ} {t : T} {n node : ℕ}
  {e : ℕ × V} {l : List ℕ}

/-- A node whose push is linked, and whose value is still to be delivered. -/
def Pending (s : AsyncQueue T V) (queue : List ℕ) (own : T → List ℕ) (n : ℕ) : Prop :=
  n ∈ queue.tail ∨ (∃ t, n ∈ (own t).tail) ∨ ∃ t, n ∈ (s.pc t).hand

/-- The pushes that are linked, and whose values are still to be delivered. -/
def pendings (s : AsyncQueue T V) (queue : List ℕ) (own : T → List ℕ) : Set (ℕ × V) :=
  {e | ∃ n, s.Pending queue own n ∧ s.entry n = e}

/-- The pushes that have a node, and are about to link it. -/
def loads (s : AsyncQueue T V) : Set (ℕ × V) := {e | ∃ t, e ∈ s.load (s.pc t)}

/-- **The books**: where every push is. -/
structure Books (s : AsyncQueue T V) (queue : List ℕ) (own : T → List ℕ) : Prop where
  ledger : Ledger s.called s.linked s.delivered s.loads (s.pendings queue own)
  increasing : s.called.Pairwise fun d e => d.1 < e.1
  clock : ∀ e ∈ s.called, e.1 < s.clock

/-! ### The nodes of the pushes -/

/-- A push that has a node has it at the start of its chain. -/
theorem Sound.exists_own (h : s.Sound queue own) (hload : e ∈ s.load (s.pc t)) :
    ∃ node l, own t = node :: l ∧ s.stamp node = e.1 := by
  have hprivate := h.isPrivate t
  cases hpc : s.pc t with
  | fill node value =>
    rw [hpc] at hprivate hload
    obtain rfl := Option.some.inj hload
    exact ⟨node, [], hprivate, rfl⟩
  | clear node =>
    rw [hpc] at hprivate hload
    obtain rfl := Option.some.inj hload
    exact ⟨node, [], hprivate, rfl⟩
  | pushTail node | pushNext node _ | link node _ _ | catchUp node _ _ =>
    rw [hpc] at hprivate hload
    obtain ⟨l, hl, -⟩ := hprivate.2.exists_cons hprivate.1
    obtain rfl := Option.some.inj hload
    exact ⟨node, l, hl, rfl⟩
  | _ =>
    rw [hpc] at hload
    cases hload

/-- What a push is about to link, its own nodes tell. -/
theorem Sound.load_congr (h : s.Sound queue own) (t : T) (hsame : ∀ n ∈ own t, s'.entry n = s.entry n) :
    s'.load (s.pc t) = s.load (s.pc t) := by
  have hprivate := h.isPrivate t
  cases hpc : s.pc t with
  | fill node value =>
    rw [hpc] at hprivate
    have hown : own t = [node] := hprivate
    have hnode := hsame node (hown ▸ List.mem_singleton_self node)
    exact congrArg (fun e => some (e.1, value)) hnode
  | clear node =>
    rw [hpc] at hprivate
    have hown : own t = [node] := hprivate
    exact congrArg some (hsame node (hown ▸ List.mem_singleton_self node))
  | pushTail node | pushNext node _ | link node _ _ | catchUp node _ _ =>
    rw [hpc] at hprivate
    exact congrArg some (hsame node (hprivate.2.start_mem hprivate.1))
  | _ => rfl

theorem popping_of_hand {pc : AsyncQueuePc V} (h : n ∈ pc.hand) : pc.popping = true := by
  cases pc with
  | copy _ _ => rfl
  | _ => cases h

/-- The new dummy is at the head. -/
theorem Sound.hand_eq (h : s.Sound queue own) (hn : n ∈ (s.pc t).hand) : s.head.ptr = n := by
  have hok := h.ok t
  cases hpc : s.pc t with
  | copy old new =>
    rw [hpc] at hok hn
    obtain rfl := Option.some.inj hn
    exact hok
  | _ =>
    rw [hpc] at hn
    cases hn

theorem Sound.pending_taken (h : s.Sound queue own) (hn : s.Pending queue own n) : n ∈ s.taken := by
  rcases hn with hqueue | ⟨t, hown⟩ | ⟨t, hhand⟩
  · exact h.queued n (List.mem_of_mem_tail hqueue)
  · exact (h.owned t n (List.mem_of_mem_tail hown)).1
  · exact h.hand_eq hhand ▸ h.queued _ h.head_mem

/-- The node of a push is not pending as long as it is not linked. -/
theorem Sound.not_pending (h : s.Sound queue own) (hown : own t = node :: l) :
    ¬ s.Pending queue own node := by
  have hmem : node ∈ own t := hown ▸ List.mem_cons_self
  rintro (hqueue | ⟨u, hu⟩ | ⟨u, hhand⟩)
  · exact (h.owned t node hmem).2 (List.mem_of_mem_tail hqueue)
  · obtain rfl := h.once t u node hmem (List.mem_of_mem_tail hu)
    have hyounger := h.younger t
    rw [hown] at hyounger hu
    exact absurd ((List.pairwise_cons.mp hyounger).1 node hu) (lt_irrefl _)
  · exact (h.owned t node hmem).2 (h.hand_eq hhand ▸ h.head_mem)

/-- The nodes in use belong to different pushes. -/
theorem Sound.entry_ne (h : s.Sound queue own) (hn : s.Pending queue own n) {m : ℕ} (hm : m ∈ s.taken)
    (hne : n ≠ m) : s.entry n ≠ s.entry m := fun heq =>
  hne (h.distinct n (h.pending_taken hn) m hm (congrArg Prod.fst heq))

/-- Different threads are about to link different pushes. -/
theorem Sound.load_unique (h : s.Sound queue own) (ht : e ∈ s.load (s.pc t)) {u : T}
    (hu : e ∈ s.load (s.pc u)) : t = u := by
  obtain ⟨m, l, hm, hstamp⟩ := h.exists_own ht
  obtain ⟨n, l', hn, hstamp'⟩ := h.exists_own hu
  have hmem : m ∈ own t := hm ▸ List.mem_cons_self
  have hmem' : n ∈ own u := hn ▸ List.mem_cons_self
  obtain rfl := h.distinct m (h.owned t m hmem).1 n (h.owned u n hmem').1 (hstamp.trans hstamp'.symm)
  exact h.once t u m hmem hmem'

/-! ### The books after each step -/

theorem SameBooks.entry_eq (h : SameBooks s s') (n : ℕ) : s'.entry n = s.entry n := by
  rw [entry, entry, h.stamp, h.value]

theorem SameBooks.load_eq (h : SameBooks s s') (pc : AsyncQueuePc V) : s'.load pc = s.load pc := by
  cases pc with
  | fill node value =>
    change some (s'.stamp node, value) = some (s.stamp node, value)
    rw [h.stamp]
  | clear node | pushTail node | pushNext node _ | link node _ _ | catchUp node _ _ =>
    exact congrArg some (h.entry_eq node)
  | _ => rfl

/-- The pending pushes, when the pending nodes and their contents are the same. -/
theorem pendings_congr (hpending : ∀ n, s'.Pending queue' own' n ↔ s.Pending queue own n)
    (hentry : ∀ n, s.Pending queue own n → s'.entry n = s.entry n) :
    s'.pendings queue' own' = s.pendings queue own := by
  ext e
  constructor
  · rintro ⟨n, hn, rfl⟩
    exact ⟨n, (hpending n).mp hn, (hentry n ((hpending n).mp hn)).symm⟩
  · rintro ⟨n, hn, rfl⟩
    exact ⟨n, (hpending n).mpr hn, hentry n hn⟩

theorem loads_congr (hload : ∀ u, s'.load (s'.pc u) = s.load (s.pc u)) : s'.loads = s.loads := by
  ext e
  exact exists_congr fun u => by rw [hload u]

/-- A step that leaves the pending nodes and the lists as they are. -/
theorem Books.congr (h : s.Books queue own) (hsame : SameBooks s s')
    (hpending : ∀ n, s'.Pending queue' own' n ↔ s.Pending queue own n)
    (hload : ∀ u, s'.load (s'.pc u) = s.load (s.pc u)) : s'.Books queue' own' := by
  refine ⟨?_, ?_, ?_⟩
  · rw [hsame.called, hsame.linked, hsame.delivered, loads_congr hload,
      pendings_congr hpending fun n _ => hsame.entry_eq n]
    exact h.ledger
  · rw [hsame.called]
    exact h.increasing
  · rw [hsame.called, hsame.clock]
    exact h.clock

variable [DecidableEq T]

/-- A thread that does not copy goes on without having copied. -/
theorem hand_update {pc : AsyncQueuePc V} (hpcs : s'.pc = Function.update s.pc t pc)
    (hhand : pc.hand = (s.pc t).hand) (u : T) : (s'.pc u).hand = (s.pc u).hand := by
  rw [hpcs]
  by_cases hut : u = t
  · rw [hut, Function.update_self, hhand]
  · rw [Function.update_of_ne hut]

/-- What is about to be linked is the same, when it is for the thread that moves on. -/
theorem load_update {pc : AsyncQueuePc V} (hpcs : s'.pc = Function.update s.pc t pc)
    (hsame : ∀ pc, s'.load pc = s.load pc) (hload : s.load pc = s.load (s.pc t)) (u : T) :
    s'.load (s'.pc u) = s.load (s.pc u) := by
  rw [hpcs, hsame]
  by_cases hut : u = t
  · rw [hut, Function.update_self, hload]
  · rw [Function.update_of_ne hut]

/-- What is behind the nodes of the pushes, when those of one are another list. -/
theorem exists_tail_update : (∃ u, n ∈ (Function.update own t l u).tail) ↔
    n ∈ l.tail ∨ ∃ u, u ≠ t ∧ n ∈ (own u).tail :=
  Function.exists_update_iff own fun _ l => n ∈ l.tail

theorem exists_tail_iff (t : T) :
    (∃ u, n ∈ (own u).tail) ↔ n ∈ (own t).tail ∨ ∃ u, u ≠ t ∧ n ∈ (own u).tail := by
  rw [← exists_tail_update, Function.update_eq_self]

/-- What is behind the nodes of the pushes, when those of one are put behind those of another. -/
theorem exists_tail_append {u : T} (hut : u ≠ t) (hu : own u ≠ []) (hl : own t = node :: l) :
    (∃ v, n ∈ (Function.update (Function.update own u (own u ++ own t)) t [] v).tail) ↔
      (∃ v, n ∈ (own v).tail) ∨ n = node := by
  rw [exists_tail_update, exists_tail_iff t, hl]
  constructor
  · rintro (hn | ⟨v, hvt, hn⟩)
    · cases hn
    by_cases hvu : v = u
    · rw [hvu, Function.update_self, List.tail_append_of_ne_nil hu] at hn
      rcases List.mem_append.mp hn with hn | hn
      · exact Or.inl (Or.inr ⟨u, hut, hn⟩)
      · rcases List.mem_cons.mp hn with rfl | hn
        · exact Or.inr rfl
        · exact Or.inl (Or.inl hn)
    · rw [Function.update_of_ne hvu] at hn
      exact Or.inl (Or.inr ⟨v, hvt, hn⟩)
  · have hbehind : n ∈ node :: l → ∃ v, v ≠ t ∧ n ∈ (Function.update own u (own u ++ node :: l) v).tail := by
      intro hn
      refine ⟨u, hut, ?_⟩
      rw [Function.update_self, List.tail_append_of_ne_nil hu]
      exact List.mem_append_right _ hn
    rintro ((hn | ⟨v, hvt, hn⟩) | rfl)
    · exact Or.inr (hbehind (List.mem_cons_of_mem _ hn))
    · refine Or.inr ⟨v, hvt, ?_⟩
      by_cases hvu : v = u
      · rw [hvu, Function.update_self, List.tail_append_of_ne_nil hu]
        exact List.mem_append_left _ (hvu ▸ hn)
      · rwa [Function.update_of_ne hvu]
    · exact Or.inr (hbehind List.mem_cons_self)

theorem entry_handOut {value : V} (hne : n ≠ node) : (s.handOut t node value).entry n = s.entry n := by
  change (Function.update s.stamp node s.clock n, s.value n) = s.entry n
  rw [Function.update_of_ne hne]
  rfl

theorem entry_fillNode {value : V} (hne : n ≠ node) : (s.fillNode t node value).entry n = s.entry n := by
  change (s.stamp n, Function.update s.value node value n) = s.entry n
  rw [Function.update_of_ne hne]
  rfl

/-- The nodes in use are those from before. -/
theorem entry_handOut_taken {value : V} (hfresh : node ∉ s.taken) (hn : n ∈ s.taken) :
    (s.handOut t node value).entry n = s.entry n := by
  refine entry_handOut ?_
  rintro rfl
  exact hfresh hn

/-- **A push gets its node**, and is called. -/
theorem Books.take (h : s.Books queue own) (hs : s.Sound queue own) {value : V}
    (hpc : s.pc t = .take value) (hfresh : node ∉ s.taken) :
    (s.handOut t node value).Books queue (Function.update own t [node]) := by
  have hnil : own t = [] := hs.private_of hpc
  have hhand : ∀ u, ((s.handOut t node value).pc u).hand = (s.pc u).hand :=
    hand_update rfl (show _ = (s.pc t).hand by rw [hpc]; rfl)
  have htail : ∀ u, (Function.update own t [node] u).tail = (own u).tail := by
    intro u
    by_cases hut : u = t
    · rw [hut, Function.update_self, hnil]
      rfl
    · rw [Function.update_of_ne hut]
  have hpendings : (s.handOut t node value).pendings queue (Function.update own t [node]) =
      s.pendings queue own :=
    pendings_congr (fun n => by simp only [Pending, hhand, htail])
      fun n hn => entry_handOut_taken hfresh (hs.pending_taken hn)
  have hself : (s.handOut t node value).load ((s.handOut t node value).pc t) = some (s.clock, value) := by
    change AsyncQueue.load _ (Function.update s.pc t (.fill node value) t) = some (s.clock, value)
    rw [Function.update_self]
    change some (Function.update s.stamp node s.clock node, value) = some (s.clock, value)
    rw [Function.update_self]
  have hother : ∀ u, u ≠ t →
      (s.handOut t node value).load ((s.handOut t node value).pc u) = s.load (s.pc u) := by
    intro u hut
    change AsyncQueue.load _ (Function.update s.pc t (.fill node value) u) = s.load (s.pc u)
    rw [Function.update_of_ne hut]
    exact hs.load_congr u fun n hn => entry_handOut_taken hfresh (hs.owned u n hn).1
  have hloads : (s.handOut t node value).loads = insert (s.clock, value) s.loads := by
    ext e
    constructor
    · rintro ⟨u, hu⟩
      by_cases hut : u = t
      · rw [hut, hself] at hu
        exact Or.inl (Option.some.inj hu).symm
      · exact Or.inr ⟨u, hother u hut ▸ hu⟩
    · rintro (rfl | ⟨u, hu⟩)
      · exact ⟨t, hself⟩
      · have hut : u ≠ t := by
          rintro rfl
          rw [hpc] at hu
          cases hu
        exact ⟨u, (hother u hut).symm ▸ hu⟩
  have hnew : (s.clock, value) ∉ s.called := fun hmem => (h.clock _ hmem).ne rfl
  refine ⟨?_, ?_, fun e he => ?_⟩
  · rw [hpendings, hloads]
    exact h.ledger.submit hnew
  · refine List.pairwise_append.mpr ⟨h.increasing, List.pairwise_singleton _ _, fun d hd e he => ?_⟩
    rw [List.mem_singleton.mp he]
    exact h.clock d hd
  · change e.1 < s.clock + 1
    rcases List.mem_append.mp he with hold | hlast
    · exact (h.clock e hold).trans (Nat.lt_succ_self _)
    · rw [List.mem_singleton.mp hlast]
      exact Nat.lt_succ_self _

/-- What a push is about to link is the same after it has filled its node. -/
theorem Sound.load_fillNode (h : s.Sound queue own) {value : V} (hpc : s.pc t = .fill node value) (u : T) :
    (s.fillNode t node value).load ((s.fillNode t node value).pc u) = s.load (s.pc u) := by
  have hown : own t = [node] := h.private_of hpc
  change AsyncQueue.load _ (Function.update s.pc t (.clear node) u) = s.load (s.pc u)
  by_cases hut : u = t
  · rw [hut, Function.update_self, hpc]
    change some (s.stamp node, Function.update s.value node value node) = some (s.stamp node, value)
    rw [Function.update_self]
  · rw [Function.update_of_ne hut]
    refine h.load_congr u fun n hn => entry_fillNode ?_
    rintro rfl
    exact hut (h.once u t n hn (hown ▸ List.mem_singleton_self n))

/-- **A push fills its node.** -/
theorem Books.fill (h : s.Books queue own) (hs : s.Sound queue own) {value : V}
    (hpc : s.pc t = .fill node value) : (s.fillNode t node value).Books queue own := by
  have hown : own t = [node] := hs.private_of hpc
  have hhand : ∀ u, ((s.fillNode t node value).pc u).hand = (s.pc u).hand :=
    hand_update rfl (show _ = (s.pc t).hand by rw [hpc]; rfl)
  have hpendings : (s.fillNode t node value).pendings queue own = s.pendings queue own := by
    refine pendings_congr (fun n => by simp only [Pending, hhand]) fun n hn => entry_fillNode ?_
    rintro rfl
    exact hs.not_pending hown hn
  refine ⟨?_, h.increasing, h.clock⟩
  rw [hpendings, loads_congr (hs.load_fillNode hpc)]
  exact h.ledger

/-- **A push links its node**, wherever it does. -/
theorem Books.link (h : s.Books queue own) (hs : s.Sound queue own) {tail next : TaggedPtr}
    (hpc : s.pc t = .link node tail next)
    (hs' : s' = s.linkNode t node tail (s.linked ++ [s.entry node]))
    (htails : ∀ n, n ∈ queue'.tail ∨ (∃ u, n ∈ (own' u).tail) ↔
      (n ∈ queue.tail ∨ ∃ u, n ∈ (own u).tail) ∨ n = node) : s'.Books queue' own' := by
  have hpcs : s'.pc = Function.update s.pc t (.swing node tail) := by rw [hs']; rfl
  have hentry : ∀ n, s'.entry n = s.entry n := fun n => by rw [hs']; rfl
  have hhand : ∀ u, (s'.pc u).hand = (s.pc u).hand := hand_update hpcs (by rw [hpc]; rfl)
  have hpending : ∀ n, s'.Pending queue' own' n ↔ s.Pending queue own n ∨ n = node := by
    intro n
    rw [Pending, ← or_assoc, htails, Pending]
    simp only [hhand]
    tauto
  have hself : s.load (s.pc t) = some (s.entry node) := by rw [hpc]; rfl
  have hother : ∀ u, u ≠ t → s'.load (s'.pc u) = s.load (s.pc u) := by
    intro u hut
    rw [hpcs, Function.update_of_ne hut]
    exact hs.load_congr u fun n _ => hentry n
  have hpendings : s'.pendings queue' own' = insert (s.entry node) (s.pendings queue own) := by
    ext e
    constructor
    · rintro ⟨n, hn, rfl⟩
      rw [hentry]
      rcases (hpending n).mp hn with hold | rfl
      · exact Or.inr ⟨n, hold, rfl⟩
      · exact Or.inl rfl
    · rintro (rfl | ⟨n, hn, rfl⟩)
      · exact ⟨node, (hpending node).mpr (Or.inr rfl), hentry node⟩
      · exact ⟨n, (hpending n).mpr (Or.inl hn), hentry n⟩
  have hloads : s'.loads = s.loads \ {s.entry node} := by
    ext e
    constructor
    · rintro ⟨u, hu⟩
      have hut : u ≠ t := by
        rintro rfl
        rw [hpcs, Function.update_self] at hu
        cases hu
      rw [hother u hut] at hu
      refine ⟨⟨u, hu⟩, ?_⟩
      rintro rfl
      exact hut (hs.load_unique hu hself)
    · rintro ⟨⟨u, hu⟩, hne⟩
      have hut : u ≠ t := by
        rintro rfl
        rw [hself] at hu
        exact hne (Option.some.inj hu).symm
      exact ⟨u, (hother u hut).symm ▸ hu⟩
  refine ⟨?_, ?_, ?_⟩
  · rw [hpendings, hloads, hs']
    exact h.ledger.accept ⟨t, hself⟩
  · rw [hs']
    exact h.increasing
  · rw [hs']
    exact h.clock

theorem load_unlinkHead {next : TaggedPtr} (hpc : s.pc t = .unlink s.head next) (u : T) :
    (s.unlinkHead t next).load ((s.unlinkHead t next).pc u) = s.load (s.pc u) := by
  have hpcs : (s.unlinkHead t next).pc = Function.update s.pc t (.copy s.head.ptr next.ptr) := rfl
  exact load_update hpcs (fun _ => rfl) (by rw [hpc]; rfl) u

theorem load_copyOut {old new : ℕ} (hpc : s.pc t = .copy old new) (u : T) :
    (s.copyOut t old new).load ((s.copyOut t old new).pc u) = s.load (s.pc u) := by
  have hpcs : (s.copyOut t old new).pc = Function.update s.pc t (.giveBack old) := rfl
  exact load_update hpcs (fun _ => rfl) (by rw [hpc]; rfl) u

/-- **A pop moves `head` on**, and takes the value of the new dummy in hand. -/
theorem Books.unlink (h : s.Books queue own) (hs : s.Sound queue own) {next : TaggedPtr}
    (hpc : s.pc t = .unlink s.head next) (hlinks : s.links s.head.ptr = next.ptr) :
    (s.unlinkHead t next).Books queue.tail own := by
  have hsame : SameBooks s (s.unlinkHead t next) := ⟨rfl, rfl, rfl, rfl, rfl, rfl⟩
  have hpop : (s.pc t).popping = true := by rw [hpc]; rfl
  obtain ⟨-, -, -, hne⟩ := hs.ok_of hpc
  obtain ⟨l, hqueue, hl⟩ := hs.chain.exists_cons (hs.stamps _ (hs.queued _ hs.head_mem)).1
  rw [hlinks] at hl
  obtain ⟨rest, rfl, -⟩ := hl.exists_cons hne
  have hnone : ∀ u n, n ∉ (s.pc u).hand := by
    intro u n hn
    obtain rfl := hs.alone u t (popping_of_hand hn) hpop
    rw [hpc] at hn
    cases hn
  have hhand : ∀ n, (∃ u, n ∈ ((s.unlinkHead t next).pc u).hand) ↔ n = next.ptr := by
    intro n
    change (∃ u, n ∈ (Function.update s.pc t (.copy s.head.ptr next.ptr) u).hand) ↔ n = next.ptr
    constructor
    · rintro ⟨u, hn⟩
      by_cases hut : u = t
      · rw [hut, Function.update_self] at hn
        exact (Option.some.inj hn).symm
      · rw [Function.update_of_ne hut] at hn
        exact absurd hn (hnone u n)
    · rintro rfl
      exact ⟨t, by rw [Function.update_self]; rfl⟩
  refine h.congr hsame (fun n => ?_) (load_unlinkHead hpc)
  rw [Pending, Pending, hhand, hqueue, List.tail_cons, List.tail_cons, List.mem_cons]
  have hno : ¬ ∃ u, n ∈ (s.pc u).hand := fun hex => hex.elim fun u hn => hnone u n hn
  tauto

/-- **A pop copies the value** of the new dummy. -/
theorem Books.copy (h : s.Books queue own) (hs : s.Sound queue own) {old new : ℕ}
    (hpc : s.pc t = .copy old new) : (s.copyOut t old new).Books queue own := by
  have hnew : new ∈ (s.pc t).hand := by rw [hpc]; rfl
  have hhead : s.head.ptr = new := hs.hand_eq hnew
  have hpop : (s.pc t).popping = true := by rw [hpc]; rfl
  have hhand : ∀ u n, n ∉ ((s.copyOut t old new).pc u).hand := by
    intro u n hn
    change n ∈ (Function.update s.pc t (.giveBack old) u).hand at hn
    by_cases hut : u = t
    · rw [hut, Function.update_self] at hn
      cases hn
    · rw [Function.update_of_ne hut] at hn
      exact hut (hs.alone u t (popping_of_hand hn) hpop)
  obtain ⟨rest, hqueue, -⟩ := hs.chain.exists_cons (hs.stamps _ (hs.queued _ hs.head_mem)).1
  have hnodup := hs.chain.nodup
  rw [hqueue] at hnodup
  have hpending : ∀ n, (s.copyOut t old new).Pending queue own n ↔ s.Pending queue own n ∧ n ≠ new := by
    intro n
    constructor
    · rintro (hn | ⟨u, hn⟩ | ⟨u, hn⟩)
      · refine ⟨Or.inl hn, ?_⟩
        rintro rfl
        rw [hqueue, hhead] at hn
        rw [hhead] at hnodup
        exact (List.nodup_cons.mp hnodup).1 hn
      · refine ⟨Or.inr (Or.inl ⟨u, hn⟩), ?_⟩
        rintro rfl
        exact (hs.owned u n (List.mem_of_mem_tail hn)).2 (hhead ▸ hs.head_mem)
      · exact absurd hn (hhand u n)
    · rintro ⟨hn | hn | ⟨u, hn⟩, hne⟩
      · exact Or.inl hn
      · exact Or.inr (Or.inl hn)
      · exact absurd ((hs.hand_eq hn).symm.trans hhead) hne
  have hpendings : (s.copyOut t old new).pendings queue own = s.pendings queue own \ {s.entry new} := by
    ext e
    constructor
    · rintro ⟨n, hn, rfl⟩
      obtain ⟨hold, hne⟩ := (hpending n).mp hn
      exact ⟨⟨n, hold, rfl⟩, hs.entry_ne hold (hhead ▸ hs.queued _ hs.head_mem) hne⟩
    · rintro ⟨⟨n, hn, rfl⟩, hne⟩
      refine ⟨n, (hpending n).mpr ⟨hn, ?_⟩, rfl⟩
      rintro rfl
      exact hne rfl
  refine ⟨?_, h.increasing, h.clock⟩
  rw [hpendings, loads_congr (load_copyOut hpc)]
  exact h.ledger.deliver ⟨new, Or.inr (Or.inr ⟨t, hnew⟩), rfl⟩

/-- **A step keeps the books.** -/
theorem Books.moved (h : s.Books queue own) (hs : s.Sound queue own)
    (hmoved : Moved s s' queue own queue' own') : s'.Books queue' own' := by
  cases hmoved with
  | @quiet t pc hpcs hsame hhand hload =>
    exact h.congr hsame (fun n => by simp only [Pending, hand_update hpcs hhand])
      (load_update hpcs hsame.load_eq hload)
  | take hpc hfresh hs' => exact hs' ▸ h.take hs hpc hfresh
  | fill hpc hs' => exact hs' ▸ h.fill hs hpc
  | @linkQueue t node tail next hpc hs' =>
    obtain ⟨hne, hchain⟩ : node ≠ 0 ∧ Chain s.links node (own t) := hs.private_of hpc
    obtain ⟨l, hl, -⟩ := hchain.exists_cons hne
    refine h.link hs hpc hs' fun n => ?_
    rw [List.tail_append_of_ne_nil (List.ne_nil_of_mem hs.head_mem), List.mem_append, exists_tail_update,
      exists_tail_iff t, hl, List.mem_cons, List.tail_cons]
    simp only [List.tail_nil, List.not_mem_nil, false_or]
    grind
  | @linkOwn t u node tail next hpc hut hcleared hne hs' =>
    obtain ⟨hnode, hchain⟩ : node ≠ 0 ∧ Chain s.links node (own t) := hs.private_of hpc
    obtain ⟨l, hl, -⟩ := hchain.exists_cons hnode
    refine h.link hs hpc hs' fun n => ?_
    rw [exists_tail_append hut hne hl, or_assoc]
  | unlink hpc hlinks hs' => exact hs' ▸ h.unlink hs hpc hlinks
  | copy hpc hs' => exact hs' ▸ h.copy hs hpc

omit [DecidableEq T] in
/-- In an empty queue that nobody has called, there is no push. -/
theorem books_init (dummy : ℕ) (next : ℕ → TaggedPtr) (value : ℕ → V) :
    (init dummy next value : AsyncQueue T V).Books [dummy] fun _ => [] := by
  have hloads : (init dummy next value : AsyncQueue T V).loads = ∅ := by
    refine Set.eq_empty_iff_forall_notMem.mpr ?_
    rintro e ⟨u, hu⟩
    cases hu
  have hpendings : (init dummy next value : AsyncQueue T V).pendings [dummy] (fun _ => []) = ∅ := by
    refine Set.eq_empty_iff_forall_notMem.mpr ?_
    rintro e ⟨n, hn | ⟨u, hn⟩ | ⟨u, hn⟩, -⟩ <;> cases hn
  refine ⟨?_, List.Pairwise.nil, fun e he => (by cases he)⟩
  rw [hloads, hpendings]
  exact Ledger.nil

end AsyncQueue

end VeritableLasagna
