import VeritableLasagna.AsyncQueue.Sound

/-!
# The steps of the asynchronous queue

Every step keeps the nodes in their chains. Most steps only move the thread on; the others are the node
that the pool hands out (`Sound.take`), its initialisation (`Sound.clear`), the link behind the last node
of the queue or of the chain of another push (`Sound.link`), the swing of `tail` (`Sound.swapTail`), the
removal of the dummy (`Sound.unlink`) and its return to the pool (`Sound.giveBack`).
-/

namespace VeritableLasagna

variable {T V : Type}

namespace AsyncQueue

variable {s s' : AsyncQueue T V} {queue : List ℕ} {own : T → List ℕ} {t : T}

theorem Private.congr {pc : AsyncQueuePc V} {l : List ℕ} (h : s.Private pc l)
    (hlinks : ∀ n ∈ l, s'.links n = s.links n) : s'.Private pc l := by
  cases pc with
  | pushTail _ | pushNext _ _ | link _ _ _ | catchUp _ _ _ => exact ⟨h.1, h.2.congr hlinks⟩
  | _ => exact h

/-- The nodes of another push are put behind those of a push. -/
theorem Private.append {pc : AsyncQueuePc V} {l l' : List ℕ} {q n : ℕ} (h : s.Private pc (l ++ [q]))
    (hcleared : pc.cleared = true) (hold : ∀ m ∈ l, s'.links m = s.links m) (hlast : s'.links q = n)
    (h' : Chain s'.links n l') : s'.Private pc (l ++ [q] ++ l') := by
  cases pc with
  | pushTail _ | pushNext _ _ | link _ _ _ | catchUp _ _ _ => exact ⟨h.1, h.2.append hold hlast h'⟩
  | _ => cases hcleared

/-- The end of the nodes behind that of a push. -/
theorem Private.exists_concat {pc : AsyncQueuePc V} {l : List ℕ} {q : ℕ} (h : s.Private pc l)
    (hcleared : pc.cleared = true) (hmem : q ∈ l) (hnull : s.links q = 0) :
    ∃ l', l = l' ++ [q] ∧ l.Nodup := by
  cases pc with
  | pushTail _ | pushNext _ _ | link _ _ _ | catchUp _ _ _ =>
    obtain ⟨l', hl⟩ := h.2.exists_concat hmem hnull
    exact ⟨l', hl, h.2.nodup⟩
  | _ => cases hcleared

theorem popping_of_retired {pc : AsyncQueuePc V} {n : ℕ} (h : n ∈ pc.retired) : pc.popping = true := by
  cases pc with
  | copy _ _ | giveBack _ => rfl
  | _ => cases h

/-- What holds where a push stands, it knows of its node and of the nodes behind it. -/
theorem Sound.private_of (h : s.Sound queue own) {pc : AsyncQueuePc V} (hpc : s.pc t = pc) :
    s.Private pc (own t) := hpc ▸ h.isPrivate t

theorem Sound.ok_of (h : s.Sound queue own) {pc : AsyncQueuePc V} (hpc : s.pc t = pc) :
    s.Ok queue own pc := hpc ▸ h.ok t

variable [DecidableEq T]

/-- At most one thread pops, also after one of them has moved on. -/
theorem Sound.alone_update (h : s.Sound queue own) {pc : AsyncQueuePc V}
    (hpc : pc.popping = true → ∀ u, u ≠ t → (s.pc u).popping = false) (u v : T)
    (hu : (Function.update s.pc t pc u).popping = true)
    (hv : (Function.update s.pc t pc v).popping = true) : u = v := by
  by_cases hut : u = t
  · by_cases hvt : v = t
    · rw [hut, hvt]
    · rw [hut, Function.update_self] at hu
      rw [Function.update_of_ne hvt, hpc hu v hvt] at hv
      cases hv
  · rw [Function.update_of_ne hut] at hu
    by_cases hvt : v = t
    · rw [hvt, Function.update_self] at hv
      rw [hpc hv u hut] at hu
      cases hu
    · rw [Function.update_of_ne hvt] at hv
      exact h.alone u v hu hv

omit [DecidableEq T] in
/-- The thread that pops goes on to be the only one. -/
theorem Sound.alone_of_popping (h : s.Sound queue own) (ht : (s.pc t).popping = true) (u : T) (hu : u ≠ t) :
    (s.pc u).popping = false :=
  Bool.eq_false_iff.mpr fun hpop => hu (h.alone u t hpop ht)

/-- **A thread moves on**, and nothing else changes but the values, the size and the history. -/
theorem Sound.move (h : s.Sound queue own) (pc : AsyncQueuePc V) {size : ℕ} {value : ℕ → V}
    {linked delivered : List (ℕ × V)} (hprivate : s.Private pc (own t))
    (hcleared : (s.pc t).cleared = true → pc.cleared = true)
    (hretired : ∀ n ∈ pc.retired, n ∈ (s.pc t).retired)
    (halone : pc.popping = true → ∀ u, u ≠ t → (s.pc u).popping = false) (hok : s.Ok queue own pc) :
    ({ s.setPc t pc with size := size, value := value, linked := linked, delivered := delivered } :
      AsyncQueue T V).Sound queue own := by
  have hevolves : Evolves s ({ s.setPc t pc with
      size := size, value := value, linked := linked, delivered := delivered } : AsyncQueue T V)
      queue queue own own := by
    refine ⟨le_rfl, Or.inl rfl, fun _ _ _ => rfl, fun _ _ _ => rfl, fun u n hn => Or.inl ⟨u, hn⟩,
      fun n hnull hend => (hend hnull).imp_right ?_⟩
    rintro ⟨u, hn, hu⟩
    refine ⟨u, hn, ?_⟩
    change (Function.update s.pc t pc u).cleared = true
    by_cases hut : u = t
    · rw [hut, Function.update_self]
      exact hcleared (hut ▸ hu)
    · rwa [Function.update_of_ne hut]
  refine ⟨h.chain, h.tail, h.queued, h.owned, h.once, ?_, h.younger, h.stamps, h.distinct, ?_,
    h.alone_update halone, ?_⟩
  · exact (Function.forall_update_iff s.pc fun u pc => s.Private pc (own u)).mpr
      ⟨hprivate, fun u _ => h.isPrivate u⟩
  · exact (Function.forall_update_iff s.pc fun _ pc => ∀ n ∈ pc.retired,
      n ∈ s.taken ∧ n ∉ queue ∧ ∀ u, n ∉ own u).mpr
      ⟨fun n hn => h.retired t n (hretired n hn), fun u _ => h.retired u⟩
  · exact (Function.forall_update_iff s.pc fun _ pc => AsyncQueue.Ok _ queue own pc).mpr
      ⟨hevolves.ok h hprivate hok fun _ => rfl,
        fun u _ => hevolves.ok h (h.isPrivate u) (h.ok u) fun _ => rfl⟩

/-- **The pool hands out a node.** -/
theorem Sound.take (h : s.Sound queue own) {node : ℕ} {value : V} {called : List (ℕ × V)}
    (hpc : s.pc t = .take value)
    (hne : node ≠ 0) (hfresh : node ∉ s.taken) :
    ({ s.setPc t (.fill node value) with
      taken := insert node s.taken
      stamp := Function.update s.stamp node s.clock
      clock := s.clock + 1
      called := called } : AsyncQueue T V).Sound queue (Function.update own t [node]) := by
  have hnil : own t = [] := h.private_of hpc
  have hnotown : ∀ u, node ∉ own u := fun u hu => hfresh (h.owned u node hu).1
  have hstamp : ∀ n ∈ s.taken, Function.update s.stamp node s.clock n = s.stamp n := by
    intro n hn
    refine Function.update_of_ne ?_ _ _
    rintro rfl
    exact hfresh hn
  have hmem : ∀ u, ∀ n ∈ Function.update own t [node] u, n = node ∧ u = t ∨ n ∈ own u := by
    refine (Function.forall_update_iff own fun u l => ∀ n ∈ l, n = node ∧ u = t ∨ n ∈ own u).mpr ⟨?_, ?_⟩
    · rintro n hn
      exact Or.inl ⟨List.mem_singleton.mp hn, rfl⟩
    · exact fun u _ n hn => Or.inr hn
  have hevolves : Evolves s ({ s.setPc t (.fill node value) with
      taken := insert node s.taken
      stamp := Function.update s.stamp node s.clock
      clock := s.clock + 1
      called := called } : AsyncQueue T V) queue queue own (Function.update own t [node]) := by
    refine ⟨Nat.le_succ _, Or.inl rfl, fun _ _ _ => rfl, fun u n hn => hstamp n (h.owned u n hn).1,
      fun u n hn => ?_, fun n hnull hend => (hend hnull).imp_right ?_⟩
    · rcases hmem u n hn with ⟨rfl, -⟩ | hold
      · exact Or.inr (Function.update_self n s.clock s.stamp).ge
      · exact Or.inl ⟨u, hold⟩
    · rintro ⟨u, hn, hu⟩
      have hut : u ≠ t := by
        rintro rfl
        rw [hpc] at hu
        cases hu
      refine ⟨u, by rwa [Function.update_of_ne hut], ?_⟩
      change (Function.update s.pc t _ u).cleared = true
      rwa [Function.update_of_ne hut]
  refine ⟨h.chain, h.tail, fun n hn => Finset.mem_insert_of_mem (h.queued n hn), fun u n hn => ?_,
    fun u v n hu hv => ?_, ?_, ?_, fun n hn => ?_, fun m hm n hn hmn => ?_, ?_,
    h.alone_update fun hpop => (by cases hpop), ?_⟩
  · rcases hmem u n hn with ⟨rfl, -⟩ | hold
    · exact ⟨Finset.mem_insert_self n _, fun hq => hfresh (h.queued n hq)⟩
    · exact (h.owned u n hold).imp_left Finset.mem_insert_of_mem
  · rcases hmem u n hu with ⟨rfl, rfl⟩ | hold
    · rcases hmem v n hv with ⟨-, rfl⟩ | hold'
      · rfl
      · exact absurd hold' (hnotown v)
    · rcases hmem v n hv with ⟨rfl, -⟩ | hold'
      · exact absurd hold (hnotown u)
      · exact h.once u v n hold hold'
  · intro u
    change s.Private (Function.update s.pc t _ u) (Function.update own t [node] u)
    by_cases hut : u = t
    · rw [hut, Function.update_self, Function.update_self]
      rfl
    · rw [Function.update_of_ne hut, Function.update_of_ne hut]
      exact h.isPrivate u
  · refine (Function.forall_update_iff own fun _ l => l.Pairwise fun m n =>
      Function.update s.stamp node s.clock n < Function.update s.stamp node s.clock m).mpr
      ⟨List.pairwise_singleton _ _, fun u _ => (h.younger u).imp_of_mem fun {m n} hm hn hlt => ?_⟩
    rwa [hstamp m (h.owned u m hm).1, hstamp n (h.owned u n hn).1]
  · rcases Finset.mem_insert.mp hn with rfl | hold
    · exact ⟨hne, Nat.lt_succ_of_le (Function.update_self n s.clock s.stamp).le⟩
    · exact ⟨(h.stamps n hold).1, (hstamp n hold).trans_lt (Nat.lt_succ_of_lt (h.stamps n hold).2)⟩
  · change Function.update s.stamp node s.clock m = Function.update s.stamp node s.clock n at hmn
    rcases Finset.mem_insert.mp hm with rfl | hold
    · rcases Finset.mem_insert.mp hn with rfl | hold'
      · rfl
      · rw [Function.update_self, hstamp n hold'] at hmn
        exact absurd (h.stamps n hold').2 (by omega)
    · rcases Finset.mem_insert.mp hn with rfl | hold'
      · rw [Function.update_self, hstamp m hold] at hmn
        exact absurd (h.stamps m hold).2 (by omega)
      · rw [hstamp m hold, hstamp n hold'] at hmn
        exact h.distinct m hold n hold' hmn
  · refine (Function.forall_update_iff s.pc fun _ pc => ∀ n ∈ pc.retired, n ∈ insert node s.taken ∧
      n ∉ queue ∧ ∀ u, n ∉ Function.update own t [node] u).mpr
      ⟨fun n hn => (by cases hn), fun u _ n hn => ?_⟩
    obtain ⟨htaken, hqueue, hown⟩ := h.retired u n hn
    refine ⟨Finset.mem_insert_of_mem htaken, hqueue, fun v hv => ?_⟩
    rcases hmem v n hv with ⟨rfl, -⟩ | hold
    · exact hfresh htaken
    · exact hown v hold
  · exact (Function.forall_update_iff s.pc fun _ pc => AsyncQueue.Ok _ queue _ pc).mpr
      ⟨trivial, fun u _ => hevolves.ok h (h.isPrivate u) (h.ok u) fun _ => rfl⟩

/-- **A push initialises its node.** -/
theorem Sound.clear (h : s.Sound queue own) {node : ℕ} (hpc : s.pc t = .clear node) :
    ({ s.setPc t (.pushTail node) with next := Function.update s.next node ⟨0, 0⟩ } :
      AsyncQueue T V).Sound queue own := by
  have hnode : own t = [node] := h.private_of hpc
  have hmine : node ∈ own t := hnode ▸ List.mem_singleton_self node
  obtain ⟨htaken, hqueue⟩ := h.owned t node hmine
  have hlinks : ∀ n, n ≠ node → (Function.update s.next node ⟨0, 0⟩ n).ptr = s.links n := by
    intro n hn
    rw [Function.update_of_ne hn]
    rfl
  have hnull : (Function.update s.next node ⟨0, 0⟩ node).ptr = 0 := by rw [Function.update_self]
  have hother : ∀ u, u ≠ t → ∀ n ∈ own u, n ≠ node := by
    rintro u hu n hn rfl
    exact hu (h.once u t n hn hmine)
  have hqueue' : ∀ n ∈ queue, n ≠ node := by
    rintro n hn rfl
    exact hqueue hn
  have hevolves : Evolves s ({ s.setPc t (.pushTail node) with
      next := Function.update s.next node ⟨0, 0⟩ } : AsyncQueue T V) queue queue own own := by
    refine ⟨le_rfl, Or.inl rfl, fun n hn _ => hlinks n (hqueue' n hn), fun _ _ _ => rfl,
      fun u n hn => Or.inl ⟨u, hn⟩, fun n hend hold => ?_⟩
    by_cases hn : n = node
    · refine Or.inr ⟨t, hn ▸ hmine, ?_⟩
      change (Function.update s.pc t _ t).cleared = true
      rw [Function.update_self]
      rfl
    · refine (hold ((hlinks n hn).symm.trans hend)).imp_right ?_
      rintro ⟨u, hu, hcleared⟩
      have hut : u ≠ t := by
        rintro rfl
        rw [hpc] at hcleared
        cases hcleared
      refine ⟨u, hu, ?_⟩
      change (Function.update s.pc t _ u).cleared = true
      rwa [Function.update_of_ne hut]
  refine ⟨h.chain.congr fun n hn => hlinks n (hqueue' n hn), h.tail, h.queued, h.owned, h.once, ?_,
    h.younger, h.stamps, h.distinct, ?_, h.alone_update fun hpop => (by cases hpop), ?_⟩
  · refine (Function.forall_update_iff s.pc fun u pc => AsyncQueue.Private _ pc (own u)).mpr
      ⟨?_, fun u hu => (h.isPrivate u).congr fun n hn => hlinks n (hother u hu n hn)⟩
    rw [hnode]
    exact ⟨(h.stamps node htaken).1, rfl, (h.stamps node htaken).1, hnull⟩
  · exact (Function.forall_update_iff s.pc fun _ pc => ∀ n ∈ pc.retired,
      n ∈ s.taken ∧ n ∉ queue ∧ ∀ u, n ∉ own u).mpr
      ⟨fun n hn => (by cases hn), fun u _ => h.retired u⟩
  · exact (Function.forall_update_iff s.pc fun _ pc => AsyncQueue.Ok _ queue own pc).mpr
      ⟨trivial, fun u _ => hevolves.ok h (h.isPrivate u) (h.ok u) fun _ => rfl⟩

omit [DecidableEq T] in
/-- **A compare-and-swap of `tail`** to the next node. -/
theorem Sound.swapTail (h : s.Sound queue own) {tail : TaggedPtr} {node : ℕ} (hahead : s.Ahead tail node) :
    (s.swapTail tail node).Sound queue own := by
  rw [AsyncQueue.swapTail]
  split_ifs with htail
  swap
  · exact h
  obtain ⟨hlinks, hne⟩ := hahead.2 htail
  have hmem : tail.ptr ∈ queue := htail ▸ h.tail
  have hevolves : Evolves s ({ s with tail := tail.next node } : AsyncQueue T V) queue queue own own := by
    refine ⟨le_rfl, Or.inr ⟨?_, ?_⟩, fun _ _ _ => rfl, fun _ _ _ => rfl, fun u n hn => Or.inl ⟨u, hn⟩,
      fun n hnull hend => hend hnull⟩
    · rw [htail]
      exact Nat.lt_succ_self tail.tag
    · change node ≠ s.head.ptr
      rw [← hlinks]
      exact h.chain.next_ne hmem
  refine ⟨h.chain, ?_, h.queued, h.owned, h.once, h.isPrivate, h.younger, h.stamps, h.distinct, h.retired,
    h.alone, fun u => hevolves.ok h (h.isPrivate u) (h.ok u) fun _ => rfl⟩
  change node ∈ queue
  have hnext := h.chain.next_mem hmem (hlinks ▸ hne)
  rwa [hlinks] at hnext

/-- **A pop removes the dummy**, and the next node becomes the dummy. -/
theorem Sound.unlink (h : s.Sound queue own) {next : TaggedPtr} (hpc : s.pc t = .unlink s.head next) :
    ({ s.setPc t (.copy s.head.ptr next.ptr) with head := s.head.next next.ptr } :
      AsyncQueue T V).Sound queue.tail own := by
  obtain ⟨-, hbehind, hlinks, hne⟩ := h.ok_of hpc
  have hpop : (s.pc t).popping = true := by rw [hpc]; rfl
  obtain ⟨rest, rfl, hrest⟩ := h.chain.exists_cons (h.stamps _ (h.queued _ h.head_mem)).1
  rw [hlinks] at hrest
  have hnodup := List.nodup_cons.mp h.chain.nodup
  have hevolves : Evolves s ({ s.setPc t (.copy s.head.ptr next.ptr) with
      head := s.head.next next.ptr } : AsyncQueue T V) (s.head.ptr :: rest) rest own own := by
    refine ⟨le_rfl, Or.inl rfl, fun _ _ _ => rfl, fun _ _ _ => rfl, fun u n hn => Or.inl ⟨u, hn⟩,
      fun n hnull hend => ?_⟩
    rcases hend hnull with hmem | ⟨u, hn, hu⟩
    · rcases List.mem_cons.mp hmem with rfl | hmem
      · exact absurd (hlinks.symm.trans hnull) hne
      · exact Or.inl hmem
    · have hut : u ≠ t := by
        rintro rfl
        rw [hpc] at hu
        cases hu
      refine Or.inr ⟨u, hn, ?_⟩
      change (Function.update s.pc t _ u).cleared = true
      rwa [Function.update_of_ne hut]
  refine ⟨hrest, List.mem_of_ne_of_mem hbehind h.tail, fun n hn => h.queued n (List.mem_cons_of_mem _ hn),
    fun u n hn => ?_, h.once, ?_, h.younger, h.stamps, h.distinct, ?_,
    h.alone_update fun _ => h.alone_of_popping hpop, ?_⟩
  · exact (h.owned u n hn).imp_right fun hnot hmem => hnot (List.mem_cons_of_mem _ hmem)
  · have hnil : own t = [] := h.private_of hpc
    exact (Function.forall_update_iff s.pc fun u pc => s.Private pc (own u)).mpr
      ⟨hnil, fun u _ => h.isPrivate u⟩
  · refine (Function.forall_update_iff s.pc fun _ pc => ∀ n ∈ pc.retired,
      n ∈ s.taken ∧ n ∉ rest ∧ ∀ u, n ∉ own u).mpr ⟨?_, fun u hu n hn => ?_⟩
    · rintro n ⟨⟩
      exact ⟨h.queued _ List.mem_cons_self, hnodup.1, fun u hu => (h.owned u _ hu).2 List.mem_cons_self⟩
    · exact absurd (h.alone u t (popping_of_retired hn) hpop) hu
  · exact (Function.forall_update_iff s.pc fun _ pc => AsyncQueue.Ok _ rest own pc).mpr
      ⟨rfl, fun u hu => hevolves.ok h (h.isPrivate u) (h.ok u) fun hpop' =>
        absurd (h.alone u t hpop' hpop) hu⟩

/-- **The former dummy is given back** to the pool. -/
theorem Sound.giveBack (h : s.Sound queue own) {old : ℕ} (hpc : s.pc t = .giveBack old) :
    ({ s.setPc t .shrink with taken := s.taken.erase old } : AsyncQueue T V).Sound queue own := by
  have hpop : (s.pc t).popping = true := by rw [hpc]; rfl
  obtain ⟨htaken, hqueue, hown⟩ := h.retired t old (by rw [hpc]; rfl)
  have hnil : own t = [] := h.private_of hpc
  have hmove : (s.setPc t .shrink).Sound queue own :=
    h.move .shrink hnil (fun hcleared => by rw [hpc] at hcleared; cases hcleared) (fun n hn => by cases hn)
      (fun _ => h.alone_of_popping hpop) trivial
  refine ⟨hmove.chain, hmove.tail, fun n hn => Finset.mem_erase.mpr ⟨?_, hmove.queued n hn⟩,
    fun u n hn => ⟨Finset.mem_erase.mpr ⟨?_, (hmove.owned u n hn).1⟩, (hmove.owned u n hn).2⟩, hmove.once,
    hmove.isPrivate, hmove.younger, fun n hn => hmove.stamps n (Finset.mem_of_mem_erase hn),
    fun m hm n hn => hmove.distinct m (Finset.mem_of_mem_erase hm) n (Finset.mem_of_mem_erase hn), ?_,
    hmove.alone, hmove.ok⟩
  · rintro rfl
    exact hqueue hn
  · rintro rfl
    exact hown u hn
  · refine (Function.forall_update_iff s.pc fun _ pc => ∀ n ∈ pc.retired,
      n ∈ s.taken.erase old ∧ n ∉ queue ∧ ∀ u, n ∉ own u).mpr
      ⟨fun n hn => (by cases hn), fun u hu n hn => ?_⟩
    exact absurd (h.alone u t (popping_of_retired hn) hpop) hu

/-! ### Linking a node -/

/-- The queue after a push has linked its node behind `tail`. -/
def linkNode (s : AsyncQueue T V) (t : T) (node : ℕ) (tail : TaggedPtr) (linked : List (ℕ × V)) :
    AsyncQueue T V :=
  { s.setPc t (.swing node tail) with
    next := Function.update s.next tail.ptr ((s.next tail.ptr).next node)
    linked := linked }

variable {node : ℕ} {tail next : TaggedPtr} {linked : List (ℕ × V)}

theorem links_linkNode : (s.linkNode t node tail linked).links tail.ptr = node := by
  change (Function.update s.next tail.ptr ((s.next tail.ptr).next node) tail.ptr).ptr = node
  rw [Function.update_self]
  rfl

theorem links_linkNode_of_ne {n : ℕ} (hn : n ≠ tail.ptr) :
    (s.linkNode t node tail linked).links n = s.links n := by
  change (Function.update s.next tail.ptr ((s.next tail.ptr).next node) n).ptr = s.links n
  rw [Function.update_of_ne hn]
  rfl

theorem pc_linkNode {u : T} (hu : u ≠ t) : (s.linkNode t node tail linked).pc u = s.pc u :=
  Function.update_of_ne hu ..

omit [DecidableEq T] in
/-- The node at which a push finds a null is not behind its own node. -/
theorem Sound.not_mem_own (h : s.Sound queue own) (hpc : s.pc t = .link node tail next) :
    tail.ptr ∉ own t := by
  intro hmem
  obtain ⟨⟨k, hlt, -, hown, -⟩, -⟩ := h.ok_of hpc
  obtain ⟨hne, hchain⟩ : node ≠ 0 ∧ Chain s.links node (own t) := h.private_of hpc
  have hle := hown t hmem
  obtain ⟨l, hl, -⟩ := hchain.exists_cons hne
  have hyounger := h.younger t
  rw [hl] at hyounger hmem
  rcases List.mem_cons.mp hmem with heq | hbehind
  · rw [heq] at hle
    omega
  · have hlt' := (List.pairwise_cons.mp hyounger).1 _ hbehind
    omega

/-- What the other threads know, when the nodes of a push are put at the end of the chain `tail` is in. -/
theorem Sound.evolves_link (h : s.Sound queue own) (hpc : s.pc t = .link node tail next)
    (hnull : s.links tail.ptr = 0) {queue' : List ℕ} {own' : T → List ℕ}
    (horigin : ∀ u, ∀ n ∈ own' u, ∃ v, n ∈ own v)
    (hends : ∀ n, (n ∈ queue ∨ ∃ u, n ∈ own u ∧ (s.pc u).cleared = true) →
      n ∈ queue' ∨ ∃ u, u ≠ t ∧ n ∈ own' u ∧ (s.pc u).cleared = true) :
    Evolves s (s.linkNode t node tail linked) queue queue' own own' := by
  obtain ⟨hne, -⟩ : node ≠ 0 ∧ Chain s.links node (own t) := h.private_of hpc
  refine ⟨le_rfl, Or.inl rfl, fun n _ hn => links_linkNode_of_ne ?_, fun _ _ _ => rfl,
    fun u n hn => Or.inl (horigin u n hn), fun n hend hold => ?_⟩
  · rintro rfl
    exact hn hnull
  · have hn : n ≠ tail.ptr := by
      rintro rfl
      rw [links_linkNode] at hend
      exact hne hend
    rw [links_linkNode_of_ne hn] at hend
    refine (hends n (hold hend)).imp_right ?_
    rintro ⟨u, hut, hmem, hcleared⟩
    exact ⟨u, hmem, by rwa [pc_linkNode hut]⟩

/-- What the thread that linked its node knows, and what the others do. -/
theorem Evolves.ok_link {queue' : List ℕ} {own' : T → List ℕ}
    (hevolves : Evolves s (s.linkNode t node tail linked) queue queue' own own')
    (h : s.Sound queue own) (hpc : s.pc t = .link node tail next) (u : T) :
    (s.linkNode t node tail linked).Ok queue' own' ((s.linkNode t node tail linked).pc u) := by
  obtain ⟨-, htag, -⟩ := h.ok_of hpc
  obtain ⟨hne, -⟩ : node ≠ 0 ∧ Chain s.links node (own t) := h.private_of hpc
  by_cases hut : u = t
  · rw [hut]
    change AsyncQueue.Ok _ queue' own' (Function.update s.pc t _ t)
    rw [Function.update_self]
    exact ⟨htag, fun _ => ⟨links_linkNode, hne⟩⟩
  · rw [pc_linkNode hut]
    exact hevolves.ok h (h.isPrivate u) (h.ok u) fun _ => rfl

theorem Sound.retired_link (h : s.Sound queue own) {queue' : List ℕ} {own' : T → List ℕ}
    (hqueue : ∀ n ∈ queue', n ∈ queue ∨ ∃ v, n ∈ own v) (hown : ∀ u, ∀ n ∈ own' u, ∃ v, n ∈ own v) (u : T) :
    ∀ n ∈ ((s.linkNode t node tail linked).pc u).retired, n ∈ s.taken ∧ n ∉ queue' ∧ ∀ v, n ∉ own' v := by
  refine (Function.forall_update_iff s.pc fun _ pc => ∀ n ∈ pc.retired,
    n ∈ s.taken ∧ n ∉ queue' ∧ ∀ v, n ∉ own' v).mpr ⟨fun n hn => (by cases hn), fun v _ n hn => ?_⟩ u
  obtain ⟨htaken, hnot, hnotown⟩ := h.retired v n hn
  refine ⟨htaken, fun hmem => ?_, fun w hw => ?_⟩
  · rcases hqueue n hmem with hold | ⟨w, hw⟩
    · exact hnot hold
    · exact hnotown w hw
  · obtain ⟨x, hx⟩ := hown w n hw
    exact hnotown x hx

/-- **A push links its node behind the queue.** -/
theorem Sound.link_queue (h : s.Sound queue own) (hpc : s.pc t = .link node tail next)
    (hnull : s.links tail.ptr = 0) (hmem : tail.ptr ∈ queue) :
    (s.linkNode t node tail linked).Sound (queue ++ own t) (Function.update own t []) := by
  obtain ⟨hne, hchain⟩ : node ≠ 0 ∧ Chain s.links node (own t) := h.private_of hpc
  have hnot := h.not_mem_own hpc
  obtain ⟨l, rfl⟩ := h.chain.exists_concat hmem hnull
  have hnodup := h.chain.nodup
  have hlast : tail.ptr ∉ l := fun hl => by
    have hdisjoint := (List.nodup_append.mp hnodup).2.2 _ hl _ (List.mem_singleton_self _)
    exact hdisjoint rfl
  have hown : ∀ u, ∀ n ∈ Function.update own t [] u, u ≠ t ∧ n ∈ own u := by
    refine (Function.forall_update_iff own fun u l => ∀ n ∈ l, u ≠ t ∧ n ∈ own u).mpr
      ⟨fun n hn => (by cases hn), fun u hu n hn => ⟨hu, hn⟩⟩
  have hends : ∀ n, (n ∈ l ++ [tail.ptr] ∨ ∃ u, n ∈ own u ∧ (s.pc u).cleared = true) →
      n ∈ l ++ [tail.ptr] ++ own t ∨
        ∃ u, u ≠ t ∧ n ∈ Function.update own t [] u ∧ (s.pc u).cleared = true := by
    rintro n (hold | ⟨u, hu, hcleared⟩)
    · exact Or.inl (List.mem_append_left _ hold)
    · by_cases hut : u = t
      · exact Or.inl (List.mem_append_right _ (hut ▸ hu))
      · exact Or.inr ⟨u, hut, by rwa [Function.update_of_ne hut], hcleared⟩
  have hevolves : Evolves s (s.linkNode t node tail linked) (l ++ [tail.ptr]) (l ++ [tail.ptr] ++ own t) own
      (Function.update own t []) :=
    h.evolves_link hpc hnull (fun u n hn => ⟨u, (hown u n hn).2⟩) hends
  refine ⟨?_, List.mem_append_left _ h.tail, fun n hn => ?_, fun u n hn => ?_, fun u v n hu hv => ?_, ?_, ?_,
    h.stamps, h.distinct, ?_, h.alone_update fun hpop => (by cases hpop), hevolves.ok_link h hpc⟩
  · refine h.chain.append (fun m hm => links_linkNode_of_ne ?_) links_linkNode
      (hchain.congr fun n hn => links_linkNode_of_ne ?_)
    · rintro rfl
      exact hlast hm
    · rintro rfl
      exact hnot hn
  · rcases List.mem_append.mp hn with hold | hnew
    · exact h.queued n hold
    · exact (h.owned t n hnew).1
  · obtain ⟨hut, hold⟩ := hown u n hn
    refine ⟨(h.owned u n hold).1, fun hqueue => ?_⟩
    rcases List.mem_append.mp hqueue with hqueue | hnew
    · exact (h.owned u n hold).2 hqueue
    · exact hut (h.once u t n hold hnew)
  · exact h.once u v n (hown u n hu).2 (hown v n hv).2
  · intro u
    by_cases hut : u = t
    · rw [hut, Function.update_self]
      change AsyncQueue.Private _ (Function.update s.pc t _ t) []
      rw [Function.update_self]
      rfl
    · rw [Function.update_of_ne hut, pc_linkNode hut]
      refine (h.isPrivate u).congr fun n hn => links_linkNode_of_ne ?_
      rintro rfl
      exact (h.owned u _ hn).2 hmem
  · exact (Function.forall_update_iff own fun _ l => l.Pairwise fun m n => s.stamp n < s.stamp m).mpr
      ⟨List.Pairwise.nil, fun u _ => h.younger u⟩
  · refine h.retired_link (fun n hn => ?_) fun u n hn => ⟨u, (hown u n hn).2⟩
    exact (List.mem_append.mp hn).imp_right fun hnew => ⟨t, hnew⟩

/-- **A push links its node behind that of another push**, which was handed out again. -/
theorem Sound.link_own (h : s.Sound queue own) (hpc : s.pc t = .link node tail next)
    (hnull : s.links tail.ptr = 0) {u : T} (hmem : tail.ptr ∈ own u) (hcleared : (s.pc u).cleared = true) :
    u ≠ t ∧ (s.linkNode t node tail linked).Sound queue
      (Function.update (Function.update own u (own u ++ own t)) t []) := by
  obtain ⟨hne, hchain⟩ : node ≠ 0 ∧ Chain s.links node (own t) := h.private_of hpc
  obtain ⟨⟨k, hlt, -, hseen, -⟩, -⟩ := h.ok_of hpc
  have hnot := h.not_mem_own hpc
  have hut : u ≠ t := by
    rintro rfl
    exact hnot hmem
  obtain ⟨hqueue, hchain'⟩ := h.owned u _ hmem
  have hown : ∀ v, ∀ n ∈ Function.update (Function.update own u (own u ++ own t)) t [] v,
      v ≠ t ∧ (n ∈ own v ∨ v = u ∧ n ∈ own t) := by
    intro v n hn
    by_cases hvt : v = t
    · rw [hvt, Function.update_self] at hn
      cases hn
    · rw [Function.update_of_ne hvt] at hn
      refine ⟨hvt, ?_⟩
      by_cases hvu : v = u
      · rw [hvu, Function.update_self] at hn
        rcases List.mem_append.mp hn with hold | hnew
        · exact Or.inl (hvu ▸ hold)
        · exact Or.inr ⟨hvu, hnew⟩
      · rw [Function.update_of_ne hvu] at hn
        exact Or.inl hn
  have horigin : ∀ v, ∀ n ∈ Function.update (Function.update own u (own u ++ own t)) t [] v,
      ∃ w, n ∈ own w := by
    intro v n hn
    rcases (hown v n hn).2 with hold | ⟨-, hnew⟩
    · exact ⟨v, hold⟩
    · exact ⟨t, hnew⟩
  have hends : ∀ n, (n ∈ queue ∨ ∃ v, n ∈ own v ∧ (s.pc v).cleared = true) →
      n ∈ queue ∨ ∃ v, v ≠ t ∧ n ∈ Function.update (Function.update own u (own u ++ own t)) t [] v ∧
        (s.pc v).cleared = true := by
    rintro n (hold | ⟨v, hv, hc⟩)
    · exact Or.inl hold
    · right
      by_cases hvt : v = t
      · refine ⟨u, hut, ?_, hcleared⟩
        rw [Function.update_of_ne hut, Function.update_self]
        exact List.mem_append_right _ (hvt ▸ hv)
      · refine ⟨v, hvt, ?_, hc⟩
        rw [Function.update_of_ne hvt]
        by_cases hvu : v = u
        · rw [hvu, Function.update_self]
          exact List.mem_append_left _ (hvu ▸ hv)
        · rwa [Function.update_of_ne hvu]
  have hevolves : Evolves s (s.linkNode t node tail linked) queue queue own
      (Function.update (Function.update own u (own u ++ own t)) t []) :=
    h.evolves_link hpc hnull horigin hends
  obtain ⟨l, hl, hnodup⟩ := (h.isPrivate u).exists_concat hcleared hmem hnull
  have hyounger := h.younger u
  rw [hl] at hnodup hyounger
  have hlast : tail.ptr ∉ l := fun hin =>
    (List.nodup_append.mp hnodup).2.2 _ hin _ (List.mem_singleton_self _) rfl
  have holdest : ∀ m ∈ own u, s.stamp tail.ptr ≤ s.stamp m := by
    intro m hm
    rw [hl] at hm
    rcases List.mem_append.mp hm with hin | hin
    · exact ((List.pairwise_append.mp hyounger).2.2 m hin _ (List.mem_singleton_self _)).le
    · rw [List.mem_singleton.mp hin]
  have hnewest : ∀ n ∈ own t, s.stamp n ≤ s.stamp node := by
    intro n hn
    obtain ⟨l', hl', -⟩ := hchain.exists_cons hne
    have hyounger' := h.younger t
    rw [hl'] at hyounger' hn
    rcases List.mem_cons.mp hn with rfl | hin
    · exact le_rfl
    · exact ((List.pairwise_cons.mp hyounger').1 n hin).le
  refine ⟨hut, h.chain.congr fun n hn => links_linkNode_of_ne ?_, h.tail, h.queued, fun v n hn => ?_,
    fun v w n hv hw => ?_, fun v => ?_, fun v => ?_, h.stamps, h.distinct, ?_,
    h.alone_update fun hpop => (by cases hpop), hevolves.ok_link h hpc⟩
  · rintro rfl
    exact hchain' hn
  · rcases (hown v n hn).2 with hold | ⟨-, hnew⟩
    · exact h.owned v n hold
    · exact h.owned t n hnew
  · obtain ⟨hvt, hold | ⟨hvu, hnew⟩⟩ := hown v n hv
    · obtain ⟨hwt, hold' | ⟨hwu, hnew'⟩⟩ := hown w n hw
      · exact h.once v w n hold hold'
      · exact absurd (h.once v t n hold hnew') hvt
    · obtain ⟨hwt, hold' | ⟨hwu, hnew'⟩⟩ := hown w n hw
      · exact absurd (h.once w t n hold' hnew) hwt
      · rw [hvu, hwu]
  · by_cases hvt : v = t
    · rw [hvt, Function.update_self]
      change AsyncQueue.Private _ (Function.update s.pc t _ t) []
      rw [Function.update_self]
      rfl
    rw [Function.update_of_ne hvt, pc_linkNode hvt]
    by_cases hvu : v = u
    · rw [hvu, Function.update_self]
      have hprivate := h.isPrivate u
      rw [hl] at hprivate ⊢
      refine hprivate.append hcleared (fun m hm => links_linkNode_of_ne ?_) links_linkNode
        (hchain.congr fun n hn => links_linkNode_of_ne ?_)
      · rintro rfl
        exact hlast hm
      · rintro rfl
        exact hnot hn
    · rw [Function.update_of_ne hvu]
      refine (h.isPrivate v).congr fun n hn => links_linkNode_of_ne ?_
      rintro rfl
      exact hvu (h.once v u _ hn hmem)
  · by_cases hvt : v = t
    · rw [hvt, Function.update_self]
      exact List.Pairwise.nil
    rw [Function.update_of_ne hvt]
    by_cases hvu : v = u
    · rw [hvu, Function.update_self]
      refine List.pairwise_append.mpr ⟨h.younger u, h.younger t, fun m hm n hn => ?_⟩
      change s.stamp n < s.stamp m
      have hm' := holdest m hm
      have hn' := hnewest n hn
      have hk := hseen u hmem
      omega
    · rw [Function.update_of_ne hvu]
      exact h.younger v
  · exact h.retired_link (fun n hn => Or.inl hn) horigin

end AsyncQueue

end VeritableLasagna
