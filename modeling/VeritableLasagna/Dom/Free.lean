import VeritableLasagna.Dom.Tree

/-!
# Freeing a forest

`vl_MsgPackFreeChildren` takes the nodes below a node out of the table, and frees the blocks of the
leaves it passes. What it does is `Freed`: the nodes of the forest are gone and no others, the blocks of
its leaves are gone, the slot tables of its arrays are not, and the arena is broken if there was a leaf
with no bytes, whose block is `VL_ARENA_NULL`.
-/

namespace VeritableLasagna

/-! ### Single steps -/

namespace VlMsgPack

/-- `vlHashTableRemoveIter`, of a node that is there. -/
def drop (pack : VlMsgPack) (iter : ℕ) : VlMsgPack :=
  { pack with nodes := pack.nodes.erase iter }

/-- Free a block. -/
def free (pack : VlMsgPack) (ptr : ℕ) : VlMsgPack :=
  { pack with values := pack.values.memFree ptr }

/-- Write a block. -/
def setBlock (pack : VlMsgPack) (ptr : ℕ) (b : VlValueBlock) : VlMsgPack :=
  { pack with values := { pack.values with store := pack.values.store.modify ptr fun _ => b } }

variable {pack : VlMsgPack} {i j q r : ℕ} {n : VlMsgPackNode} {b b' : VlValueBlock}

theorem removeIter_eq (h : pack.node i ≠ none) :
    pack.nodes.removeIter i = .ok (pack.drop i).nodes := by
  obtain ⟨n, hn⟩ := Option.ne_none_iff_exists'.mp h
  have hget : pack.nodes.store.get i = some n := hn
  rw [VlNodeTable.removeIter, hget]
  rfl

@[simp] theorem node_drop_self : (pack.drop i).node i = none := Store.get_erase_self

@[simp] theorem node_drop_of_ne (h : j ≠ i) : (pack.drop i).node j = pack.node j :=
  Store.get_erase_of_ne h

@[simp] theorem values_drop : (pack.drop i).values = pack.values := rfl

@[simp] theorem nodes_free : (pack.free q).nodes = pack.nodes := rfl

@[simp] theorem nodes_setBlock : (pack.setBlock q b).nodes = pack.nodes := rfl

@[simp] theorem broken_setBlock : (pack.setBlock q b).values.broken = pack.values.broken := rfl

theorem block_setBlock_self (pack : VlMsgPack) (h : pack.block q = some b') :
    (pack.setBlock q b).block q = some b := by
  have hget : pack.values.store.get q = some b' := h
  rw [block, setBlock, Store.get_modify_self, hget, Option.map_some]

@[simp] theorem block_setBlock_of_ne (h : r ≠ q) : (pack.setBlock q b).block r = pack.block r :=
  Store.get_modify_of_ne h

theorem block_free_of_ne (h : r ≠ q) : (pack.free q).block r = pack.block r := by
  rw [free, block, VlValueArena.memFree]
  split
  · exact Store.get_erase_of_ne h
  · rfl

theorem block_free_self : (pack.free q).block q = none := by
  rw [free, block, VlValueArena.memFree]
  split
  · exact Store.get_erase_self
  · assumption

/-- Freeing a live block breaks nothing. -/
theorem broken_free (h : pack.block q ≠ none) :
    (pack.free q).values.broken = pack.values.broken := by
  rw [free, VlValueArena.memFree]
  split
  · rfl
  · rename_i hnone
    exact absurd hnone h

/-- Freeing a block that is not there does. -/
theorem broken_free_of_none (h : pack.block q = none) : (pack.free q).values.broken = true := by
  rw [free, VlValueArena.memFree]
  split
  · rename_i hsome
    rw [block, hsome] at h
    cases h
  · rfl

theorem slot_eq {l₁ l₂ : List ℕ} {x : ℕ} (h : pack.block q = some (.slots (l₁ ++ x :: l₂))) :
    pack.values.slot q l₁.length = .ok x := by
  have hget : pack.values.store.get q = some (.slots (l₁ ++ x :: l₂)) := h
  rw [VlValueArena.slot, hget]
  simp only [List.getElem?_append_right le_rfl, Nat.sub_self, List.getElem?_cons_zero]

theorem setSlot_eq {l₁ l₂ : List ℕ} {x y : ℕ} (h : pack.block q = some (.slots (l₁ ++ x :: l₂))) :
    pack.values.setSlot q l₁.length y =
      .ok (pack.setBlock q (.slots (l₁ ++ y :: l₂))).values := by
  have hget : pack.values.store.get q = some (.slots (l₁ ++ x :: l₂)) := h
  have hset : (l₁ ++ x :: l₂).set l₁.length y = l₁ ++ y :: l₂ := by
    rw [List.set_append_right _ _ le_rfl, Nat.sub_self, List.set_cons_zero]
  rw [VlValueArena.setSlot, hget]
  simp only [List.length_append, List.length_cons, hset]
  rw [if_pos (by omega)]
  rfl

end VlMsgPack

/-! ### What freeing does -/

/-- The nodes `is` are gone, and the blocks of the leaves of `f`; the slot tables of `f` are left over,
and nothing is known of the blocks `own`. -/
structure VlMsgPack.Freed (pack pack' : VlMsgPack) (is : List ℕ) (f : Forest DomEntry)
    (own : List ℕ) : Prop where
  gone : ∀ i ∈ is, pack'.node i = none
  kept : ∀ i ∉ is, pack'.node i = pack.node i
  block : ∀ q ∉ f.blocks, q ∉ own → pack'.block q = pack.block q
  freed : ∀ q ∈ f.blocks, pack'.block q ≠ none ↔ q ∈ f.tables
  broken : pack'.values.broken = (pack.values.broken || f.erase.hollow)

section Freed

variable {pack pack₁ pack₂ : VlMsgPack} {f g below rest : Forest DomEntry} {a : DomEntry}
  {is js own : List ℕ} {i : ℕ}

theorem VlMsgPack.Freed.nil : pack.Freed pack [] .nil own :=
  ⟨fun _ h => absurd h List.not_mem_nil, fun _ _ => rfl, fun _ _ _ => rfl,
    fun _ h => absurd h List.not_mem_nil, (Bool.or_false _).symm⟩

/-- One forest, then another with other blocks. -/
theorem VlMsgPack.Freed.trans (h₁ : pack.Freed pack₁ is f own) (h₂ : pack₁.Freed pack₂ js g own)
    (hdisj : f.blocks.Disjoint g.blocks) (hf : ∀ q ∈ f.blocks, q ∉ own) :
    pack.Freed pack₂ (is ++ js) (f ++ g) own := by
  refine ⟨fun i hi => ?_, fun i hi => ?_, fun q hq hown => ?_, fun q hq => ?_, ?_⟩
  · by_cases hj : i ∈ js
    · exact h₂.gone i hj
    · rw [h₂.kept i hj, h₁.gone i ((List.mem_append.mp hi).resolve_right hj)]
  · rw [List.mem_append, not_or] at hi
    rw [h₂.kept i hi.2, h₁.kept i hi.1]
  · rw [Forest.blocks_append, List.mem_append, not_or] at hq
    rw [h₂.block q hq.2 hown, h₁.block q hq.1 hown]
  · rw [Forest.mem_tables_append]
    rw [Forest.blocks_append, List.mem_append] at hq
    rcases hq with hq | hq
    · rw [h₂.block q (hdisj hq) (hf q hq), h₁.freed q hq, or_iff_left]
      exact fun hg => hdisj hq (Forest.mem_blocks_of_mem_tables hg)
    · rw [h₂.freed q hq, or_iff_right]
      exact fun hf' => hdisj (Forest.mem_blocks_of_mem_tables hf') hq
  · rw [h₂.broken, h₁.broken, Forest.erase_append, Forest.hollow_append, Bool.or_assoc]

/-- A node that is taken out after the nodes below it. -/
theorem VlMsgPack.Freed.drop (i : ℕ) (h : pack.Freed pack₁ is f own) :
    pack.Freed (pack₁.drop i) (i :: is) f own := by
  refine ⟨fun j hj => ?_, fun j hj => ?_, h.block, h.freed, h.broken⟩
  · rcases eq_or_ne j i with rfl | hne
    · exact VlMsgPack.node_drop_self
    · rw [VlMsgPack.node_drop_of_ne hne]
      exact h.gone j ((List.mem_cons.mp hj).resolve_left hne)
  · rw [List.mem_cons, not_or] at hj
    rw [VlMsgPack.node_drop_of_ne hj.1, h.kept j hj.2]

/-- Less may be known of the blocks. -/
theorem VlMsgPack.Freed.mono (own : List ℕ) (h : pack.Freed pack₁ is f []) :
    pack.Freed pack₁ is f own :=
  ⟨h.gone, h.kept, fun q hq _ => h.block q hq List.not_mem_nil, h.freed, h.broken⟩

end Freed

/-! ### The recursion -/

section FreeChildren

variable {pack : VlMsgPack} {parent prev next array n rounds : ℕ} {hash : UInt64} {a : DomEntry}
  {f kids : Forest DomEntry} {e : VlMsgPackElement} {l : List ℕ}

/-- The loop over the children of a map frees the forest. -/
def FreesLinks (f : Forest DomEntry) : Prop :=
  ∀ {pack : VlMsgPack} {parent prev n rounds : ℕ} {hash : UInt64},
    DomLinked pack parent hash prev 0 f → f.Proper → f.depth ≤ rounds → f.length < n →
    Returns (vlMsgPackFreeLinks (vlMsgPackFreeChildren rounds) n (f.firstIter 0) pack) fun pack' =>
      pack.Freed pack' f.iters f []

/-- The loop over the slots of an array frees the forest, and keeps the slot table. -/
def FreesSlots (f : Forest DomEntry) : Prop :=
  ∀ {pack : VlMsgPack} {parent prev next rounds array : ℕ} {hash : UInt64} {l : List ℕ},
    DomLinked pack parent hash prev next f → f.Proper → f.depth ≤ rounds → array ∉ f.blocks →
    (f.length ≠ 0 → pack.block array = some (.slots (l ++ f.roots.map DomEntry.iter))) →
    Returns (vlMsgPackFreeSlots (vlMsgPackFreeChildren rounds) array f.length l.length pack)
      fun pack' => pack.Freed pack' f.iters f [array] ∧
        (pack.block array ≠ none → pack'.block array ≠ none)

/-- **What is below a node**, by its type: nothing, its payload, its list, its slots. -/
theorem vlMsgPackFreeChildren_node (he : a.Stored pack parent hash prev next kids e)
    (hkids : DomLinked pack a.iter (a.node.hash hash) 0 0 kids) (hproper : (Forest.cons a kids f).Proper)
    (hrounds : kids.depth < rounds) (hlinks : FreesLinks kids) (hslots : FreesSlots kids) :
    Returns (vlMsgPackFreeChildren rounds pack a.iter) fun pack' =>
      pack.Freed pack' kids.iters (.cons a kids .nil) [] := by
  obtain ⟨hk, -, -, hptr⟩ := Forest.proper_single.mp (Forest.proper_cons.mp hproper).1
  obtain ⟨rounds, rfl⟩ := Nat.exists_eq_succ_of_ne_zero (by omega : rounds ≠ 0)
  rw [vlMsgPackFreeChildren, VlMsgPack.sample_eq he.get, ok_bind]
  simp only [he.type]
  cases he.fits with
  | nil type payload ptr hnil =>
    rw [type, hnil]
    refine returns_ok ⟨fun _ h => absurd h List.not_mem_nil, fun _ _ => rfl, fun _ _ _ => rfl, ?_, ?_⟩
    · intro q hq
      simp [ptr] at hq
    · have hhollow : a.node.hollow = false := by simp [DomNode.hollow, VlMsgPackType.IsLeaf, type]
      simp [hhollow]
  | leaf type first hnil ptr block =>
    suffices hcase : pack.Freed (pack.free a.ptr) kids.iters (.cons a kids .nil) [] by
      obtain ⟨hnil, hmap, harray⟩ := type
      rw [first]
      split <;> first | contradiction | exact returns_ok hcase
    rw [hnil]
    refine ⟨fun _ h => absurd h List.not_mem_nil, fun _ _ => rfl, fun q hq _ => ?_, fun q hq => ?_, ?_⟩
    · rcases eq_or_ne q a.ptr with rfl | hne
      · have hzero : a.ptr = 0 := by
          by_contra hne
          exact hq (Forest.mem_blocks_cons.mpr (Or.inl ⟨rfl, hne⟩))
        rw [VlMsgPack.block_free_self, hzero, VlMsgPack.block_zero]
      · exact VlMsgPack.block_free_of_ne hne
    · obtain ⟨rfl, hne⟩ : q = a.ptr ∧ a.ptr ≠ 0 := by simpa using hq
      rw [VlMsgPack.block_free_self]
      have harray := type.2.2
      simp [harray]
    · by_cases hzero : a.ptr = 0
      · have hhollow : a.node.hollow = true := by simp [DomNode.hollow, type, ptr.mp hzero]
        have hdead : pack.block a.ptr = none := by rw [hzero, VlMsgPack.block_zero]
        rw [VlMsgPack.broken_free_of_none hdead]
        simp [hhollow]
      · have hhollow : a.node.hollow = false := by simp [DomNode.hollow, mt ptr.mpr hzero]
        have hlive : pack.block a.ptr ≠ none := by
          rw [block hzero]
          exact Option.some_ne_none _
        rw [VlMsgPack.broken_free hlive]
        simp [hhollow]
  | map type payload ptr first second length totalChildren keys =>
    rw [type]
    have hn : kids.length < pack.rounds := Nat.lt_of_le_of_lt Forest.length_le_length_iters
      (VlMsgPack.length_lt_rounds hk.nodup fun i hi => hkids.node_ne_none hi)
    simp only [first]
    refine (hlinks hkids hk (Nat.le_of_lt_succ hrounds) hn).mono fun pack' hfreed => ?_
    refine ⟨hfreed.gone, hfreed.kept, fun q hq hown => hfreed.block q ?_ hown, fun q hq => ?_, ?_⟩
    · exact fun hq' => hq (Forest.mem_blocks_cons.mpr (Or.inr (Or.inl hq')))
    · have hq' : q ∈ kids.blocks := by simpa [ptr] using hq
      rw [hfreed.freed q hq']
      simp [ptr]
    · have hhollow : a.node.hollow = false := by simp [DomNode.hollow, VlMsgPackType.IsLeaf, type]
      rw [hfreed.broken]
      simp [hhollow]
  | array type payload first second length keys ptr block =>
    rw [type]
    simp only [first, second]
    have hblock : kids.length ≠ 0 →
        pack.block a.ptr = some (.slots ([] ++ kids.roots.map DomEntry.iter)) := fun hne =>
      block (mt ptr.mp hne)
    refine (hslots hkids hk (Nat.le_of_lt_succ hrounds) hptr hblock).mono ?_
    rintro pack' ⟨hfreed, hkept⟩
    have hhollow : a.node.hollow = false := by simp [DomNode.hollow, VlMsgPackType.IsLeaf, type]
    refine ⟨hfreed.gone, hfreed.kept, fun q hq _ => ?_, fun q hq => ?_, ?_⟩
    · rw [Forest.mem_blocks_cons, not_or, not_or] at hq
      rcases eq_or_ne q a.ptr with rfl | hne
      · have hzero : a.ptr = 0 := by
          by_contra hne
          exact hq.1 ⟨rfl, hne⟩
        rw [hzero, VlMsgPack.block_zero, VlMsgPack.block_zero]
      · exact hfreed.block q hq.2.1 fun hmem => hne (List.mem_singleton.mp hmem)
    · rcases Forest.mem_blocks_cons.mp hq with ⟨rfl, hne⟩ | hq | hq
      · refine iff_of_true (hkept ?_) (Forest.mem_tables_cons.mpr (Or.inl ⟨rfl, hne, type⟩))
        rw [block hne]
        exact Option.some_ne_none _
      · have hne : q ≠ a.ptr := fun heq => hptr (heq ▸ hq)
        rw [hfreed.freed q hq]
        simp [hne]
      · exact absurd hq List.not_mem_nil
    · rw [hfreed.broken]
      simp [hhollow]

/-- **Freeing a forest**, along its links and along the slots that hold its roots. The induction is on
the forest: what is below the first tree and what is behind it. -/
theorem vlMsgPackFreeChildren_forest (f : Forest DomEntry) : FreesLinks f ∧ FreesSlots f := by
  induction f with
  | nil =>
    refine ⟨fun _ _ _ hn => ?_, fun _ _ _ _ _ => returns_ok ⟨.nil, id⟩⟩
    obtain ⟨n, rfl⟩ := Nat.exists_eq_succ_of_ne_zero (Nat.ne_zero_of_lt hn)
    exact returns_ok .nil
  | cons a kids rest ih₁ ih₂ =>
    constructor
    · intro pack parent prev n rounds hash hlinked hproper hdepth hn
      obtain ⟨⟨e, he⟩, hkids, hrest⟩ := hlinked
      obtain ⟨hfirst, hproper', hdisj, hblocks⟩ := Forest.proper_cons.mp hproper
      obtain ⟨-, hiter, hnot, -⟩ := Forest.proper_single.mp hfirst
      obtain ⟨n, rfl⟩ := Nat.exists_eq_succ_of_ne_zero (Nat.ne_zero_of_lt hn)
      rw [Forest.depth] at hdepth
      obtain ⟨pack₁, hrun, hfreed⟩ := vlMsgPackFreeChildren_node he hkids hfirst
        (by omega : kids.depth < rounds) ih₁.1 ih₁.2
      have hget : pack₁.node a.iter = _ := (hfreed.kept _ hnot).trans he.get
      have hdropped := hfreed.drop a.iter
      have hiters : a.iter :: kids.iters = (Forest.cons a kids .nil).iters := by simp
      rw [hiters] at hdropped
      have hrest' : DomLinked (pack₁.drop a.iter) parent hash a.iter 0 rest := by
        refine hrest.congr (fun i hi => hdropped.kept i fun hmem => hdisj hmem hi) fun q hq => ?_
        exact hdropped.block q (fun hmem => hblocks hmem hq) List.not_mem_nil
      obtain ⟨pack₂, hrun', hfreed'⟩ := ih₂.1 (n := n) hrest' hproper' (by omega : rest.depth ≤ rounds)
        (Nat.lt_of_succ_lt_succ hn)
      refine ⟨pack₂, ?_, ?_⟩
      · rw [Forest.firstIter_cons, vlMsgPackFreeLinks, if_neg hiter, hrun, ok_bind,
          VlMsgPack.sample_eq hget, ok_bind, VlMsgPack.removeIter_eq (by rw [hget]; simp), ok_bind]
        simp only [he.next]
        exact hrun'
      · have hall := hdropped.trans hfreed' hblocks fun _ _ => List.not_mem_nil
        rwa [← Forest.iters_append] at hall
    · intro pack parent prev next rounds array hash l hlinked hproper hdepth harray hblock
      obtain ⟨⟨e, he⟩, hkids, hrest⟩ := hlinked
      obtain ⟨hfirst, hproper', hdisj, hblocks⟩ := Forest.proper_cons.mp hproper
      obtain ⟨-, hiter, hnot, -⟩ := Forest.proper_single.mp hfirst
      rw [Forest.depth] at hdepth
      have harray₁ : array ∉ (Forest.cons a kids .nil).blocks := fun hmem =>
        harray (by simpa using Or.imp_right Or.inl (by simpa using hmem))
      have harray₂ : array ∉ rest.blocks := fun hmem => harray (by simp [hmem])
      have hslots : pack.block array = some (.slots (l ++ a.iter :: rest.roots.map DomEntry.iter)) :=
        hblock (Nat.succ_ne_zero _)
      obtain ⟨pack₁, hrun, hfreed⟩ := vlMsgPackFreeChildren_node he hkids hfirst
        (by omega : kids.depth < rounds) ih₁.1 ih₁.2
      have hget : pack₁.node a.iter = _ := (hfreed.kept _ hnot).trans he.get
      have hslots₁ : pack₁.block array = _ :=
        (hfreed.block array harray₁ List.not_mem_nil).trans hslots
      have hset : ((pack₁.drop a.iter).setBlock array
          (.slots (l ++ 0 :: rest.roots.map DomEntry.iter))).block array = _ :=
        VlMsgPack.block_setBlock_self (pack₁.drop a.iter) hslots₁
      have hdropped : pack.Freed ((pack₁.drop a.iter).setBlock array
          (.slots (l ++ 0 :: rest.roots.map DomEntry.iter))) (Forest.cons a kids .nil).iters
          (.cons a kids .nil) [array] := by
        have hfreed' := (hfreed.drop a.iter).mono [array]
        have hiters : a.iter :: kids.iters = (Forest.cons a kids .nil).iters := by simp
        rw [hiters] at hfreed'
        refine ⟨hfreed'.gone, hfreed'.kept, fun q hq hown => ?_, fun q hq => ?_, hfreed'.broken⟩
        · have hne : q ≠ array := fun heq => hown (List.mem_singleton.mpr heq)
          rw [VlMsgPack.block_setBlock_of_ne hne]
          exact hfreed'.block q hq hown
        · have hne : q ≠ array := fun heq => harray₁ (heq ▸ hq)
          rw [VlMsgPack.block_setBlock_of_ne hne]
          exact hfreed'.freed q hq
      have hrest' : DomLinked _ parent hash a.iter next rest :=
        hrest.congr (fun i hi => hdropped.kept i fun hmem => hdisj hmem hi) fun q hq =>
          hdropped.block q (fun hmem => hblocks hmem hq) fun hmem =>
            harray₂ (List.mem_singleton.mp hmem ▸ hq)
      have hzeroed : ((pack₁.drop a.iter).setBlock array
          (.slots (l ++ 0 :: rest.roots.map DomEntry.iter))).block array =
            some (.slots ((l ++ [0]) ++ rest.roots.map DomEntry.iter)) := by
        rw [hset, List.append_assoc]
        rfl
      obtain ⟨pack₂, hrun', hfreed', hkept⟩ := ih₂.2 hrest' hproper' (by omega : rest.depth ≤ rounds)
        harray₂ fun _ => hzeroed
      refine ⟨pack₂, ?_, ?_, fun _ => hkept ?_⟩
      · rw [Forest.length_cons, vlMsgPackFreeSlots, VlMsgPack.slot_eq hslots, ok_bind, hrun, ok_bind,
          VlMsgPack.removeIter_eq (by rw [hget]; simp), ok_bind, VlMsgPack.setSlot_eq hslots₁, ok_bind]
        rw [List.length_append, List.length_singleton] at hrun'
        exact hrun'
      · have hall := hdropped.trans hfreed' hblocks fun q hq hown =>
          harray₁ (List.mem_singleton.mp hown ▸ hq)
        rwa [← Forest.iters_append] at hall
      · rw [hset]
        exact Option.some_ne_none _

/-- **`vl_MsgPackFreeChildren`**, of any entry of a forest. -/
theorem vlMsgPackFreeChildren_spec (he : a.Stored pack parent hash prev next kids e)
    (hkids : DomLinked pack a.iter (a.node.hash hash) 0 0 kids)
    (hproper : (Forest.cons a kids f).Proper) :
    Returns (vlMsgPackFreeChildren pack.rounds pack a.iter) fun pack' =>
      pack.Freed pack' kids.iters (.cons a kids .nil) [] := by
  have hrounds : kids.depth < pack.rounds := Nat.lt_of_le_of_lt Forest.depth_le_length_iters
    (VlMsgPack.length_lt_rounds (Forest.proper_single.mp (Forest.proper_cons.mp hproper).1).1.nodup
      fun i hi => hkids.node_ne_none hi)
  obtain ⟨hlinks, hslots⟩ := vlMsgPackFreeChildren_forest kids
  exact vlMsgPackFreeChildren_node he hkids hproper hrounds hlinks hslots

end FreeChildren

end VeritableLasagna
