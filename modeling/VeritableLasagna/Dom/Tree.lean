import VeritableLasagna.Dom.Basic
import VeritableLasagna.Lib.Forest

/-!
# The tree a document stands for

The nodes below a node form a `Forest` of entries: what the node is (`DomNode`), its iterator, and the
handle of its block of the values. `DomLinked` says that the elements of the table are this forest:
siblings linked in both directions, parents, keys behind the hash of the parent, and for every entry
what its type asks for (`Fits`). A forest can be cut between two trees (`domLinked_append`), and only
depends on its own nodes and blocks (`DomLinked.congr`).
-/

namespace VeritableLasagna

/-! ### Nodes and blocks -/

namespace VlMsgPack

/-- The node of an iterator. -/
abbrev node (pack : VlMsgPack) (iter : ℕ) : Option VlMsgPackNode := pack.nodes.store.get iter

/-- The block of a handle. -/
abbrev block (pack : VlMsgPack) (ptr : ℕ) : Option VlValueBlock := pack.values.store.get ptr

/-- Write to the element of a node. -/
def edit (pack : VlMsgPack) (iter : ℕ) (g : VlMsgPackElement → VlMsgPackElement) : VlMsgPack :=
  { pack with nodes := pack.nodes.edit iter g }

variable {pack : VlMsgPack} {i j q : ℕ} {n : VlMsgPackNode} {g : VlMsgPackElement → VlMsgPackElement}

theorem node_edit_self (h : pack.node i = some n) :
    (pack.edit i g).node i = some { n with element := g n.element } := by
  have hget : pack.nodes.store.get i = some n := h
  rw [node, edit, VlNodeTable.edit, Store.get_modify_self, hget, Option.map_some]

@[simp] theorem node_edit_of_ne (h : j ≠ i) : (pack.edit i g).node j = pack.node j :=
  Store.get_modify_of_ne h

/-- Writing to an element changes no key. -/
theorem node_of_edit (h : (pack.edit i g).node j = some n) :
    ∃ m, pack.node j = some m ∧ m.key = n.key := by
  rcases eq_or_ne j i with rfl | hne
  · cases hm : pack.node j with
    | none =>
      have hnone : (pack.edit j g).node j = none := by
        have hget : pack.nodes.store.get j = none := hm
        rw [node, edit, VlNodeTable.edit, Store.get_modify_self, hget, Option.map_none]
      exact absurd (h.symm.trans hnone) (Option.some_ne_none _)
    | some m =>
      rw [node_edit_self hm] at h
      obtain rfl := Option.some_injective _ h
      exact ⟨m, rfl, rfl⟩
  · rw [node_edit_of_ne hne] at h
    exact ⟨n, h, rfl⟩

@[simp] theorem values_edit : (pack.edit i g).values = pack.values := rfl

@[simp] theorem block_zero : pack.block 0 = none := pack.values.store.get_zero

@[simp] theorem node_zero : pack.node 0 = none := pack.nodes.store.get_zero

theorem sample_eq (h : pack.node i = some n) : pack.sample i = .ok n.element := by
  have hget : pack.nodes.store.get i = some n := h
  rw [sample, VlNodeTable.sample, hget]
  rfl

theorem modify_eq (h : pack.node i = some n) :
    pack.modify i g = .ok (pack.edit i g) := by
  have hget : pack.nodes.store.get i = some n := h
  rw [modify, VlNodeTable.modify, hget]
  rfl

theorem keyHash_eq (h : pack.node i = some n) : pack.keyHash i = .ok (vlHashMsgPackKey n.key) := by
  have hget : pack.nodes.store.get i = some n := h
  rw [keyHash, hget]
  rfl

/-- The number of nodes in the table. -/
def total (pack : VlMsgPack) : ℕ := pack.nodes.store.live.length

@[simp] theorem total_edit : (pack.edit i g).total = pack.total := rfl

theorem total_le : pack.total ≤ VlNodeTable.limit := pack.nodes.sized.le_limit

/-- Nodes that are different are counted. -/
theorem length_le_total {is : List ℕ} (hnodup : is.Nodup) (h : ∀ i ∈ is, pack.node i ≠ none) :
    is.length ≤ pack.total := by
  have hsub : is ⊆ pack.nodes.store.live := fun i hi =>
    (pack.nodes.store.mem_live i).mpr (Option.isSome_iff_ne_none.mpr (h i hi))
  exact (hnodup.subperm hsub).length_le

/-- When the nodes are known, so is their number. -/
theorem total_le_length {is : List ℕ} (h : ∀ i, pack.node i ≠ none → i ∈ is) :
    pack.total ≤ is.length := by
  have hsub : pack.nodes.store.live ⊆ is := fun i hi =>
    h i (Option.isSome_iff_ne_none.mp ((pack.nodes.store.mem_live i).mp hi))
  exact (pack.nodes.store.nodup.subperm hsub).length_le

/-- So many nodes are live that a walk over some of them has enough rounds. -/
theorem length_lt_rounds {is : List ℕ} (hnodup : is.Nodup) (h : ∀ i ∈ is, pack.node i ≠ none) :
    is.length < pack.rounds :=
  Nat.lt_succ_of_le (length_le_total hnodup h)

end VlMsgPack

/-! ### Entries -/

/-- What a node holds. The payload is that of a leaf. -/
structure DomValue where
  type : VlMsgPackType
  extType : ℤ
  payload : List UInt8
  deriving DecidableEq

/-- A node without its place. -/
structure DomNode where
  key : List UInt8
  value : DomValue
  deriving DecidableEq

/-- A node with its iterator, and the handle of its block; `0` if it has none. -/
structure DomEntry where
  iter : ℕ
  ptr : ℕ
  node : DomNode
  deriving DecidableEq

/-- The type of a node with a value of its own. -/
def VlMsgPackType.IsLeaf (type : VlMsgPackType) : Prop :=
  type ≠ .nil ∧ type ≠ .map ∧ type ≠ .array

instance {type : VlMsgPackType} : Decidable type.IsLeaf := inferInstanceAs (Decidable (_ ∧ _ ∧ _))

/-- A leaf with no bytes, which has no block. -/
def DomNode.hollow (a : DomNode) : Bool := decide (a.value.type.IsLeaf ∧ a.value.payload = [])

namespace Forest

/-- The iterator of the first tree, or `d`. -/
def firstIter : Forest DomEntry → ℕ → ℕ
  | nil, d => d
  | cons a _ _, _ => a.iter

/-- The iterator of the last tree, or `d`. -/
def lastIter : Forest DomEntry → ℕ → ℕ
  | nil, d => d
  | cons a _ rest, _ => rest.lastIter a.iter

/-- The iterators of all entries. -/
def iters (f : Forest DomEntry) : List ℕ := f.labels.map DomEntry.iter

/-- The handles of all blocks. -/
def blocks (f : Forest DomEntry) : List ℕ := (f.labels.map DomEntry.ptr).filter (· ≠ 0)

/-- The handles of the slot tables. -/
def tables (f : Forest DomEntry) : List ℕ :=
  ((f.labels.filter (·.node.value.type = .array)).map DomEntry.ptr).filter (· ≠ 0)

/-- The nodes without their places. -/
def erase (f : Forest DomEntry) : Forest DomNode := f.map DomEntry.node

/-- There is a leaf with no bytes. -/
def hollow (f : Forest DomNode) : Bool := f.labels.any DomNode.hollow

/-- How deep the recursion over a forest goes. -/
def depth {α : Type*} : Forest α → ℕ
  | nil => 0
  | cons _ kids rest => max (kids.depth + 1) rest.depth

variable {f g kids rest : Forest DomEntry} {a : DomEntry} {d i q : ℕ}

@[simp] theorem firstIter_nil : (nil : Forest DomEntry).firstIter d = d := rfl

@[simp] theorem firstIter_cons : (cons a kids rest).firstIter d = a.iter := rfl

@[simp] theorem lastIter_nil : (nil : Forest DomEntry).lastIter d = d := rfl

@[simp] theorem lastIter_cons : (cons a kids rest).lastIter d = rest.lastIter a.iter := rfl

@[simp] theorem firstIter_append : (f ++ g).firstIter d = f.firstIter (g.firstIter d) := by
  cases f <;> rfl

@[simp] theorem lastIter_append : (f ++ g).lastIter d = g.lastIter (f.lastIter d) := by
  induction f generalizing d with
  | nil => rfl
  | cons a kids rest _ ih => rw [cons_append, lastIter_cons, ih, lastIter_cons]

@[simp] theorem iters_nil : (nil : Forest DomEntry).iters = [] := rfl

@[simp] theorem iters_cons : (cons a kids rest).iters = a.iter :: (kids.iters ++ rest.iters) := by
  rw [iters, labels_cons, List.map_cons, List.map_append]
  rfl

@[simp] theorem iters_append : (f ++ g).iters = f.iters ++ g.iters := by
  rw [iters, labels_append, List.map_append]
  rfl

@[simp] theorem blocks_nil : (nil : Forest DomEntry).blocks = [] := rfl

theorem blocks_cons :
    (cons a kids rest).blocks = (if a.ptr = 0 then [] else [a.ptr]) ++ (kids.blocks ++ rest.blocks) := by
  rw [blocks, labels_cons, List.map_cons, List.map_append, List.filter_cons, List.filter_append]
  by_cases h : a.ptr = 0
  · simp [h, blocks]
  · simp [h, blocks]

@[simp] theorem mem_blocks_cons : q ∈ (cons a kids rest).blocks ↔
    (q = a.ptr ∧ a.ptr ≠ 0) ∨ q ∈ kids.blocks ∨ q ∈ rest.blocks := by
  rw [blocks_cons, List.mem_append, List.mem_append]
  split_ifs with h
  · simp [h]
  · simp [h]

@[simp] theorem blocks_append : (f ++ g).blocks = f.blocks ++ g.blocks := by
  rw [blocks, labels_append, List.map_append, List.filter_append]
  rfl

@[simp] theorem tables_nil : (nil : Forest DomEntry).tables = [] := rfl

@[simp] theorem mem_tables_cons : q ∈ (cons a kids rest).tables ↔
    (q = a.ptr ∧ a.ptr ≠ 0 ∧ a.node.value.type = .array) ∨ q ∈ kids.tables ∨ q ∈ rest.tables := by
  simp only [tables, labels_cons, List.mem_filter, List.mem_map, List.mem_cons, List.mem_append,
    decide_eq_true_eq]
  constructor
  · rintro ⟨⟨b, ⟨rfl | hb | hb, htype⟩, rfl⟩, hne⟩
    · exact Or.inl ⟨rfl, hne, htype⟩
    · exact Or.inr (Or.inl ⟨⟨b, ⟨hb, htype⟩, rfl⟩, hne⟩)
    · exact Or.inr (Or.inr ⟨⟨b, ⟨hb, htype⟩, rfl⟩, hne⟩)
  · rintro (⟨rfl, hne, htype⟩ | ⟨⟨b, ⟨hb, htype⟩, rfl⟩, hne⟩ | ⟨⟨b, ⟨hb, htype⟩, rfl⟩, hne⟩)
    · exact ⟨⟨a, ⟨Or.inl rfl, htype⟩, rfl⟩, hne⟩
    · exact ⟨⟨b, ⟨Or.inr (Or.inl hb), htype⟩, rfl⟩, hne⟩
    · exact ⟨⟨b, ⟨Or.inr (Or.inr hb), htype⟩, rfl⟩, hne⟩

@[simp] theorem mem_tables_append : q ∈ (f ++ g).tables ↔ q ∈ f.tables ∨ q ∈ g.tables := by
  rw [tables, labels_append, List.filter_append, List.map_append, List.filter_append,
    List.mem_append]
  rfl

theorem zero_not_mem_blocks : 0 ∉ f.blocks := fun hmem => by
  obtain ⟨-, hne⟩ := List.mem_filter.mp hmem
  exact absurd rfl (of_decide_eq_true hne)

theorem mem_blocks_of_mem_tables (h : q ∈ f.tables) : q ∈ f.blocks := by
  obtain ⟨hmem, hne⟩ := List.mem_filter.mp h
  obtain ⟨b, hb, rfl⟩ := List.mem_map.mp hmem
  exact List.mem_filter.mpr ⟨List.mem_map.mpr ⟨b, List.mem_of_mem_filter hb, rfl⟩, hne⟩

@[simp] theorem erase_nil : (nil : Forest DomEntry).erase = nil := rfl

@[simp] theorem erase_cons : (cons a kids rest).erase = cons a.node kids.erase rest.erase := rfl

@[simp] theorem erase_append : (f ++ g).erase = f.erase ++ g.erase := map_append

@[simp] theorem hollow_nil : (nil : Forest DomNode).hollow = false := rfl

@[simp] theorem hollow_cons {a : DomNode} {kids rest : Forest DomNode} :
    (cons a kids rest).hollow = (a.hollow || (kids.hollow || rest.hollow)) := by
  rw [hollow, labels_cons, List.any_cons, List.any_append]
  rfl

@[simp] theorem hollow_append {f g : Forest DomNode} :
    (f ++ g).hollow = (f.hollow || g.hollow) := by
  rw [hollow, labels_append, List.any_append]
  rfl

theorem depth_le_length_iters : f.depth ≤ f.iters.length := by
  induction f with
  | nil => exact le_rfl
  | cons a kids rest ih₁ ih₂ =>
    rw [iters_cons, List.length_cons, List.length_append, depth]
    omega

theorem length_le_length_iters : f.length ≤ f.iters.length := by
  induction f with
  | nil => exact le_rfl
  | cons a kids rest _ ih =>
    rw [iters_cons, List.length_cons, List.length_append, length_cons]
    omega

theorem mem_iters_of_mem_roots (h : a ∈ f.roots) : a.iter ∈ f.iters :=
  List.mem_map_of_mem (mem_labels_of_mem_roots h)

/-- No iterator and no handle is used twice, and every iterator is valid. -/
structure Proper (f : Forest DomEntry) : Prop where
  nodup : f.iters.Nodup
  ne_zero : 0 ∉ f.iters
  nodup_blocks : f.blocks.Nodup

/-- Two forests side by side share neither iterators nor handles. -/
theorem proper_append : (f ++ g).Proper ↔
    f.Proper ∧ g.Proper ∧ f.iters.Disjoint g.iters ∧ f.blocks.Disjoint g.blocks := by
  constructor
  · rintro ⟨hnodup, hzero, hblocks⟩
    rw [iters_append] at hnodup hzero
    rw [blocks_append] at hblocks
    rw [List.mem_append, not_or] at hzero
    rw [List.nodup_append'] at hnodup hblocks
    exact ⟨⟨hnodup.1, hzero.1, hblocks.1⟩, ⟨hnodup.2.1, hzero.2, hblocks.2.1⟩, hnodup.2.2,
      hblocks.2.2⟩
  · rintro ⟨hf, hg, hiters, hblocks⟩
    refine ⟨?_, ?_, ?_⟩
    · rw [iters_append]
      exact List.nodup_append'.mpr ⟨hf.nodup, hg.nodup, hiters⟩
    · rw [iters_append, List.mem_append, not_or]
      exact ⟨hf.ne_zero, hg.ne_zero⟩
    · rw [blocks_append]
      exact List.nodup_append'.mpr ⟨hf.nodup_blocks, hg.nodup_blocks, hblocks⟩

/-- A tree uses neither its own iterator nor its own handle again. -/
theorem proper_single : (cons a kids nil).Proper ↔
    kids.Proper ∧ a.iter ≠ 0 ∧ a.iter ∉ kids.iters ∧ a.ptr ∉ kids.blocks := by
  have hiters : (cons a kids nil).iters = a.iter :: kids.iters := by simp
  have hblocks : (cons a kids nil).blocks = (if a.ptr = 0 then [] else [a.ptr]) ++ kids.blocks := by
    simp [blocks_cons]
  constructor
  · rintro ⟨hnodup, hzero, hnodup'⟩
    rw [hiters] at hnodup hzero
    rw [hblocks, List.nodup_append'] at hnodup'
    rw [List.mem_cons, not_or] at hzero
    obtain ⟨hnot, hnodup⟩ := List.nodup_cons.mp hnodup
    refine ⟨⟨hnodup, hzero.2, hnodup'.2.1⟩, Ne.symm hzero.1, hnot, ?_⟩
    split_ifs at hnodup' with hptr
    · rw [hptr]
      exact zero_not_mem_blocks
    · exact List.singleton_disjoint.mp hnodup'.2.2
  · rintro ⟨hkids, hne, hnot, hptr⟩
    refine ⟨?_, ?_, ?_⟩
    · rw [hiters]
      exact List.nodup_cons.mpr ⟨hnot, hkids.nodup⟩
    · rw [hiters, List.mem_cons, not_or]
      exact ⟨hne.symm, hkids.ne_zero⟩
    · rw [hblocks, List.nodup_append']
      refine ⟨?_, hkids.nodup_blocks, ?_⟩
      · split_ifs <;> simp
      · split_ifs
        · exact List.disjoint_nil_left _
        · exact List.singleton_disjoint.mpr hptr

theorem proper_cons : (cons a kids rest).Proper ↔ (cons a kids nil).Proper ∧ rest.Proper ∧
    (cons a kids nil).iters.Disjoint rest.iters ∧ (cons a kids nil).blocks.Disjoint rest.blocks :=
  proper_append (f := cons a kids nil)

end Forest

/-! ### The elements of a forest -/

/-- What the element of an entry holds, by its type, above the forest of its children. -/
inductive DomEntry.Fits (pack : VlMsgPack) (a : DomEntry) (kids : Forest DomEntry)
    (e : VlMsgPackElement) : Prop
  | nil (type : a.node.value.type = .nil) (payload : a.node.value.payload = []) (ptr : a.ptr = 0)
      (kids : kids = .nil)
  /-- a leaf: an empty payload has no block -/
  | leaf (type : a.node.value.type.IsLeaf) (first : e.first = a.ptr) (kids : kids = .nil)
      (ptr : a.ptr = 0 ↔ a.node.value.payload = [])
      (block : a.ptr ≠ 0 → pack.block a.ptr = some (.bytes a.node.value.payload))
  /-- a map: the ends of the list of its children, and their number -/
  | map (type : a.node.value.type = .map) (payload : a.node.value.payload = []) (ptr : a.ptr = 0)
      (first : e.first = kids.firstIter 0) (second : e.second = kids.lastIter 0)
      (length : kids.length < 2 ^ 32) (totalChildren : e.totalChildren = kids.length)
      (keys : (kids.roots.map (·.node.key)).Nodup)
  /-- an array: its slots, and their number; the keys of the children are their indices -/
  | array (type : a.node.value.type = .array) (payload : a.node.value.payload = [])
      (first : e.first = a.ptr) (second : e.second = kids.length) (length : kids.length < 2 ^ 32)
      (keys : kids.roots.map (·.node.key) = (List.range kids.length).map (natToLE 4))
      (ptr : a.ptr = 0 ↔ kids.length = 0)
      (block : a.ptr ≠ 0 → pack.block a.ptr = some (.slots (kids.roots.map DomEntry.iter)))

/-- The element of an entry. -/
structure DomEntry.Stored (pack : VlMsgPack) (parent : ℕ) (hash : UInt64) (prev next : ℕ)
    (a : DomEntry) (kids : Forest DomEntry) (e : VlMsgPackElement) : Prop where
  get : pack.node a.iter = some ⟨hierarchicalKey hash a.node.key, e⟩
  parent : e.parent = parent
  prev : e.prevSibling = prev
  next : e.nextSibling = next
  type : e.type = a.node.value.type
  extType : e.extType = a.node.value.extType
  fits : a.Fits pack kids e

/-- The hash of a node below a hash. -/
def DomNode.hash (hash : UInt64) (a : DomNode) : UInt64 :=
  vlHashMsgPackKey (hierarchicalKey hash a.key)

/-- **The elements of the table are the forest** below `parent`, whose hash is `hash`, between the
siblings `prev` and `next`. -/
def DomLinked (pack : VlMsgPack) (parent : ℕ) (hash : UInt64) : ℕ → ℕ → Forest DomEntry → Prop
  | _, _, .nil => True
  | prev, next, .cons a kids rest =>
    (∃ e, a.Stored pack parent hash prev (rest.firstIter next) kids e) ∧
      DomLinked pack a.iter (a.node.hash hash) 0 0 kids ∧ DomLinked pack parent hash a.iter next rest

section DomLinked

variable {pack pack' : VlMsgPack} {parent prev next i q : ℕ} {hash : UInt64} {a : DomEntry}
  {f g kids rest : Forest DomEntry} {e : VlMsgPackElement}

theorem domLinked_nil : DomLinked pack parent hash prev next .nil := trivial

theorem domLinked_cons : DomLinked pack parent hash prev next (.cons a kids rest) ↔
    (∃ e, a.Stored pack parent hash prev (rest.firstIter next) kids e) ∧
      DomLinked pack a.iter (a.node.hash hash) 0 0 kids ∧ DomLinked pack parent hash a.iter next rest :=
  Iff.rfl

/-- A forest is linked when both parts are, and meet. -/
theorem domLinked_append : DomLinked pack parent hash prev next (f ++ g) ↔
    DomLinked pack parent hash prev (g.firstIter next) f ∧
      DomLinked pack parent hash (f.lastIter prev) next g := by
  induction f generalizing prev with
  | nil => exact (and_iff_right domLinked_nil).symm
  | cons a kids rest _ ih =>
    rw [Forest.cons_append, domLinked_cons, domLinked_cons, ih, Forest.firstIter_append,
      Forest.lastIter_cons, and_assoc, and_assoc]

theorem DomEntry.Fits.congr (h : a.Fits pack kids e)
    (hblock : a.ptr ≠ 0 → pack'.block a.ptr = pack.block a.ptr) : a.Fits pack' kids e := by
  cases h with
  | nil type payload ptr hkids => exact .nil type payload ptr hkids
  | leaf type first hkids ptr block =>
    exact .leaf type first hkids ptr fun hne => (hblock hne).trans (block hne)
  | map type payload ptr first second length totalChildren keys =>
    exact .map type payload ptr first second length totalChildren keys
  | array type payload first second length keys ptr block =>
    exact .array type payload first second length keys ptr fun hne => (hblock hne).trans (block hne)

theorem DomEntry.Stored.congr (h : a.Stored pack parent hash prev next kids e)
    (hnode : pack'.node a.iter = pack.node a.iter)
    (hblock : a.ptr ≠ 0 → pack'.block a.ptr = pack.block a.ptr) :
    a.Stored pack' parent hash prev next kids e :=
  ⟨hnode.trans h.get, h.parent, h.prev, h.next, h.type, h.extType, h.fits.congr hblock⟩

/-- **A forest depends on its own nodes and blocks only.** -/
theorem DomLinked.congr (h : DomLinked pack parent hash prev next f)
    (hnode : ∀ i ∈ f.iters, pack'.node i = pack.node i)
    (hblock : ∀ q ∈ f.blocks, pack'.block q = pack.block q) :
    DomLinked pack' parent hash prev next f := by
  induction f generalizing parent hash prev next with
  | nil => exact domLinked_nil
  | cons a kids rest ih₁ ih₂ =>
    obtain ⟨⟨e, he⟩, hkids, hrest⟩ := h
    rw [Forest.iters_cons, List.forall_mem_cons, List.forall_mem_append] at hnode
    refine ⟨⟨e, he.congr hnode.1 fun hne => hblock _ ?_⟩, ?_, ?_⟩
    · exact Forest.mem_blocks_cons.mpr (Or.inl ⟨rfl, hne⟩)
    · exact ih₁ hkids hnode.2.1 fun q hq => hblock q (Forest.mem_blocks_cons.mpr (Or.inr (Or.inl hq)))
    · exact ih₂ hrest hnode.2.2 fun q hq => hblock q (Forest.mem_blocks_cons.mpr (Or.inr (Or.inr hq)))

/-- Every entry has its node. -/
theorem DomLinked.node_ne_none (h : DomLinked pack parent hash prev next f) (hi : i ∈ f.iters) :
    pack.node i ≠ none := by
  induction f generalizing parent hash prev next with
  | nil => exact absurd hi List.not_mem_nil
  | cons a kids rest ih₁ ih₂ =>
    obtain ⟨⟨e, he⟩, hkids, hrest⟩ := h
    rw [Forest.iters_cons, List.mem_cons, List.mem_append] at hi
    rcases hi with rfl | hi | hi
    · rw [he.get]
      exact Option.some_ne_none _
    · exact ih₁ hkids hi
    · exact ih₂ hrest hi

theorem DomEntry.Fits.block_ne_none (h : a.Fits pack kids e) (hne : a.ptr ≠ 0) :
    pack.block a.ptr ≠ none := by
  cases h with
  | nil _ _ ptr _ => exact absurd ptr hne
  | leaf _ _ _ _ block =>
    rw [block hne]
    exact Option.some_ne_none _
  | map _ _ ptr _ _ _ _ => exact absurd ptr hne
  | array _ _ _ _ _ _ _ block =>
    rw [block hne]
    exact Option.some_ne_none _

/-- Every handle has its block. -/
theorem DomLinked.block_ne_none (h : DomLinked pack parent hash prev next f) (hq : q ∈ f.blocks) :
    pack.block q ≠ none := by
  induction f generalizing parent hash prev next with
  | nil => exact absurd hq List.not_mem_nil
  | cons a kids rest ih₁ ih₂ =>
    obtain ⟨⟨e, he⟩, hkids, hrest⟩ := h
    rcases Forest.mem_blocks_cons.mp hq with ⟨rfl, hne⟩ | hq | hq
    · exact he.fits.block_ne_none hne
    · exact ih₁ hkids hq
    · exact ih₂ hrest hq

end DomLinked

end VeritableLasagna
