import VeritableLasagna.Dom.Edit

/-!
# Making a node

`vlMsgPackInsertExt` builds the key of the node, looks it up, and either adds a node to the table or
cleans the one that is there. `vl_MsgPackInitNode` then fills the element in (`Initialised`): a leaf
gets its block, an empty map nothing, and an array a slot table with a `NIL` below it for every slot,
which takes two passes.
-/

namespace VeritableLasagna

/-! ### Blocks -/

section Blocks

variable {values : VlValueArena} {size ptr : ℕ} {src bs : List UInt8} {block : VlValueBlock}

/-- The arena after it has handed out a block. -/
def VlValueArena.alloc (values : VlValueArena) (ptr : ℕ) (hne : ptr ≠ 0) (block : VlValueBlock) :
    VlValueArena :=
  { values with allocs := values.allocs + 1, store := values.store.put ptr hne block }

/-- The arena with other bytes in a block. -/
def VlValueArena.setBytes (values : VlValueArena) (ptr : ℕ) (bs : List UInt8) : VlValueArena :=
  { values with store := values.store.modify ptr fun _ => .bytes bs }

@[simp] theorem VlValueArena.get_alloc_self {hne : ptr ≠ 0} :
    (values.alloc ptr hne block).store.get ptr = some block :=
  Function.update_self _ _ _

@[simp] theorem VlValueArena.get_alloc_of_ne {hne : ptr ≠ 0} {i : ℕ} (h : i ≠ ptr) :
    (values.alloc ptr hne block).store.get i = values.store.get i :=
  Function.update_of_ne h _ _

/-- The arena hands out a block that is free. -/
theorem memAlloc_eq (block : VlValueBlock) (hb : values.broken = false) (hsize : size ≠ 0) :
    ∃ ptr hne,
    values.memAlloc size block = .ok (ptr, values.alloc ptr hne block) ∧
      values.store.get ptr = none := by
  refine ⟨_, values.place.ne_zero values.allocs values.store.live, ?_,
    Store.not_mem_live.mp (values.place.fresh _ _)⟩
  rw [VlValueArena.memAlloc, if_neg hsize, if_neg (by rw [hb]; exact Bool.false_ne_true)]
  rfl

theorem memAlloc_zero (hsize : size = 0) : values.memAlloc size block = .ok (0, values) := by
  rw [VlValueArena.memAlloc, if_pos hsize]

/-- The arena hands out a block of so many bytes; for none it hands out `VL_ARENA_NULL`. -/
theorem memAlloc_spec (size : ℕ) (block : VlValueBlock) (hb : values.broken = false) :
    ∃ ptr values',
    values.memAlloc size block = .ok (ptr, values') ∧ (ptr = 0 ↔ size = 0) ∧
      values.store.get ptr = none ∧ (ptr ≠ 0 → values'.store.get ptr = some block) ∧
      (∀ q, q ≠ ptr → values'.store.get q = values.store.get q) ∧ values'.broken = false := by
  by_cases hsize : size = 0
  · exact ⟨0, values, memAlloc_zero hsize, iff_of_true rfl hsize, values.store.get_zero,
      fun h => absurd rfl h, fun _ _ => rfl, hb⟩
  · obtain ⟨ptr, hne, halloc, hfresh⟩ := memAlloc_eq block hb hsize
    exact ⟨ptr, _, halloc, iff_of_false hne hsize, hfresh, fun _ => VlValueArena.get_alloc_self,
      fun q hq => VlValueArena.get_alloc_of_ne hq, hb⟩

/-- A block is overwritten from its start. -/
theorem memcpy_eq (h : values.store.get ptr = some (.bytes bs)) (hsize : size ≠ 0)
    (hsrc : size ≤ src.length) (hbs : bs.length = size) :
    values.memcpy ptr src size = .ok (values.setBytes ptr (src.take size)) := by
  have hdrop : bs.drop size = [] := List.drop_eq_nil_of_le hbs.le
  rw [VlValueArena.memcpy, if_neg hsize, h]
  simp only [hsrc, hbs, le_refl, and_self, if_true, hdrop, List.append_nil]
  rfl

@[simp] theorem length_garbageBytes : (values.garbageBytes size).length = size := by
  simp [VlValueArena.garbageBytes]

@[simp] theorem length_garbageSlots : (values.garbageSlots size).length = size := by
  simp [VlValueArena.garbageSlots]

end Blocks

/-! ### Keys -/

/-- The document after so many allocations of values. -/
def VlMsgPack.count (pack : VlMsgPack) (n : ℕ) : VlMsgPack :=
  { pack with values := { pack.values with allocs := n } }

section Key

variable {pack : VlMsgPack} {hash : UInt64} {key : List UInt8}

/-- **A key leaves no trace**: the block of a long one is freed again. -/
theorem vlMsgPackKeyBegin_spec (hash : UInt64) (key : List UInt8) (hb : pack.values.broken = false) :
    ∃ arenaAlloc values n, vlMsgPackKeyBegin pack hash key =
        .ok (hierarchicalKey hash key, arenaAlloc, { pack with values }) ∧
      ∀ nodes, vlMsgPackKeyEnd { pack with nodes, values } arenaAlloc =
        { pack.count n with nodes } := by
  rw [vlMsgPackKeyBegin]
  split_ifs with hlen
  · exact ⟨0, pack.values, pack.values.allocs, rfl, fun nodes => rfl⟩
  · have hsize : (hierarchicalKey hash key).length ≠ 0 := by
      rw [vlMsgPackMaxStackKeySize] at hlen
      omega
    set garbage := pack.values.garbageBytes (hierarchicalKey hash key).length
    obtain ⟨ptr, hne, halloc, hfresh⟩ := memAlloc_eq (.bytes garbage) hb hsize
    have hget : (pack.values.alloc ptr hne (.bytes garbage)).store.get ptr = some (.bytes garbage) :=
      VlValueArena.get_alloc_self
    have hcopy := memcpy_eq hget hsize le_rfl length_garbageBytes
    refine ⟨ptr, (pack.values.alloc ptr hne (.bytes garbage)).setBytes ptr
      ((hierarchicalKey hash key).take (hierarchicalKey hash key).length), pack.values.allocs + 1, ?_,
      fun nodes => ?_⟩
    · rw [halloc, ok_bind]
      simp only [hcopy, ok_bind]
      rfl
    · rw [vlMsgPackKeyEnd, if_pos hne, VlValueArena.memFree]
      simp only [VlValueArena.setBytes, Store.get_modify_self, hget, Option.map_some,
        Store.erase_modify]
      rw [VlValueArena.alloc, Store.erase_put hfresh]
      rfl

/-- `vlMsgPackFindChild` looks the key up. -/
theorem vlMsgPackFindChild_spec {parent : ℕ} {n : VlMsgPackNode} (hb : pack.values.broken = false)
    (hp : pack.node parent = some n) : ∃ k, vlMsgPackFindChild pack parent key =
      .ok (pack.nodes.find (hierarchicalKey (vlHashMsgPackKey n.key) key), pack.count k) := by
  obtain ⟨arenaAlloc, values, k, hbegin, hend⟩ :=
    vlMsgPackKeyBegin_spec (vlHashMsgPackKey n.key) key hb
  refine ⟨k, ?_⟩
  rw [vlMsgPackFindChild, VlMsgPack.keyHash_eq hp, ok_bind, hbegin, ok_bind]
  exact congrArg (fun pack' => Except.ok (_, pack')) (hend pack.nodes)

end Key

/-! ### The table -/

/-- A new node is in the table, under its key. -/
structure VlMsgPack.Added (pack pack₁ : VlMsgPack) (iter : ℕ) (key : List UInt8) : Prop where
  ne_zero : iter ≠ 0
  total : pack₁.total = pack.total + 1
  fresh : pack.node iter = none
  node : pack₁.node iter = some ⟨key, default⟩
  others : ∀ i, i ≠ iter → pack₁.node i = pack.node i
  block : ∀ q, pack₁.block q = pack.block q
  broken : pack₁.values.broken = pack.values.broken

/-- The table takes a key, unless it is full. -/
theorem insert_eq {nodes : VlNodeTable} (key : List UInt8)
    (hroom : nodes.store.live.length < VlNodeTable.limit) :
    ∃ iter hiter hfresh hsize, nodes.insert key = .ok (iter, nodes.add iter hiter hfresh key hsize) := by
  have hsize : vlNodeTableEnsure nodes.tableSize nodes.store.live.length ≠ 0 := fun hzero =>
    Nat.not_le.mpr hroom (nodes.sized.ensure_eq_zero.mp hzero)
  exact ⟨nodes.place.next nodes.inserts nodes.store.live, nodes.place.ne_zero _ _,
    nodes.place.fresh _ _, hsize, dif_neg hsize⟩

/-- A key whose size fits is stored as a whole. -/
theorem VlMsgPackNode.stored_eq {n : VlMsgPackNode} (h : n.key.length < 2 ^ 16) : n.stored = n.key := by
  rw [stored, Nat.mod_eq_of_lt h, List.take_length]

/-- Any key is stored from its start. -/
theorem VlMsgPackNode.stored_prefix (n : VlMsgPackNode) : ∃ rest, n.key = n.stored ++ rest :=
  ⟨_, (List.take_append_drop _ _).symm⟩

theorem VlMsgPackNode.stored_congr {m n : VlMsgPackNode} (h : m.key = n.key) :
    m.stored = n.stored := by
  rw [stored, stored, h]

section Table

variable {pack : VlMsgPack} {init : VlMsgPack → ℕ → Except Fault VlMsgPack} {parent iter : ℕ}
  {np : VlMsgPackNode} {key : List UInt8}

/-- A lookup fails when no node has the key. -/
theorem find_eq_zero {k : List UInt8} (h : ∀ i n, pack.node i = some n → n.stored ≠ k) :
    pack.nodes.find k = 0 := by
  rw [VlNodeTable.find, Store.find_eq_none.mpr fun i n hn => ?_]
  · rfl
  · exact decide_eq_false fun hmatch => h i n hn hmatch.2

/-- A key that is not found belongs to no node, if its size fits. -/
theorem key_ne_of_find {k : List UInt8} {n : VlMsgPackNode} {i : ℕ} (h : pack.nodes.find k = 0)
    (hlen : k.length < 2 ^ 16) (hn : pack.node i = some n) : n.key ≠ k := by
  rintro rfl
  rw [VlNodeTable.find] at h
  cases hfind : pack.nodes.store.find fun node =>
      decide (pack.nodes.bucket node.key = pack.nodes.bucket n.key ∧ node.stored = n.key) with
  | none =>
    have hmatch := Store.find_eq_none.mp hfind i n hn
    exact of_decide_eq_false hmatch ⟨rfl, VlMsgPackNode.stored_eq hlen⟩
  | some j =>
    obtain ⟨m, hm, -⟩ := Store.get_of_find hfind
    rw [hfind] at h
    exact Store.ne_zero_of_get hm h

/-- The only node with a key is found, if the size of the key fits. -/
theorem find_eq {k : List UInt8} {n : VlMsgPackNode} (hn : pack.node iter = some n) (hkey : n.key = k)
    (hlen : k.length < 2 ^ 16) (honly : ∀ i m, pack.node i = some m → m.stored = k → i = iter) :
    pack.nodes.find k = iter := by
  obtain rfl := hkey
  have hfind : pack.nodes.store.find (fun node => decide (pack.nodes.bucket node.key =
      pack.nodes.bucket n.key ∧ node.stored = n.key)) = some iter :=
    Store.find_eq_some hn (decide_eq_true ⟨rfl, VlMsgPackNode.stored_eq hlen⟩)
      fun j m hm hk => honly j m hm (of_decide_eq_true hk).2
  rw [VlNodeTable.find, hfind]
  rfl

/-- **A key that is not in the table** gets a new node, which is linked when it is initialised. -/
theorem vlMsgPackInsertWith_new (hb : pack.values.broken = false) (hp : pack.node parent = some np)
    (hfind : pack.nodes.find (hierarchicalKey (vlHashMsgPackKey np.key) key) = 0)
    (hroom : pack.total < VlNodeTable.limit) :
    ∃ iter pack₁, pack.Added pack₁ iter (hierarchicalKey (vlHashMsgPackKey np.key) key) ∧
      vlMsgPackInsertWith init pack parent key = do
        let pack ← init pack₁ iter
        let pack ← vlMsgPackLinkChild pack parent key iter
        return (iter, pack) := by
  obtain ⟨arenaAlloc, values, k, hbegin, hend⟩ :=
    vlMsgPackKeyBegin_spec (vlHashMsgPackKey np.key) key hb
  have hne : parent ≠ 0 := Store.ne_zero_of_get hp
  obtain ⟨iter, hiter, hfresh, hsize, hinsert⟩ :=
    insert_eq (hierarchicalKey (vlHashMsgPackKey np.key) key) hroom
  refine ⟨iter, ⟨pack.nodes.add iter hiter hfresh (hierarchicalKey (vlHashMsgPackKey np.key) key) hsize,
    (pack.count k).values, pack.root⟩, ?_, ?_⟩
  · refine ⟨hiter, ?_, Store.not_mem_live.mp hfresh, Function.update_self _ _ _,
      fun i hi => Function.update_of_ne hi _ _, fun _ => rfl, rfl⟩
    have hlive : (pack.nodes.store.put iter hiter
        ⟨hierarchicalKey (vlHashMsgPackKey np.key) key, default⟩).live =
        iter :: pack.nodes.store.live := Store.live_put (Store.not_mem_live.mp hfresh)
    exact congrArg List.length hlive
  · rw [vlMsgPackInsertWith, if_pos hne, VlMsgPack.keyHash_eq hp, ok_bind, hbegin, ok_bind]
    simp only [hfind, hend, ne_eq, not_true_eq_false, if_false, if_pos hne]
    rw [hinsert, ok_bind]
    rfl

/-- **A key that is in the table** has its node cleaned, and initialised again in its place. -/
theorem vlMsgPackInsertWith_old (hb : pack.values.broken = false) (hp : pack.node parent = some np)
    (hfind : pack.nodes.find (hierarchicalKey (vlHashMsgPackKey np.key) key) = iter)
    (hne : iter ≠ 0) : ∃ k, vlMsgPackInsertWith init pack parent key = do
      let pack ← vlMsgPackClean (pack.count k) iter
      let pack ← init pack iter
      return (iter, pack) := by
  obtain ⟨arenaAlloc, values, k, hbegin, hend⟩ :=
    vlMsgPackKeyBegin_spec (vlHashMsgPackKey np.key) key hb
  refine ⟨k, ?_⟩
  rw [vlMsgPackInsertWith, if_pos (Store.ne_zero_of_get hp), VlMsgPack.keyHash_eq hp, ok_bind, hbegin,
    ok_bind]
  simp only [hfind, ne_eq, hne, not_false_eq_true, if_true]
  have hpack : vlMsgPackKeyEnd { pack with values } arenaAlloc = pack.count k := hend pack.nodes
  simp only [hpack]

end Table

/-! ### What a node is made of -/

/-- The slots of a new array from an index on. -/
def slotsFrom : ℕ → ℕ → Forest DomNode
  | 0, _ => .nil
  | left + 1, curIdx =>
    .cons ⟨natToLE 4 curIdx, ⟨.nil, vlMsgPackExtNone, []⟩⟩ .nil (slotsFrom left (curIdx + 1))

/-- The length in the data of an array. -/
def arrayLength (data : Option (List UInt8)) : ℕ :=
  (data.map fun src => natOfLE (src.take 4)).getD 0

/-- What `vl_MsgPackInitNode` makes of its arguments: the value of the node, and what is below it. -/
structure DomValue.Made (type : VlMsgPackType) (extType : ℤ) (data : Option (List UInt8))
    (dataLen : ℕ) (value : DomValue) (kids : Forest DomNode) : Prop where
  type_eq : value.type = type
  extType_eq : value.extType = extType
  payload_eq : if type.IsLeaf then value.payload.length = dataLen ∧
    ∀ src, data = some src → value.payload = src.take dataLen else value.payload = []
  kids_eq : kids = if type = .array then slotsFrom (arrayLength data) 0 else .nil

/-- The arguments can be read: a leaf has its bytes, an array its length. -/
def DataFits (type : VlMsgPackType) (data : Option (List UInt8)) (dataLen : ℕ) : Prop :=
  (type.IsLeaf → ∀ src, data = some src → dataLen ≤ src.length) ∧ (type = .array → data ≠ none)

/-- A tree of one node of which nothing but the iterator matters. -/
def Forest.bare (iter : ℕ) : Forest DomEntry := .cons ⟨iter, 0, ⟨[], ⟨.nil, 0, []⟩⟩⟩ .nil .nil

@[simp] theorem Forest.iters_bare {iter : ℕ} : (bare iter).iters = [iter] := rfl

@[simp] theorem Forest.blocks_bare {iter : ℕ} : (bare iter).blocks = [] := rfl

/-- **The node is initialised**: it is the root of a tree, at the place in the links it had, and
nothing else has changed. -/
structure VlMsgPack.Initialised (pack pack' : VlMsgPack) (parent : ℕ) (hash : UInt64)
    (e₀ : VlMsgPackElement) (a : DomEntry) (kids : Forest DomEntry) : Prop where
  linked : DomLinked pack' parent hash e₀.prevSibling e₀.nextSibling (.cons a kids .nil)
  proper : (Forest.cons a kids .nil).Proper
  becomes : pack.Becomes pack' (.bare a.iter) (.cons a kids .nil)
  broken : pack'.values.broken = false

/-- The values with the payload of a new leaf. -/
theorem leafValue_spec {values : VlValueArena} {data : Option (List UInt8)} {dataLen : ℕ}
    (hb : values.broken = false) (hsrc : ∀ src, data = some src → dataLen ≤ src.length) :
    ∃ ptr values₁ values₂ payload,
      values.memAlloc dataLen (.bytes (values.garbageBytes dataLen)) = .ok (ptr, values₁) ∧
      ((∀ src, data = some src → values₁.memcpy ptr src dataLen = .ok values₂) ∧
        (data = none → values₁ = values₂)) ∧
      (payload.length = dataLen ∧ ∀ src, data = some src → payload = src.take dataLen) ∧
      (ptr = 0 ↔ payload = []) ∧ values.store.get ptr = none ∧
      (ptr ≠ 0 → values₂.store.get ptr = some (.bytes payload)) ∧
      (∀ q, q ≠ ptr → values₂.store.get q = values.store.get q) ∧ values₂.broken = false := by
  by_cases hsize : dataLen = 0
  · refine ⟨0, values, values, [], memAlloc_zero hsize, ⟨fun _ _ => if_pos hsize, fun _ => rfl⟩,
      ⟨hsize.symm, fun src _ => ?_⟩, by simp, values.store.get_zero, fun h => absurd rfl h,
      fun _ _ => rfl, hb⟩
    rw [hsize, List.take_zero]
  · obtain ⟨ptr, hne, halloc, hfresh⟩ :=
      memAlloc_eq (.bytes (values.garbageBytes dataLen)) hb hsize
    have hothers : ∀ q, q ≠ ptr → (values.alloc ptr hne
        (.bytes (values.garbageBytes dataLen))).store.get q = values.store.get q :=
      fun q hq => VlValueArena.get_alloc_of_ne hq
    cases data with
    | none =>
      have hlen : (values.garbageBytes dataLen).length = dataLen := length_garbageBytes
      refine ⟨ptr, _, _, values.garbageBytes dataLen, halloc, ⟨fun _ h => (by cases h), fun _ => rfl⟩,
        ⟨hlen, fun _ h => (by cases h)⟩, iff_of_false hne ?_, hfresh,
        fun _ => VlValueArena.get_alloc_self, hothers, hb⟩
      exact List.ne_nil_of_length_pos (by omega)
    | some src =>
      have hle := hsrc src rfl
      have hlen : (src.take dataLen).length = dataLen := List.length_take_of_le hle
      have hget : (values.alloc ptr hne (.bytes (values.garbageBytes dataLen))).store.get ptr =
          some (.bytes (values.garbageBytes dataLen)) := VlValueArena.get_alloc_self
      have hcopy := memcpy_eq hget hsize hle length_garbageBytes
      refine ⟨ptr, _, (values.alloc ptr hne (.bytes (values.garbageBytes dataLen))).setBytes ptr
        (src.take dataLen), src.take dataLen, halloc,
        ⟨fun src' h => Option.some_injective _ h ▸ hcopy, fun h => (by cases h)⟩,
        ⟨hlen, fun src' h => by rw [Option.some_injective _ h]⟩, iff_of_false hne ?_, hfresh,
        fun _ => ?_, fun q hq => ?_, hb⟩
      · exact List.ne_nil_of_length_pos (by omega)
      · rw [VlValueArena.setBytes, Store.get_modify_self, hget]
        rfl
      · rw [VlValueArena.setBytes, Store.get_modify_of_ne hq]
        exact hothers q hq

section Plain

variable {pack : VlMsgPack} {type : VlMsgPackType} {extType : ℤ} {parent dataLen iter : ℕ}
  {data : Option (List UInt8)} {hash : UInt64} {key : List UInt8} {e₀ : VlMsgPackElement}

/-- An element that is written where the values stay. -/
theorem initialised_edit (a : DomEntry) {g : VlMsgPackElement → VlMsgPackElement}
    (hn : pack.node a.iter = some ⟨hierarchicalKey hash a.node.key, e₀⟩)
    (hb : pack.values.broken = false)
    (he : a.Stored (pack.edit a.iter g) parent hash e₀.prevSibling e₀.nextSibling .nil (g e₀))
    (hptr : a.ptr = 0) :
    pack.Initialised (pack.edit a.iter g) parent hash e₀ a .nil := by
  refine ⟨⟨⟨g e₀, he⟩, domLinked_nil, domLinked_nil⟩, ?_, ?_, hb⟩
  · refine Forest.proper_single.mpr ⟨⟨List.nodup_nil, List.not_mem_nil, List.nodup_nil⟩,
      Store.ne_zero_of_get hn, List.not_mem_nil, List.not_mem_nil⟩
  · refine ⟨⟨fun i n hi h => ?_, fun i hi h => ?_, fun _ _ _ h => h, fun q hq => ?_⟩,
      fun i n hi h => ?_⟩
    · rwa [VlMsgPack.node_edit_of_ne (by simpa using hi)]
    · exact absurd (by simpa using hi) (by simpa using h)
    · simp [hptr] at hq
    · have hne : i ≠ a.iter := by simpa using hi
      rw [VlMsgPack.node_edit_of_ne hne] at h
      exact ⟨by simpa using hne, h⟩

/-- **Everything but an array** is initialised in one step. -/
theorem vlMsgPackInitPlain_spec (htype : type ≠ .array)
    (hn : pack.node iter = some ⟨hierarchicalKey hash key, e₀⟩) (hb : pack.values.broken = false)
    (hdata : DataFits type data dataLen) :
    Returns (vlMsgPackInitPlain type extType parent data dataLen pack iter) fun pack' =>
      ∃ a, a.iter = iter ∧ a.node.key = key ∧ a.node.value.Made type extType data dataLen .nil ∧
        pack.Initialised pack' parent hash e₀ a .nil := by
  by_cases hnil : type = .nil
  · subst hnil
    rw [vlMsgPackInitPlain, VlMsgPack.modify_eq hn]
    refine returns_ok ⟨⟨iter, 0, key, .nil, extType, []⟩, rfl, rfl, ⟨rfl, rfl, rfl, rfl⟩, ?_⟩
    refine initialised_edit ⟨iter, 0, key, .nil, extType, []⟩ hn hb
      ⟨VlMsgPack.node_edit_self hn, rfl, rfl, rfl, rfl, rfl, ?_⟩ rfl
    exact .nil rfl rfl rfl rfl
  by_cases hmap : type = .map
  · subst hmap
    rw [vlMsgPackInitPlain, VlMsgPack.modify_eq hn]
    refine returns_ok ⟨⟨iter, 0, key, .map, extType, []⟩, rfl, rfl, ⟨rfl, rfl, rfl, rfl⟩, ?_⟩
    refine initialised_edit ⟨iter, 0, key, .map, extType, []⟩ hn hb
      ⟨VlMsgPack.node_edit_self hn, rfl, rfl, rfl, rfl, rfl, ?_⟩ rfl
    exact .map rfl rfl rfl rfl rfl (by norm_num) rfl List.nodup_nil
  have hleaf : type.IsLeaf := ⟨hnil, hmap, htype⟩
  have hsrc := hdata.1 hleaf
  obtain ⟨ptr, values₁, values₂, payload, halloc, hcopy, hpayload, hptr, hfresh, hget, hothers, hb₂⟩ :=
    leafValue_spec hb (hdata.1 hleaf)
  have hrun : vlMsgPackInitPlain type extType parent data dataLen pack iter =
      VlMsgPack.modify { pack with values := values₂ } iter fun element =>
        { element with type, parent, extType, first := ptr } := by
    rw [vlMsgPackInitPlain.eq_def]
    split
    · contradiction
    · contradiction
    · rw [halloc, ok_bind]
      cases data with
      | none =>
        rw [hcopy.2 rfl]
        rfl
      | some src =>
        simp only [hcopy.1 src rfl]
        rfl
  have hn₂ : VlMsgPack.node { pack with values := values₂ } iter = _ := hn
  rw [hrun, VlMsgPack.modify_eq hn₂]
  refine returns_ok ⟨⟨iter, ptr, key, type, extType, payload⟩, rfl, rfl, ?_, ?_⟩
  · refine ⟨rfl, rfl, ?_, (if_neg htype).symm⟩
    rwa [if_pos hleaf]
  · have hmem : ∀ q, q ∈ (Forest.cons ⟨iter, ptr, key, type, extType, payload⟩ .nil .nil).blocks ↔
        q = ptr ∧ ptr ≠ 0 := by simp
    refine ⟨⟨⟨_, VlMsgPack.node_edit_self hn₂, rfl, rfl, rfl, rfl, rfl, ?_⟩, domLinked_nil, domLinked_nil⟩,
      ?_, ⟨⟨fun i n hi h => ?_, fun i hi h => ?_, fun q b hq h => ?_, fun q hq _ => ?_⟩,
      fun i n hi h => ?_⟩, hb₂⟩
    · exact .leaf hleaf rfl rfl hptr hget
    · exact Forest.proper_single.mpr ⟨⟨List.nodup_nil, List.not_mem_nil, List.nodup_nil⟩,
        Store.ne_zero_of_get hn, List.not_mem_nil, List.not_mem_nil⟩
    · rw [VlMsgPack.node_edit_of_ne (by simpa using hi)]
      exact h
    · exact absurd (by simpa using hi) (by simpa using h)
    · have hne : q ≠ ptr := by
        rintro rfl
        exact Option.some_ne_none _ (h.symm.trans hfresh)
      exact (hothers q hne).trans h
    · rw [((hmem q).mp hq).1]
      exact hfresh
    · have hne : i ≠ iter := by simpa using hi
      rw [VlMsgPack.node_edit_of_ne hne] at h
      exact ⟨by simpa using hne, h⟩

end Plain

end VeritableLasagna
