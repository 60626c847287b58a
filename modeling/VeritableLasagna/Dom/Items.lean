import VeritableLasagna.Dom.Around
import VeritableLasagna.MsgPack.Texts

/-!
# Trees and items

A tree of a document is written as a list of items: the item of a node, then those of its children, and
in a map each behind its key (`Forest.items`). The item of a node tells the node again
(`DomNode.node_item`), unless the value is one that no item stands for: bytes that are too many or too few
for their type, none at all, or the payload of an extension that the text pads or the decoder rejects
(`DomValue.Plain`).
-/

namespace VeritableLasagna

open Forest

/-! ### The insertion of an item -/

/-- The insertion that an item asks for. -/
def MsgPackItem.insertion (item : MsgPackItem) (parent : ℕ) (key : List UInt8) : DomInsert :=
  match item with
  | .nil => ⟨.nil, vlMsgPackExtNone, parent, key, none, 0⟩
  | .bool b => ⟨.bool, vlMsgPackExtNone, parent, key, some [if b then 1 else 0], 1⟩
  | .int v => ⟨.int, vlMsgPackExtNone, parent, key, some (natToLE 8 (v % 2 ^ 64).toNat), 8⟩
  | .uint v => ⟨.uint, vlMsgPackExtNone, parent, key, some (natToLE 8 v), 8⟩
  | .float32 bits => ⟨.float32, vlMsgPackExtNone, parent, key, some (natToLE 4 bits), 4⟩
  | .float64 bits => ⟨.float64, vlMsgPackExtNone, parent, key, some (natToLE 8 bits), 8⟩
  | .str bs => ⟨.string, vlMsgPackExtNone, parent, key, some bs, bs.length⟩
  | .bin bs => ⟨.binary, vlMsgPackExtNone, parent, key, some bs, bs.length⟩
  | .array n => ⟨.array, vlMsgPackExtNone, parent, key, some (natToLE 4 n), 4⟩
  | .map _ => ⟨.map, vlMsgPackExtNone, parent, key, none, 0⟩
  | .ext type bs => ⟨.ext, type, parent, key, some bs, bs.length⟩

section Insertion

variable {decoder : VlMsgPackDecoder} {tk : VlMsgPackIOToken} {mem : ByteMem} {parent n : ℕ}
  {key bs : List UInt8}

theorem VlMsgPackDecoder.payload_eq {ptr length : ℕ} (h : ptr + length ≤ decoder.srcLen) :
    decoder.payload ptr length = .ok (decoder.srcMem.slice ptr length) := by
  rw [payload]
  split_ifs with hzero
  · rw [hzero, ByteMem.slice_zero]
  · rfl

/-- **A token asks for what its item does.** -/
theorem VlMsgPackDecoder.insertion_eq (h : tk.Inside decoder.srcLen) :
    decoder.insertion tk parent key = .ok ((tk.item decoder.srcMem).insertion parent key) := by
  rw [VlMsgPackIOToken.Inside] at h
  rw [insertion, VlMsgPackIOToken.item]
  cases htype : tk.type <;> simp only [htype] at h ⊢
  case string | binary | ext =>
    rw [payload_eq h, ok_bind, MsgPackItem.insertion, ByteMem.length_slice]
    rfl
  all_goals rfl

theorem VlMsgPackIOToken.of_item_str (h : tk.item mem = .str bs) :
    tk.type = .string ∧ mem.slice tk.ptr tk.length = bs := by
  rw [item] at h
  cases htype : tk.type <;> simp only [htype] at h
  case string => exact ⟨rfl, MsgPackItem.str.inj h⟩
  all_goals cases h

theorem VlMsgPackIOToken.of_item_array (h : tk.item mem = .array n) : tk.elements = n := by
  rw [item] at h
  cases htype : tk.type <;> simp only [htype] at h
  case array => exact MsgPackItem.array.inj h
  all_goals cases h

theorem VlMsgPackIOToken.of_item_map (h : tk.item mem = .map n) : tk.keyValuePairs = n := by
  rw [item] at h
  cases htype : tk.type <;> simp only [htype] at h
  case map => exact MsgPackItem.map.inj h
  all_goals cases h

end Insertion

/-! ### The item of a node -/

/-- **The bytes are those of an item** of the type. -/
def DomValue.Plain (v : DomValue) : Prop :=
  (v.type ≠ .ext → v.extType = vlMsgPackExtNone) ∧
    match v.type with
    | .nil | .array | .map => v.payload = []
    | .bool => v.payload = [0] ∨ v.payload = [1]
    | .int | .uint | .float64 => v.payload.length = 8
    | .float32 => v.payload.length = 4
    | .string | .binary => v.payload ≠ [] ∧ v.payload.length < 2 ^ 32
    | .ext => v.extType ≠ vlMsgPackExtNone ∧ -128 ≤ v.extType ∧ v.extType < 128 ∧
      msgPackExtLength v.payload.length = v.payload.length ∧
      (v.payload.length < 2 ^ 15 ∨ 2 ^ 16 ≤ v.payload.length ∧ v.payload.length + 1 < 2 ^ 31)

instance {v : DomValue} : Decidable v.Plain := by
  unfold DomValue.Plain
  split <;> infer_instance

/-- The item of a value, above so many children. -/
def DomValue.item (v : DomValue) (children : ℕ) : MsgPackItem :=
  match v.type with
  | .nil => .nil
  | .bool => .bool (natOfLE v.payload ≠ 0)
  | .int => .int (Int.bmod (natOfLE v.payload) (2 ^ 64))
  | .uint => .uint (natOfLE v.payload)
  | .float32 => .float32 (natOfLE v.payload)
  | .float64 => .float64 (natOfLE v.payload)
  | .string => .str v.payload
  | .binary => .bin v.payload
  | .array => .array children
  | .map => .map children
  | .ext => .ext v.extType v.payload

section Item

variable {v : DomValue} {a : DomNode} {children parent : ℕ} {key : List UInt8}

theorem DomValue.type_item : ((v.item children).insertion parent key).type = v.type := by
  rw [item]
  cases htype : v.type <;> rfl

theorem MsgPackItem.key_insertion {item : MsgPackItem} : (item.insertion parent key).key = key := by
  cases item <;> rfl

/-- The node of an insertion with as many bytes as it says. -/
theorem DomInsert.node_bytes {type : VlMsgPackType} {extType : ℤ} {bs : List UInt8} {n : ℕ}
    (htype : type.IsLeaf) (hlen : bs.length = n) :
    DomInsert.node ⟨type, extType, parent, key, some bs, n⟩ = ⟨key, type, extType, bs⟩ := by
  rw [node, if_pos htype, Option.getD_some, ← hlen, List.take_length]

/-- **The item of a plain value tells it again.** -/
theorem DomValue.Plain.node_item (h : v.Plain) :
    ((v.item children).insertion parent key).node = ⟨key, v⟩ := by
  obtain ⟨type, extType, payload⟩ := v
  obtain ⟨hext, h⟩ := h
  have hnone (hne : type ≠ .ext) : extType = vlMsgPackExtNone := hext hne
  have hnumber : ∀ {n : ℕ}, payload.length = n → natToLE n (natOfLE payload) = payload := by
    rintro n rfl
    exact natToLE_natOfLE
  cases type with
  | nil | array | map =>
    obtain rfl : payload = [] := h
    rw [hnone VlMsgPackType.noConfusion]
    rfl
  | bool =>
    rw [hnone VlMsgPackType.noConfusion]
    obtain rfl | rfl : payload = [0] ∨ payload = [1] := h
    · rfl
    · rfl
  | int =>
    have hlen : payload.length = 8 := h
    have hlt : natOfLE payload < 2 ^ 64 := by
      have hlt : natOfLE payload < 256 ^ payload.length := natOfLE_lt
      rw [hlen] at hlt
      omega
    have hbytes : (Int.bmod (natOfLE payload) (2 ^ 64) % 2 ^ 64).toNat = natOfLE payload := by
      have hmod : Int.bmod (natOfLE payload) (2 ^ 64) % ((2 ^ 64 : ℕ) : ℤ) =
          natOfLE payload % ((2 ^ 64 : ℕ) : ℤ) := Int.bmod_emod
      rw [← Int.natCast_emod, Nat.mod_eq_of_lt hlt] at hmod
      exact congrArg Int.toNat hmod
    rw [hnone VlMsgPackType.noConfusion, item, MsgPackItem.insertion, hbytes, hnumber hlen]
    exact DomInsert.node_bytes (by decide) hlen
  | uint | float32 | float64 =>
    rw [hnone VlMsgPackType.noConfusion, item, MsgPackItem.insertion, hnumber h]
    exact DomInsert.node_bytes (by decide) h
  | string | binary =>
    rw [hnone VlMsgPackType.noConfusion]
    exact DomInsert.node_bytes (by decide) rfl
  | ext => exact DomInsert.node_bytes (by decide) rfl

/-- Any type of extension but the one that stands for none is accepted. -/
theorem DomValue.Plain.accepted (h : v.Plain) : Accepted v.type v.extType := by
  rintro ⟨htype, hnone⟩
  have hext := h.2
  rw [htype] at hext
  exact hext.1 hnone

/-- What is below the new node of an item. -/
theorem DomValue.below_item (h : children < 2 ^ 32) :
    ((v.item children).insertion parent key).below =
      if v.type = .array then slotsFrom children 0 else nil := by
  rw [DomInsert.below, type_item]
  split_ifs with harray
  · rw [item, harray]
    exact congrArg (slotsFrom · 0) (natOfLE_take_natToLE h)
  · rfl

end Item

/-! ### The items of a forest -/

/-- **A node of a tree that a text stands for**: its value is plain, its key fits its size, and its
children have the keys that its type asks for. -/
structure DomNode.Regular (a : DomNode) (kids : Forest DomNode) : Prop where
  plain : a.value.Plain
  short : a.key.length + 8 < 2 ^ 16
  leaf : ¬ a.value.type.IsContainer → kids = nil
  map : a.value.type = .map → (kids.roots.map DomNode.key).Nodup
  array : a.value.type = .array →
    kids.roots.map DomNode.key = (List.range kids.length).map (natToLE 4)

namespace Forest

/-- The items of the trees side by side, in a map each behind its key. -/
def items (isMap : Bool) : Forest DomNode → List MsgPackItem
  | nil => []
  | cons a kids rest =>
    (if isMap then [.str a.key] else []) ++
      (a.value.item kids.length :: kids.items (decide (a.value.type = .map)) ++ rest.items isMap)

/-- The keys of the containers below a hash. -/
def containers (hash : UInt64) : Forest DomNode → List (List UInt8)
  | nil => []
  | cons a kids rest =>
    (if a.value.type.IsContainer then [hierarchicalKey hash a.key] else []) ++
      (kids.containers (a.hash hash) ++ rest.containers hash)

variable {a : DomNode} {kids rest : Forest DomNode} {hash : UInt64} {isMap : Bool}

/-- The tree comes first, behind its key. -/
theorem items_cons : (cons a kids rest).items isMap =
    (if isMap then [.str a.key] else []) ++ ((cons a kids nil).items false ++ rest.items isMap) := by
  rw [items, items, items, List.append_nil]
  rfl

theorem items_single : (cons a kids nil).items false =
    a.value.item kids.length :: kids.items (decide (a.value.type = .map)) := by
  rw [items, items, if_neg Bool.false_ne_true, List.nil_append, List.append_nil]

theorem mem_containers_cons {K : List UInt8} : K ∈ (cons a kids rest).containers hash ↔
    (a.value.type.IsContainer ∧ K = hierarchicalKey hash a.key) ∨ K ∈ kids.containers (a.hash hash) ∨
      K ∈ rest.containers hash := by
  rw [containers, List.mem_append, List.mem_append]
  split_ifs with h
  · simp [h]
  · simp [h]

theorem containers_append {f g : Forest DomNode} :
    (f ++ g).containers hash = f.containers hash ++ g.containers hash := by
  induction f with
  | nil => rfl
  | cons a kids rest _ ih =>
    rw [cons_append, containers, containers, ih, List.append_assoc, List.append_assoc]

theorem length_le_length_labels {α : Type*} {f : Forest α} : f.length ≤ f.labels.length := by
  induction f with
  | nil => exact le_rfl
  | cons a kids rest _ ih =>
    rw [labels_cons, List.length_cons, List.length_append, length_cons]
    omega

theorem under_eq_nil {ks : Forest DomNode} {key : List UInt8} (h : ∀ b ∈ ks.roots, b.key ≠ key) :
    ks.under key = nil := by
  induction ks with
  | nil => rfl
  | cons b kids rest _ ih =>
    rw [roots_cons, List.forall_mem_cons] at h
    rw [under, if_neg h.1, ih h.2]

/-- The children with a tree have as many nodes as the tree has, and those that stay. -/
theorem exists_length_labels_place (ks : Forest DomNode) (a : DomNode) :
    ∃ n, ∀ g, (ks.place a g).labels.length = n + g.labels.length := by
  induction ks with
  | nil =>
    refine ⟨1, fun g => ?_⟩
    rw [place, setChild, labels_cons, labels_nil, List.append_nil, List.length_cons, Nat.add_comm]
  | cons b kids rest _ ih =>
    obtain ⟨n, hn⟩ := ih
    by_cases hkey : b.key = a.key
    · refine ⟨rest.labels.length + 1, fun g => ?_⟩
      rw [place, setChild, if_pos (decide_eq_true hkey), labels_cons, List.length_cons,
        List.length_append]
      omega
    · refine ⟨n + kids.labels.length + 1, fun g => ?_⟩
      rw [place, setChild, if_neg (by rwa [decide_eq_true_eq]), labels_cons, List.length_cons,
        List.length_append]
      have hrest := hn g
      rw [place] at hrest
      omega

end Forest

end VeritableLasagna
