import VeritableLasagna.HashTable.Resize

/-!
# Reserving buckets

`vlHashTableReserve` doubles the number of buckets until there is room, and distributes the elements
to the first eighth of them (`VlHashTable.Inv.reserve_spec`): the number of buckets has been divided by
the size of an iterator once more than it should. `vlHashTableFind` looks for a key in the bucket that
all buckets give it. It finds the key if that is among the first eighth, and nothing otherwise.
-/

namespace VeritableLasagna

namespace VlHashTable

variable {table table' : VlHashTable} {elems : List VlHashElement} {e : VlHashElement}
  {n buckets heapSize : ℕ}

/-- The number of buckets after a reservation: the least power of two with room for all of them. -/
def reservedBuckets (length buckets : ℕ) : ℕ := 2 ^ Nat.clog 2 (length + buckets)

/-- The doubling stops at the least power of two that is large enough. -/
theorem double_eq_reservedBuckets {length newSize k : ℕ} (hlength : length = 2 ^ (k + 4))
    (h : vlMemDouble (8 * length + 8 * buckets - 1) 65 (8 * length) = .ok newSize)
    (hlt : 8 * length < 2 ^ 63) : newSize = 8 * reservedBuckets length buckets := by
  have hpos : 0 < length := hlength ▸ Nat.two_pow_pos _
  obtain ⟨hgt, -, -, hmax⟩ := (vlMemDouble_spec (by omega) hlt).of_ok h
  obtain ⟨j, hj⟩ := vlMemDouble_pow h
  have hpow : newSize = 8 * 2 ^ (k + 4 + j) := by
    rw [hj, hlength, pow_add 2 (k + 4) j, Nat.mul_assoc]
  have hge : length + buckets ≤ 2 ^ (k + 4 + j) := by omega
  rw [hpow, reservedBuckets]
  congr 2
  refine (le_antisymm (Nat.clog_le_of_le_pow hge) ?_).symm
  by_contra hlt'
  -- a smaller power of two would have stopped the loop
  have hpred : length + buckets ≤ 2 ^ (k + 4 + j - 1) :=
    (Nat.le_pow_clog (by norm_num) _).trans (Nat.pow_le_pow_right (by norm_num) (by omega))
  have hhalf : 2 * 2 ^ (k + 4 + j - 1) = 2 ^ (k + 4 + j) := by
    rw [← Nat.pow_succ']
    congr 1
    omega
  rcases hmax with hsame | hmax
  · omega
  · omega

theorem Inv.reservedBuckets_pow (h : table.Inv elems) (buckets : ℕ) :
    ∃ k, reservedBuckets table.table.length buckets = 2 ^ (k + 4) := by
  obtain ⟨k, hk⟩ := h.size_pow
  have hle : k + 4 ≤ Nat.clog 2 (table.table.length + buckets) := by
    have hmono := Nat.clog_mono_right 2 (Nat.le_add_right table.table.length buckets)
    rwa [hk, Nat.clog_pow _ _ (by norm_num), ← hk] at hmono
  exact ⟨Nat.clog 2 (table.table.length + buckets) - 4, by
    rw [reservedBuckets, Nat.sub_add_cancel (by omega)]⟩

theorem length_le_reservedBuckets (length buckets : ℕ) :
    length ≤ reservedBuckets length buckets :=
  (Nat.le_add_right _ buckets).trans (Nat.le_pow_clog (by norm_num) _)

/-! ### The rebuilt chains -/

/-- What a reservation leaves: every element is stored, and is in the bucket that an eighth of the
buckets gives it. -/
structure Reserved (table' table : VlHashTable) (elems : List VlHashElement) (n : ℕ) : Prop where
  nodes : table'.Nodes elems
  length_eq : table'.table.length = n
  hashFunc_eq : table'.hashFunc = table.hashFunc
  total_eq : table'.totalElements = table.totalElements
  size_le : table.data.data.size ≤ table'.data.data.size
  bucket : ∀ b p, table'.table[b]? = some p → table'.Bucket (n / 8) elems b p

/-- **`vlHashTableReserve`** moves no element. -/
theorem Inv.reserve_spec (h : table.Inv elems) (buckets heapSize : ℕ) :
    Serves (vlHashTableReserve table buckets heapSize) fun t =>
      t.Reserved table elems (reservedBuckets table.table.length buckets) := by
  obtain ⟨k, hk⟩ := h.size_pow
  have hlt := h.size_lt
  have hpos := h.nonempty
  rw [vlHashTableReserve]
  refine (vlArenaReserve_inv h.nodes.arena heapSize).bind fun data ⟨harena, hbytes, hgrow⟩ => ?_
  dsimp only
  have hdouble : Serves (vlMemDouble (8 * table.table.length + 8 * buckets - 1) 65
      (8 * table.table.length)) _ := vlMemDouble_spec (by omega) (by omega)
  rcases hdouble with hfull | ⟨newSize, hnew, -⟩
  · exact Or.inl (by rw [hfull, error_bind])
  have hsize := double_eq_reservedBuckets hk hnew (by omega)
  have hcount : newSize / 8 = reservedBuckets table.table.length buckets := by omega
  have hge : 16 ≤ reservedBuckets table.table.length buckets := by
    calc 16 ≤ table.table.length + buckets := by
          rw [hk, pow_add]
          have := Nat.two_pow_pos k
          omega
      _ ≤ reservedBuckets table.table.length buckets := Nat.le_pow_clog (by norm_num) _
  rw [hnew, ok_bind, hcount]
  have hnodes : Nodes { table with
      data
      table := List.replicate (reservedBuckets table.table.length buckets) 0 } elems := by
    refine ⟨harena, h.nodes.handle, fun e he => (h.nodes.stored e he).congr fun q _ _ _ => ?_⟩
    dsimp only
    rw [hbytes]
  have hrebuild := rebuild_spec hnodes (List.Nodup.of_map _ h.nodup_key)
    (show 0 < reservedBuckets table.table.length buckets / 8 by omega)
    (by rw [List.length_replicate]; omega)
    (fun b p hp => List.eq_of_mem_replicate (List.mem_of_getElem? hp)) h.total.ge
  refine hrebuild.serves.mono fun t ⟨hn, hlength, hhash, htotal, hspace, hbuckets⟩ =>
    ⟨hn, hlength.trans List.length_replicate, hhash, htotal, hspace.2 ▸ hgrow, hbuckets⟩

/-- A remainder that is small enough is the one by an eighth. -/
theorem mod_eighth {hash : ℕ} (hn : 8 ∣ n) (hlow : hash % n < n / 8) : hash % (n / 8) = hash % n := by
  rw [← Nat.mod_mod_of_dvd hash (Nat.div_dvd_of_dvd hn), Nat.mod_eq_of_lt hlow]

/-- **Where every key has a bucket among the first eighth**, the table is as good as before. -/
theorem Reserved.inv (hr : table'.Reserved table elems n) (h : table.Inv elems)
    (hpow : ∃ k, n = 2 ^ (k + 4)) (hge : table.table.length ≤ n) (hlt : n < 2 ^ 32)
    (hlow : ∀ e ∈ elems, (table.hashFunc e.key).toNat % n < n / 8) : table'.Inv elems := by
  have hload := h.load
  obtain ⟨k, hk⟩ := hpow
  have hdvd : 8 ∣ n := by
    rw [hk]
    exact pow_dvd_pow 2 (show 3 ≤ k + 4 by omega)
  refine ⟨hr.nodes, h.key_lt, h.nodup_key, hr.total_eq.trans h.total, ?_, ⟨k, ?_⟩, ?_,
    h.space.trans hr.size_le, fun b p hp => ?_⟩
  · rw [hr.length_eq]
    omega
  · rw [hr.length_eq, hk]
  · rwa [hr.length_eq]
  · obtain ⟨l, hchain, hl⟩ := hr.bucket b p hp
    refine ⟨l, hchain, hl.trans (List.Perm.of_eq (List.filter_congr fun e he => ?_))⟩
    rw [slot, slot, hr.length_eq, hr.hashFunc_eq, mod_eighth hdvd (hlow e he)]

/-- Too many buckets: their number is zero as a `vl_dsidx_t`. -/
theorem Reserved.find_overflow (hr : table'.Reserved table elems n) {k : ℕ} (hk : n = 2 ^ k)
    (hge : 2 ^ 32 ≤ n) (key : List UInt8) :
    vlHashTableFind table' key = .error .divideByZero := by
  have hle : 32 ≤ k := (Nat.pow_le_pow_iff_right (by norm_num : 1 < 2)).mp (hk ▸ hge)
  have hzero : table'.tableSize = 0 := by
    rw [tableSize, hr.length_eq, hk]
    exact Nat.mod_eq_zero_of_dvd (pow_dvd_pow 2 hle)
  rw [vlHashTableFind, hzero, vlHashTableIndex, if_pos rfl, error_bind]

/-- **A key whose bucket is not among the first eighth** is not found any more. -/
theorem Reserved.find_lost (hr : table'.Reserved table elems n) (hpos : 0 < n / 8) (hlt : n < 2 ^ 32)
    (hhigh : n / 8 ≤ (table.hashFunc e.key).toNat % n) : vlHashTableFind table' e.key = .ok 0 := by
  have hb : (table'.hashFunc e.key).toNat % n < table'.table.length := by
    rw [hr.length_eq]
    exact Nat.mod_lt _ (by omega)
  have hget : table'.table[(table'.hashFunc e.key).toNat % n]? =
      some table'.table[(table'.hashFunc e.key).toNat % n] := List.getElem?_eq_getElem hb
  -- no element has this bucket
  obtain ⟨l, hchain, hl⟩ := hr.bucket _ _ hget
  have hnone : (elems.filter fun x => table'.slot (n / 8) x.key =
      (table'.hashFunc e.key).toNat % n) = [] := by
    refine List.filter_eq_nil_iff.mpr fun x _ hx => ?_
    have hx : table'.slot (n / 8) x.key = (table'.hashFunc e.key).toNat % n := by simpa using hx
    have hsmall : table'.slot (n / 8) x.key < n / 8 := Nat.mod_lt _ hpos
    rw [hx, hr.hashFunc_eq] at hsmall
    omega
  rw [hnone] at hl
  obtain rfl := hl.eq_nil
  have hzero : table'.table[(table'.hashFunc e.key).toNat % n] = 0 := hchain
  have hsize : table'.tableSize = n := by rw [tableSize, hr.length_eq, Nat.mod_eq_of_lt hlt]
  rw [vlHashTableFind, hsize, vlHashTableIndex, if_neg (by omega), ok_bind, bucket_eq hget, ok_bind,
    hzero]
  cases table'.totalElements with
  | zero => rfl
  | succ total => rfl

end VlHashTable

end VeritableLasagna
