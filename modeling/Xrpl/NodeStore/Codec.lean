import Xrpl.NodeStore.Varint

/-!
# The codec of the node store

An inner node is stored as a mask of its branches and the hashes other than zero, anything else is compressed with LZ4.

* `nodeobjectDecompress_nodeobjectCompress`: decompressing gives the node back, without the header of an inner node.
-/

namespace Xrpl.NodeStore

open List

/-- What `LZ4_compress_default` writes, nothing if it fails, and what `LZ4_decompress_safe` writes to a buffer of some
size. -/
structure LZ4 where
  compressDefault : Blob → Blob
  decompressSafe : Blob → ℕ → Option Blob

variable {lz4 : LZ4} {x input : Blob} {i : ℕ}

def lz4Decompress (lz4 : LZ4) (input : Blob) : Except String Blob :=
  if 2 ^ 31 ≤ input.length % 2 ^ 32 then .error "lz4_decompress: integer overflow (input)"
  else
    match readVarint input with
    | none => .error "lz4_decompress: invalid blob"
    | some (n, outSize) =>
      if input.length ≤ n then .error "lz4_decompress: invalid blob"
      else if outSize % 2 ^ 32 = 0 ∨ 2 ^ 31 ≤ outSize % 2 ^ 32 then
        .error "lz4_decompress: integer overflow (output)"
      else
        match lz4.decompressSafe (input.drop n) (outSize % 2 ^ 32) with
        | none => .error "lz4_decompress: LZ4_decompress_safe"
        | some out =>
          if out.length ≠ outSize % 2 ^ 32 then .error "lz4_decompress: LZ4_decompress_safe"
          -- the buffer has `outSize` bytes, also those that are not written
          else .ok (out ++ replicate (outSize - out.length) 0)

def lz4Compress (lz4 : LZ4) (input : Blob) : Except String Blob :=
  let out := lz4.compressDefault input
  if out = [] then .error "lz4 compress" else .ok (writeVarint input.length ++ out)

def innerNode : Blob := [0x4d, 0x49, 0x4e, 0]

/-- The index, the unused field and the kind, which are not stored, and the prefix. -/
def innerHeader : Blob := replicate 9 0 ++ innerNode

/-- The loop over the bits of the mask from the bit `i - 1` down. -/
def readHashes (mask : ℕ) : ℕ → Blob → Except String Blob
  | 0, input =>
    if 0 < input.length then .error ("nodeobject codec v1: long inner node, in_size = " ++ toString input.length)
    else .ok []
  | i + 1, input =>
    if mask.testBit i then
      if input.length < 32 then .error ("nodeobject codec v1: short inner node subsize: in_size = " ++
        toString input.length ++ " i = " ++ toString i)
      else (input.take 32 ++ ·) <$> readHashes mask i (input.drop 32)
    else (replicate 32 0 ++ ·) <$> readHashes mask i input

def nodeobjectDecompress (lz4 : LZ4) (input : Blob) : Except String Blob :=
  match readVarint input with
  | none => .error "nodeobject decompress"
  | some (vn, type) =>
    let input := input.drop vn
    match type with
    | 0 => .ok input
    | 1 => lz4Decompress lz4 input
    | 2 =>
      match input with
      | hi :: lo :: hashes =>
        if hashes.length < 32 then .error ("nodeobject codec v1: short inner node size: in_size = " ++
          toString input.length ++ " hs = 2")
        else
          let mask := hi.toNat * 256 + lo.toNat
          if mask = 0 then .error "nodeobject codec v1: empty inner node"
          else (innerHeader ++ ·) <$> readHashes mask 16 hashes
      | _ => .error ("nodeobject codec v1: short inner node size: in_size = " ++ toString input.length ++ " hs = 2")
    | 3 =>
      if input.length ≠ 16 * 32 then
        .error ("nodeobject codec v1: short full inner node, in_size = " ++ toString input.length)
      else .ok (innerHeader ++ input)
    | type => .error ("nodeobject codec: bad type=" ++ toString type)

/-- The loop of `nodeobjectCompress`: the mask and the hashes other than zero. -/
def packHashes : ℕ → Blob → ℕ × List Blob
  | 0, _ => (0, [])
  | i + 1, input =>
    let h := input.take 32
    let rest := packHashes i (input.drop 32)
    if h = replicate 32 0 then rest else (2 ^ i ||| rest.1, h :: rest.2)

def IsInner (x : Blob) : Prop := x.length = 525 ∧ (x.drop 9).take 4 = innerNode

instance : Decidable (IsInner x) := inferInstanceAs (Decidable (_ ∧ _))

def nodeobjectCompress (lz4 : LZ4) (x : Blob) : Except String Blob :=
  if IsInner x then
    let (mask, vh) := packHashes 16 (x.drop 13)
    if vh.length < 16 then .ok (writeVarint 2 ++ (mask / 256).toUInt8 :: (mask % 256).toUInt8 :: vh.flatten)
    else .ok (writeVarint 3 ++ vh.flatten)
  else (writeVarint 1 ++ ·) <$> lz4Compress lz4 x

def filterInner (x : Blob) : Blob := if IsInner x then replicate 9 0 ++ x.drop 9 else x

/-- What the loop has found in some hashes. -/
structure Packed (i : ℕ) (input : Blob) (mask : ℕ) (vh : List Blob) : Prop where
  lt : mask < 2 ^ i
  hashes : ∀ h ∈ vh, h.length = 32
  le : vh.length ≤ i
  full : vh.length = i → vh.flatten = input
  empty : mask = 0 ∨ vh = [] → ∀ b ∈ input, b = 0

private lemma packed_packHashes (hlen : input.length = 32 * i) :
    Packed i input (packHashes i input).1 (packHashes i input).2 := by
  induction i generalizing input with
  | zero =>
    obtain rfl := length_eq_zero_iff.1 hlen
    exact ⟨by decide, by simp [packHashes], le_rfl, fun _ => rfl, by simp⟩
  | succ i ih =>
    have h := @ih (input.drop 32) (by rw [length_drop]; omega)
    have hlt := h.lt
    have hle := h.le
    rw [packHashes]
    generalize packHashes i (input.drop 32) = r at *
    split_ifs with hz
    · refine ⟨by omega, h.hashes, by omega, fun hi => by omega, fun he b hb => ?_⟩
      rw [← take_append_drop 32 input, hz, mem_append] at hb
      exact hb.elim eq_of_mem_replicate (h.empty he b)
    · refine ⟨Nat.or_lt_two_pow (by omega) (by omega), ?_, Nat.succ_le_succ hle, fun hi => ?_, ?_⟩
      · exact forall_mem_cons.2 ⟨by rw [length_take]; omega, h.hashes⟩
      · rw [flatten_cons, h.full (Nat.succ.inj hi), take_append_drop]
      · rintro (hm | hn)
        · have := Nat.left_le_or (n := 2 ^ i) (m := r.1)
          omega
        · cases hn

/-- The bits of the mask below `i` are those of the loop, the others belong to hashes that have been read. -/
private lemma readHashes_packHashes {mask : ℕ} (hlen : input.length = 32 * i)
    (hm : ∀ j < i, mask.testBit j = (packHashes i input).1.testBit j) :
    readHashes mask i (packHashes i input).2.flatten = .ok input := by
  induction i generalizing input with
  | zero =>
    obtain rfl := length_eq_zero_iff.1 hlen
    rfl
  | succ i ih =>
    have hd : (input.drop 32).length = 32 * i := by rw [length_drop]; omega
    have ht : (input.take 32).length = 32 := by rw [length_take]; omega
    have hlt := (packed_packHashes hd).lt
    have hb := hm i (Nat.lt_succ_self i)
    have hjo : (input.take 32 ++ ·) <$> Except.ok (ε := String) (input.drop 32) = .ok input :=
      congrArg Except.ok (take_append_drop ..)
    rw [packHashes] at hm hb ⊢
    rw [readHashes, hb]
    by_cases hz : input.take 32 = replicate 32 0
    · simp only [if_pos hz] at hm ⊢
      rw [Nat.testBit_lt_two_pow hlt, ih hd fun j hj => hm j (by omega), ← hz]
      exact hjo
    · simp only [if_neg hz] at hm ⊢
      rw [Nat.testBit_or, Nat.testBit_two_pow_self, Bool.true_or, if_pos rfl, flatten_cons, length_append, ht,
        if_neg (by omega), take_left' ht, drop_left' ht, ih hd fun j hj => ?_]
      · exact hjo
      · rw [hm j (by omega), Nat.testBit_or, Nat.testBit_two_pow_of_ne (by omega), Bool.false_or]

/-- LZ4 compresses a blob to one whose size is an `int`, and restores it. -/
structure LZ4.Inverts (lz4 : LZ4) (x : Blob) : Prop where
  ne_nil : lz4.compressDefault x ≠ []
  fits : (writeVarint x.length ++ lz4.compressDefault x).length < 2 ^ 31
  restores : lz4.decompressSafe (lz4.compressDefault x) x.length = some x

private lemma lz4Decompress_lz4Compress (hpos : 1 ≤ x.length) (hmax : x.length < 2 ^ 31) (h : lz4.Inverts x) :
    lz4Decompress lz4 (writeVarint x.length ++ lz4.compressDefault x) = .ok x := by
  have hm : x.length % 2 ^ 32 = x.length := Nat.mod_eq_of_lt (by omega)
  have hs := h.fits
  have hc := length_pos_iff.2 h.ne_nil
  rw [lz4Decompress, if_neg (by omega), readVarint_writeVarint (by omega)]
  dsimp only
  rw [if_neg (by rw [length_append]; omega), hm, if_neg (by omega), drop_left, h.restores]
  dsimp only
  rw [if_neg (not_not.2 rfl), Nat.sub_self, replicate_zero, append_nil]

/-- The hash of a branch. -/
def slot (x : Blob) (i : ℕ) : Blob := (x.drop (13 + 32 * i)).take 32

private lemma decompress_inner (lz4 : LZ4) (hx : IsInner x) (hs : ∃ b ∈ x.drop 13, b ≠ 0) :
    ∃ stored, nodeobjectCompress lz4 x = .ok stored ∧
      nodeobjectDecompress lz4 stored = .ok (innerHeader ++ x.drop 13) := by
  have hlen : (x.drop 13).length = 32 * 16 := by rw [length_drop, hx.1]
  have hpk := packed_packHashes hlen
  have hr := readHashes_packHashes hlen fun _ _ => rfl
  rw [nodeobjectCompress, if_pos hx]
  generalize packHashes 16 (x.drop 13) = r at hpk hr ⊢
  obtain ⟨mask, vh⟩ := r
  have he : ¬ (mask = 0 ∨ vh = []) := fun he => by
    obtain ⟨b, hb, hne⟩ := hs
    exact hne (hpk.empty he b hb)
  dsimp only
  split_ifs with hn
  · have hlt : mask < 2 ^ 16 := hpk.lt
    have hm : (mask / 256).toUInt8.toNat * 256 + (mask % 256).toUInt8.toNat = mask := by
      simp only [Nat.toUInt8, UInt8.toNat_ofNat']
      omega
    have hsi : 32 ≤ vh.flatten.length := by
      obtain ⟨h, vh, rfl⟩ := exists_cons_of_ne_nil fun hnil => he (.inr hnil)
      rw [flatten_cons, length_append, hpk.hashes h mem_cons_self]
      omega
    refine ⟨_, rfl, ?_⟩
    rw [nodeobjectDecompress, readVarint_writeVarint (by decide)]
    simp only [drop_left, hm]
    rw [if_neg (by omega), if_neg fun h0 => he (.inl h0), hr]
    rfl
  · have hf := hpk.full (Nat.le_antisymm hpk.le (Nat.le_of_not_lt hn))
    refine ⟨_, rfl, ?_⟩
    rw [nodeobjectDecompress, readVarint_writeVarint (by decide)]
    simp only [drop_left, hf]
    exact if_neg (not_not.2 hlen)

/-- What is stored comes back, except for the first fields of an inner node; its hashes are where they were. -/
theorem nodeobjectDecompress_nodeobjectCompress (lz4 : LZ4) (x : Blob) (hpos : 1 ≤ x.length) (hmax : x.length < 2 ^ 31)
    (hlz4 : ¬ IsInner x → lz4.Inverts x) (hinner : IsInner x → ∃ b ∈ x.drop 13, b ≠ 0) :
    ∃ stored out, nodeobjectCompress lz4 x = .ok stored ∧ nodeobjectDecompress lz4 stored = .ok out ∧
      out = filterInner x ∧ (IsInner x → ∀ i < 16, slot out i = slot x i) := by
  by_cases hx : IsInner x
  · obtain ⟨stored, hs, ho⟩ := decompress_inner lz4 hx (hinner hx)
    have hf : filterInner x = innerHeader ++ x.drop 13 := by
      rw [filterInner, if_pos hx, innerHeader, ← hx.2, append_assoc, ← drop_drop (i := 4) (j := 9), take_append_drop]
    refine ⟨_, _, hs, ho, hf.symm, fun _ i _ => ?_⟩
    rw [slot, slot, ← drop_drop, ← drop_drop]
    rfl
  · have hs : nodeobjectCompress lz4 x = .ok (writeVarint 1 ++ (writeVarint x.length ++ lz4.compressDefault x)) := by
      rw [nodeobjectCompress, if_neg hx, lz4Compress, if_neg (hlz4 hx).ne_nil]
      rfl
    refine ⟨_, x, hs, ?_, (if_neg hx).symm, fun h => absurd h hx⟩
    rw [nodeobjectDecompress, readVarint_writeVarint (by decide)]
    simp only [drop_left]
    exact lz4Decompress_lz4Compress hpos hmax (hlz4 hx)

/-- An inner node with one branch, and a blob of one repeated byte, of which the LZ4 keeps one. -/
theorem codec_oneBranch : let lz4 : LZ4 := ⟨take 1, fun x size => some (replicate size (x.headD 0))⟩
    let x := replicate 9 1 ++ innerNode ++ replicate 511 0 ++ [5]
    let y := replicate 100 7
    (IsInner x ∧ ∃ stored out, nodeobjectCompress lz4 x = .ok stored ∧ nodeobjectDecompress lz4 stored = .ok out ∧
      out = filterInner x ∧ (IsInner x → ∀ i < 16, slot out i = slot x i)) ∧
    lz4.Inverts y ∧ ∃ stored out, nodeobjectCompress lz4 y = .ok stored ∧ nodeobjectDecompress lz4 stored = .ok out ∧
      out = filterInner y ∧ (IsInner y → ∀ i < 16, slot out i = slot y i) := by
  intro lz4 x y
  have hx : IsInner x := by decide +kernel
  have hy : lz4.Inverts y := ⟨by decide, by decide +kernel, rfl⟩
  exact ⟨⟨hx, nodeobjectDecompress_nodeobjectCompress lz4 x (by decide +kernel) (by decide +kernel) (absurd hx)
    fun _ => ⟨5, by decide +kernel, by decide⟩⟩, hy, nodeobjectDecompress_nodeobjectCompress lz4 y (by decide)
    (by decide) (fun _ => hy) fun hi => absurd hi (by decide)⟩

end Xrpl.NodeStore
