import Xrpl.Lib.Yields
import Xrpl.SHAMap.Wire

/-!
# Reading and writing inner nodes

An inner node that is read has a bit of `isBranch_` for each hash other than zero, unless the compressed format gives a
position a hash and takes it back with a zero at last: the bit then stays (`compressed_erased`).  Reading what
`serializeForWire` or `serializeWithPrefix` wrote gives the node with the same hashes of its children.
-/

namespace Xrpl.SHAMap

open List Except WireNode Uint256

section Prefix

variable [Sha512Half]

/-- The node that is read, with the hash that it is given: for the formats with a prefix it is not calculated. -/
def makeFromPrefix (rawNode : List Byte) (hash : Uint256) : Except WireError (WireNode × Uint256) :=
  if rawNode.length < 4 then .error (.runtimeError "prefix: short node")
  else
    let type := rawNode.take 4
    let rawNode := rawNode.drop 4
    if type = hashPrefix 'T' 'X' 'N' then (·, hash) <$> makeTransaction rawNode
    else if type = hashPrefix 'M' 'L' 'N' then (·, hash) <$> makeAccountState rawNode
    else if type = hashPrefix 'M' 'I' 'N' then (·, hash) <$> makeFullInner rawNode
    else if type = hashPrefix 'S' 'N' 'D' then (·, hash) <$> makeTransactionWithMeta rawNode
    else .error (.runtimeError ("prefix: unknown type (" ++
      toString (type.foldl (fun n b => n * 256 + b.toNat) 0) ++ ")"))

end Prefix

/-- `serializeWithPrefix` of an inner node. -/
def serializeWithPrefix (isBranch : Fin kBranchFactor → Bool) (hashes : Fin kBranchFactor → Uint256) : List Byte :=
  hashPrefix 'M' 'I' 'N' ++ (finRange kBranchFactor).flatMap fun i => (getChildHash isBranch hashes i).bytes

/-- The positions and hashes of the chunks of the compressed format. -/
def chunks : Nat → List Byte → List (Nat × Uint256)
  | 0, _ => []
  | n + 1, data => (((data.drop kBytes).headD 0).toNat, ofBytes (data.take kBytes)) :: chunks n (data.drop kChunkSize)

/-- The last hash for each position. -/
def lastHash (cs : List (Nat × Uint256)) (pos : Nat) : Option Uint256 := ((cs.filter (·.1 = pos)).map Prod.snd).getLast?

/-- The last hash for a position that has a hash other than zero is not zero. -/
def Unerased (data : List Byte) : Prop :=
  let cs := chunks (data.length / kChunkSize) data
  ∀ c ∈ cs, c.2 ≠ 0 → lastHash cs c.1 ≠ some 0

instance (data : List Byte) : Decidable (Unerased data) :=
  inferInstanceAs (Decidable (∀ c ∈ chunks (data.length / kChunkSize) data, _))

def WellFormed (isBranch : Fin kBranchFactor → Bool) (hashes : Fin kBranchFactor → Uint256) : Prop :=
  ∀ i, isBranch i = true ↔ hashes i ≠ 0

variable {data : List Byte} {node : WireNode} {isBranch b : Fin kBranchFactor → Bool} {hashes h : Fin kBranchFactor → Uint256}

private lemma splitTag_ok {what : String} {rest : List Byte} {tag : Uint256}
    (h : splitTag what data = .ok (tag, rest)) : data = rest ++ tag.bytes := by
  unfold splitTag at h
  split at h
  case isTrue => cases h
  case isFalse hlen =>
    injection h with h
    injection h with ht hr
    have hd : (data.drop (data.length - kBytes)).length = 32 := by
      rw [length_drop]
      unfold kBytes at hlen ⊢
      omega
    rw [← ht, ← hr, bytes_ofBytes hd, take_append_drop]

private lemma makeTransactionWithMeta_ok (h : makeTransactionWithMeta data = .ok node) :
    ∃ item, node = .leaf .tnTransactionMd item ∧ data = item.data ++ item.key.bytes := by
  obtain ⟨⟨tag, rest⟩, ht, h⟩ := of_bind_eq_ok h
  obtain ⟨-, -, h⟩ := of_bind_eq_ok h
  injection h with h
  exact ⟨⟨tag, rest⟩, h.symm, splitTag_ok ht⟩

private lemma makeAccountState_ok (h : makeAccountState data = .ok node) :
    ∃ item, node = .leaf .tnAccountState item ∧ data = item.data ++ item.key.bytes := by
  obtain ⟨⟨tag, rest⟩, ht, h⟩ := of_bind_eq_ok h
  dsimp only at h
  split at h
  case isTrue => cases h
  case isFalse =>
    obtain ⟨-, -, h⟩ := of_bind_eq_ok h
    injection h with h
    exact ⟨⟨tag, rest⟩, h.symm, splitTag_ok ht⟩

private lemma makeFullInner_ok (hr : makeFullInner data = .ok node) : ∃ b h, node = .inner b h ∧ WellFormed b h := by
  unfold makeFullInner at hr
  split at hr
  case isTrue => cases hr
  case isFalse =>
    injection hr with hr
    exact ⟨_, _, hr.symm, fun i => decide_eq_true_iff⟩

private lemma lastHash_cons (c : Nat × Uint256) (cs : List (Nat × Uint256)) (pos : Nat) :
    lastHash (c :: cs) pos = if c.1 = pos then some ((lastHash cs pos).getD c.2) else lastHash cs pos := by
  unfold lastHash
  split_ifs with h <;> simp [h, getLast?_cons]

private lemma lastHash_ne_none {c : Nat × Uint256} {cs : List (Nat × Uint256)} (hc : c ∈ cs) :
    lastHash cs c.1 ≠ none := by
  simpa [lastHash] using ⟨_, hc⟩

private lemma mem_of_lastHash {cs : List (Nat × Uint256)} {pos : Nat} {x : Uint256} (h : lastHash cs pos = some x) :
    (pos, x) ∈ cs := by
  simpa using mem_of_getLast? h

/-- A bit is set by every hash other than zero, and the hash is the last one. -/
private lemma compressedLoop_ok {n : Nat} (hr : compressedLoop n data isBranch hashes = .ok node) :
    (∀ c ∈ chunks n data, c.1 < kBranchFactor) ∧ ∃ b h, node = .inner b h ∧
      (∀ i, b i = true ↔ isBranch i = true ∨ ∃ c ∈ chunks n data, c.1 = i ∧ c.2 ≠ 0) ∧
      ∀ i, h i = (lastHash (chunks n data) i).getD (hashes i) := by
  induction n generalizing data isBranch hashes with
  | zero =>
    injection hr with hr
    exact ⟨by simp [chunks], _, _, hr.symm, by simp [chunks], fun i => rfl⟩
  | succ n ih =>
    rw [compressedLoop] at hr
    rw [chunks]
    generalize ofBytes (data.take kBytes) = hash at hr ⊢
    generalize ((data.drop kBytes).headD 0).toNat = pos at hr ⊢
    split at hr
    case isFalse => cases hr
    case isTrue hpos =>
    obtain ⟨hlt, b, h, hn, hb, hh⟩ := ih hr
    refine ⟨forall_mem_cons.2 ⟨hpos, hlt⟩, b, h, hn, fun i => ?_, fun i => ?_⟩
    · rw [hb, exists_mem_cons_iff]
      by_cases hi : i = ⟨pos, hpos⟩
      · by_cases h0 : hash = 0#256 <;> simp [hi, h0]
      · have hi' : pos ≠ i := fun he => hi (Fin.ext he.symm)
        by_cases h0 : hash = 0#256 <;> simp [hi, hi', h0]
    · rw [hh, lastHash_cons]
      by_cases hi : i = ⟨pos, hpos⟩
      · simp [hi]
      · have hi' : pos ≠ i := fun he => hi (Fin.ext he.symm)
        simp [hi, hi']

private lemma makeCompressedInner_ok (hr : makeCompressedInner data = .ok node) :
    ∃ b h, node = .inner b h ∧ (WellFormed b h ↔ Unerased data) := by
  unfold makeCompressedInner at hr
  split at hr
  case isTrue => cases hr
  case isFalse =>
  obtain ⟨hlt, b, h, hn, hb, hh⟩ := compressedLoop_ok hr
  refine ⟨b, h, hn, fun hw c hc h0 hl => ?_, fun hu i => ⟨fun hi => ?_, fun hi => ?_⟩⟩
  · have hi := (hw ⟨c.1, hlt c hc⟩).1 ((hb _).2 (.inr ⟨c, hc, rfl, h0⟩))
    rw [hh, hl] at hi
    exact hi rfl
  · obtain hf | ⟨c, hc, hci, h0⟩ := (hb i).1 hi
    · cases hf
    have hne := hu c hc h0
    obtain ⟨x, hx⟩ := Option.ne_none_iff_exists'.1 (lastHash_ne_none hc)
    rw [hx] at hne
    rw [hh, ← hci, hx]
    simpa using hne
  · rw [hh] at hi
    rcases hx : lastHash (chunks (data.length / kChunkSize) data) i with _ | x
    · simp [hx] at hi
    · rw [hx] at hi
      exact (hb i).2 (.inr ⟨_, mem_of_lastHash hx, rfl, hi⟩)

/-! ### Round trips -/

private lemma take_drop_flatMap {α : Type} (l : List α) (f : α → List Byte) (hf : ∀ a, (f a).length = kBytes) {i : Nat}
    (hi : i < l.length) : ((l.flatMap f).drop (kBytes * i)).take kBytes = f l[i] := by
  induction l generalizing i with
  | nil => cases hi
  | cons a l ih =>
    cases i with
    | zero => simp [← hf a]
    | succ i =>
      have hd : kBytes * (i + 1) = (f a).length + kBytes * i := by rw [hf]; ring
      rw [flatMap_cons, hd, drop_length_add_append]
      exact ih (by simpa using hi)

/-- What is read of a node that was written: the hashes of its children. -/
def decoded (isBranch : Fin kBranchFactor → Bool) (hashes : Fin kBranchFactor → Uint256) : WireNode :=
  .inner (fun i => getChildHash isBranch hashes i ≠ 0) (getChildHash isBranch hashes)

variable (isBranch hashes)

private lemma makeFullInner_flatMap :
    makeFullInner ((finRange kBranchFactor).flatMap fun i => (getChildHash isBranch hashes i).bytes) =
      .ok (decoded isBranch hashes) := by
  have hr : ∀ i : Fin kBranchFactor, ofBytes ((((finRange kBranchFactor).flatMap
      fun i => (getChildHash isBranch hashes i).bytes).drop (kBytes * i)).take kBytes) =
        getChildHash isBranch hashes i := by
    intro i
    rw [take_drop_flatMap _ _ (fun _ => length_bytes _) (by simp)]
    simp [ofBytes_bytes]
  rw [makeFullInner, if_neg (by simp [length_flatMap]; rfl)]
  simp only [hr]
  rfl

private lemma compressedLoop_flatMap (ps : List (Fin kBranchFactor)) :
    compressedLoop ps.length (ps.flatMap fun i => (hashes i).bytes ++ [BitVec.ofNat 8 i]) b h =
      .ok (.inner (fun i => b i || (decide (i ∈ ps) && decide (hashes i ≠ 0)))
        fun i => if i ∈ ps then hashes i else h i) := by
  induction ps generalizing b h with
  | nil => simp [compressedLoop]
  | cons p ps ih =>
    have hb : (BitVec.ofNat 8 (p : Nat)).toNat = p := by
      exact Nat.mod_eq_of_lt (p.isLt.trans (by decide))
    have ht : ∀ rest, ((hashes p).bytes ++ BitVec.ofNat 8 p :: rest).take kBytes = (hashes p).bytes :=
      fun rest => take_left' (length_bytes _)
    have hd : ∀ rest, ((hashes p).bytes ++ BitVec.ofNat 8 p :: rest).drop kBytes = BitVec.ofNat 8 p :: rest :=
      fun rest => drop_left' (length_bytes _)
    have hr : ∀ rest, ((hashes p).bytes ++ BitVec.ofNat 8 p :: rest).drop kChunkSize = rest := by
      intro rest
      rw [kChunkSize, ← drop_drop, hd, drop_one, tail_cons]
    rw [length_cons, flatMap_cons, append_assoc, singleton_append, compressedLoop]
    simp only [ht, hd, hr, headD_cons, hb, ofBytes_bytes, p.isLt, ↓reduceDIte, ih]
    congr 2
    · funext i
      by_cases hi : i = p
      · subst hi
        by_cases hz : hashes i = 0#256 <;> simp [hz]
      · by_cases hz : hashes p = 0#256 <;> simp [hz, hi]
    · funext i
      by_cases hi : i = p
      · subst hi; simp
      · simp [hi]

private lemma makeCompressedInner_flatMap : makeCompressedInner (((finRange kBranchFactor).filter isBranch).flatMap
      fun i => (hashes i).bytes ++ [BitVec.ofNat 8 i]) = .ok (decoded isBranch hashes) := by
  have hlen : (((finRange kBranchFactor).filter isBranch).flatMap
      fun i => (hashes i).bytes ++ [BitVec.ofNat 8 i]).length =
        ((finRange kBranchFactor).filter isBranch).length * kChunkSize := by
    simp [kChunkSize, kBytes]
  have hle : ((finRange kBranchFactor).filter isBranch).length ≤ kBranchFactor := by
    simpa using length_filter_le isBranch (finRange kBranchFactor)
  rw [makeCompressedInner, hlen, if_neg, Nat.mul_div_cancel _ (by decide), compressedLoop_flatMap]
  · unfold decoded getChildHash
    congr 2
    · funext i
      by_cases hi : isBranch i = true <;> simp [hi]
    · funext i
      by_cases hi : isBranch i = true <;> simp [hi]
  · rw [not_or]
    exact ⟨by simp, by rw [Nat.mul_comm kChunkSize]; exact Nat.not_lt.2 (Nat.mul_le_mul_right _ hle)⟩

private lemma of_map_eq_ok {α β : Type} {f : α → β} {x : Except WireError α} {y : β} (h : f <$> x = .ok y) :
    ∃ a, x = .ok a ∧ f a = y := by
  cases x with
  | error e => cases h
  | ok a => exact ⟨a, rfl, ok.inj h⟩

lemma getChildHash_decoded (i : Fin kBranchFactor) : getChildHash (fun i => getChildHash isBranch hashes i ≠ 0)
      (getChildHash isBranch hashes) i = getChildHash isBranch hashes i := by
  rw [getChildHash]
  split
  · rfl
  · simp_all

section Hashing

variable [Sha512Half]

lemma makeFromWire_inner :
    makeFromWire (serializeForWire (.inner isBranch hashes)) = .ok (some (decoded isBranch hashes)) := by
  rw [serializeForWire]
  split
  · rw [makeFromWire, getLast?_concat, dropLast_concat]
    show some <$> makeCompressedInner _ = _
    rw [makeCompressedInner_flatMap]
    rfl
  · rw [makeFromWire, getLast?_concat, dropLast_concat]
    show some <$> makeFullInner _ = _
    rw [makeFullInner_flatMap]
    rfl

private lemma makeFromPrefix_inner (hash : Uint256) :
    makeFromPrefix (serializeWithPrefix isBranch hashes) hash = .ok (decoded isBranch hashes, hash) := by
  have hr := makeFullInner_flatMap isBranch hashes
  rw [serializeWithPrefix]
  generalize (finRange kBranchFactor).flatMap _ = bytes at hr ⊢
  show (·, hash) <$> makeFullInner bytes = _
  rw [hr]
  rfl

variable {isBranch hashes} {blob : List Byte}

/-- A branch whose hash is zero is not there for the reader, which matters when no other branch is there. -/
lemma getHash_decoded : (decoded isBranch hashes).getHash = (inner isBranch hashes).getHash ↔
    (∃ i, getChildHash isBranch hashes i ≠ 0) ∨ (inner isBranch hashes).getHash = 0 := by
  by_cases hs : ∃ i, getChildHash isBranch hashes i ≠ 0
  · refine iff_of_true ?_ (.inl hs)
    obtain ⟨i, hi⟩ := hs
    have hbr : isBranch i = true := by
      by_contra hno
      exact hi (if_neg hno)
    rw [decoded, WireNode.getHash, WireNode.getHash, if_neg, if_neg]
    · simp only [getChildHash_decoded]
    · simp only [all_eq_true, not_forall]
      exact ⟨i, by simp [hbr]⟩
    · simp only [all_eq_true, not_forall]
      exact ⟨i, by simpa using hi⟩
  · have hz : (decoded isBranch hashes).getHash = 0 := by
      rw [decoded, WireNode.getHash, if_pos (by simpa using hs)]
    rw [hz, or_iff_right hs, eq_comm]

private lemma makeTransaction_ok (h : makeTransaction data = .ok node) :
    ∃ item, node = .leaf .tnTransactionNm item ∧ data = item.data := by
  obtain ⟨-, -, h⟩ := of_bind_eq_ok h
  exact ⟨_, (ok.inj h).symm, rfl⟩

/-- A leaf that is read has the bytes that are written for it; an inner node comes from one of the two formats. -/
lemma makeFromWire_cases (hr : makeFromWire blob = .ok (some node)) :
    (∃ type item, node = .leaf type item ∧ blob = serializeForWire (.leaf type item)) ∨ ∃ b h, node = .inner b h ∧
        (WellFormed b h ↔ (blob.getLast? = some kWireTypeCompressedInner → Unerased blob.dropLast)) := by
  unfold makeFromWire at hr
  rcases hl : blob.getLast? with _ | byte
  · rw [hl] at hr
    cases hr
  rw [hl] at hr
  have hb : blob.dropLast ++ [byte] = blob := by
    obtain ⟨l, rfl⟩ := getLast?_eq_some_iff.1 hl
    rw [dropLast_concat]
  dsimp only at hr
  rw [← hb, dropLast_concat]
  split_ifs at hr with hTransaction hAccountState hInner hCompressed hMeta
  all_goals obtain ⟨node', hm, heq⟩ := of_map_eq_ok hr
  all_goals obtain rfl := Option.some.inj heq
  · obtain ⟨item, hn, hd⟩ := makeTransaction_ok hm
    exact .inl ⟨_, item, hn, by rw [hd, hTransaction]; rfl⟩
  · obtain ⟨item, hn, hd⟩ := makeAccountState_ok hm
    exact .inl ⟨_, item, hn, by rw [hd, hAccountState]; rfl⟩
  · obtain ⟨b, h, hn, hw⟩ := makeFullInner_ok hm
    exact .inr ⟨b, h, hn, iff_of_true hw fun ht => absurd (hInner.symm.trans (by simpa using ht)) (by decide)⟩
  · obtain ⟨b, h, hn, hw⟩ := makeCompressedInner_ok hm
    exact .inr ⟨b, h, hn, hw.trans (by simp [hCompressed])⟩
  · obtain ⟨item, hn, hd⟩ := makeTransactionWithMeta_ok hm
    exact .inl ⟨_, item, hn, by rw [hd, hMeta]; rfl⟩

private lemma makeFromPrefix_wellFormed {hash hash' : Uint256}
    (hr : makeFromPrefix blob hash = .ok (.inner b h, hash')) : WellFormed b h := by
  unfold makeFromPrefix at hr
  dsimp only at hr
  split_ifs at hr
  all_goals obtain ⟨node, hm, heq⟩ := of_map_eq_ok hr
  all_goals obtain ⟨rfl, -⟩ := Prod.mk.inj heq
  · obtain ⟨item, hn, -⟩ := makeTransaction_ok hm
    cases hn
  · obtain ⟨item, hn, -⟩ := makeAccountState_ok hm
    cases hn
  · obtain ⟨b, h, hn, hw⟩ := makeFullInner_ok hm
    cases hn
    exact hw
  · obtain ⟨item, hn, -⟩ := makeTransactionWithMeta_ok hm
    cases hn

/-- An inner node that is read from the wire is well formed exactly if the compressed format takes no hash back; writing a
node and reading it again keeps the hashes of the children, and it keeps the hash of the node exactly if one of them is not
zero, or the hash of the node is. -/
theorem inner_read_and_written (rawNode : List Byte) (hash hash' : Uint256) (isBranch : Fin kBranchFactor → Bool)
    (hashes : Fin kBranchFactor → Uint256) :
    (makeFromWire rawNode = .ok (some (.inner isBranch hashes)) → (WellFormed isBranch hashes ↔
      (rawNode.getLast? = some kWireTypeCompressedInner → Unerased rawNode.dropLast))) ∧
    (makeFromPrefix rawNode hash = .ok (.inner isBranch hashes, hash') → WellFormed isBranch hashes) ∧
    ∃ b h, makeFromWire (serializeForWire (.inner isBranch hashes)) = .ok (some (.inner b h)) ∧
      makeFromPrefix (serializeWithPrefix isBranch hashes) hash = .ok (.inner b h, hash) ∧
      (∀ i, getChildHash b h i = getChildHash isBranch hashes i) ∧
      ((inner b h).getHash = (inner isBranch hashes).getHash ↔
        (∃ i, getChildHash isBranch hashes i ≠ 0) ∨ (inner isBranch hashes).getHash = 0) := by
  refine ⟨fun hr => ?_, makeFromPrefix_wellFormed, _, _, makeFromWire_inner isBranch hashes,
    makeFromPrefix_inner isBranch hashes hash, getChildHash_decoded isBranch hashes, getHash_decoded⟩
  rcases makeFromWire_cases hr with ⟨type, item, hn, -⟩ | ⟨b, h, hn, hw⟩
  · cases hn
  · cases hn
    exact hw

end Hashing

/-- A node in the compressed format. -/
def compressedBlob (cs : List (Uint256 × Byte)) : List Byte :=
  cs.flatMap (fun c => c.1.bytes ++ [c.2]) ++ [kWireTypeCompressedInner]

/-- Position 3 gets the hash 1, then the hash 0 and then the hash 2, which stays. -/
theorem compressed_restored : let _ : Sha512Half := ⟨fun _ => 1⟩
    ∃ b h, makeFromWire (compressedBlob [(1, 3), (0, 3), (2, 3)]) = .ok (some (.inner b h)) ∧ WellFormed b h ∧ h 3 = 2 ∧
      ∃ b' h', makeFromWire (serializeForWire (.inner b h)) = .ok (some (.inner b' h')) ∧
        (inner b' h').getHash = (inner b h).getHash := by
  intro inst
  obtain ⟨b, h, hr, h3⟩ : ∃ b h, makeFromWire (compressedBlob [(1, 3), (0, 3), (2, 3)]) = .ok (some (.inner b h)) ∧
      getChildHash b h 3 = 2 := ⟨_, _, rfl, by decide +kernel⟩
  obtain ⟨hw, -, b', h', hr', -, -, hh⟩ := inner_read_and_written (compressedBlob [(1, 3), (0, 3), (2, 3)]) 0 0 b h
  have hb : b 3 = true := by
    by_contra hb
    simp [getChildHash, hb] at h3
  exact ⟨b, h, hr, (hw hr).2 fun _ => by decide +kernel, by simpa [getChildHash, hb] using h3, b', h', hr',
    hh.2 (.inl ⟨3, by simp [h3]⟩)⟩

/-- Position 3 gets the hash 1 and then the hash 0: the bit is set, and the hash is zero. -/
theorem compressed_erased : let _ : Sha512Half := ⟨fun _ => 1⟩
    ∃ b h, makeFromWire (compressedBlob [(1, 3), (0, 3)]) = .ok (some (.inner b h)) ∧ b 3 = true ∧ h 3 = 0 :=
  ⟨_, _, rfl, by decide +kernel, by decide +kernel⟩

end Xrpl.SHAMap
