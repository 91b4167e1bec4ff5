import Xrpl.Lib.HashMap

/-!
# Skip lists

A ledger keeps the hashes of earlier ledgers in its state map: one list with those of the last 256 ledgers, and pages
with those of every 256th ledger, one page for 65536 ledgers.  `updateSkipList` adds the hash of the parent, and
`hashOfSeq` looks a hash up, counting from the end of a list.

* `chain`: the ledgers from the first one on, each built on the one before it;
* `hashOfSeq_chain`: a hash that is found is that of the ancestor, and it is found where it should be.
-/

namespace Xrpl.SkipList

open List

/-- A list of hashes, and the sequence of the ledger of which the last hash is. -/
structure LedgerHashes (H : Type) where
  hashes : List H
  lastLedgerSequence : ℕ

/-- The header of a ledger, and the lists of hashes in its state map; the pages have the key `seq >> 16`. -/
structure Ledger (H : Type) where
  seq : ℕ
  hash : H
  parentHash : H
  skip : Option (LedgerHashes H) := none
  skipPages : HashMap ℕ (LedgerHashes H) := ∅

namespace Ledger

variable {H : Type}

def updatePages (l : Ledger H) : HashMap ℕ (LedgerHashes H) :=
  let prevIndex := l.seq - 1
  if prevIndex % 256 = 0 then
    let hashes := (l.skipPages.lookup (prevIndex / 65536)).elim [] LedgerHashes.hashes
    l.skipPages.insert (prevIndex / 65536) ⟨hashes ++ [l.parentHash], prevIndex⟩
  else l.skipPages

def updateSkip (l : Ledger H) : LedgerHashes H :=
  let hashes := l.skip.elim [] LedgerHashes.hashes
  ⟨(if hashes.length = 256 then hashes.tail else hashes) ++ [l.parentHash], l.seq - 1⟩

def updateSkipList (l : Ledger H) : Ledger H :=
  if l.seq = 0 then l else { l with skip := some l.updateSkip, skipPages := l.updatePages }

/-- Within 256.  The difference is a signed number of 32 bits, which is compared with a size as one of 64 bits. -/
def recentHash (l : Ledger H) (seq : ℕ) : Option H :=
  let diff := (BitVec.ofNat 32 (l.seq - seq)).toInt
  if diff ≤ 256 then
    match l.skip with
    | none => none
    | some vec =>
      let size := vec.hashes.length
      if (BitVec.ofInt 64 diff).toNat ≤ size then vec.hashes[size - (BitVec.ofInt 64 diff).toNat]? else none
  else none

def pageHash (l : Ledger H) (seq : ℕ) : Option H :=
  if seq % 256 ≠ 0 then none
  else
    match l.skipPages.lookup (seq / 65536) with
    | none => none
    | some vec =>
      let diff := (vec.lastLedgerSequence + 2 ^ 32 - seq) % 2 ^ 32 / 256
      if diff < vec.hashes.length then vec.hashes[vec.hashes.length - diff - 1]? else none

def hashOfSeq (l : Ledger H) (seq : ℕ) : Option H :=
  if l.seq < seq then none
  else if seq = l.seq then some l.hash
  else if seq = l.seq - 1 then some l.parentHash
  else (l.recentHash seq).or (l.pageHash seq)

variable (hash : ℕ → H)

/-- The hashes of the last ledgers before the one with the sequence `n + 1`. -/
def recent (n : ℕ) : List H := (range' (n - min n 256 + 1) (min n 256)).map hash

private lemma length_recent (n : ℕ) : (recent hash n).length = min n 256 := by simp [recent]

private lemma range_slide (a k : ℕ) : (range' a (k + 1)).tail ++ [a + k + 1] = range' (a + 1) (k + 1) := by
  rw [tail_range', range'_concat]
  simp [Nat.add_right_comm]

private lemma recent_succ (n : ℕ) : recent hash (n + 1) =
      (if (recent hash n).length = 256 then (recent hash n).tail else recent hash n) ++ [hash (n + 1)] := by
  rw [length_recent]
  split_ifs with hf
  · obtain ⟨m, rfl⟩ : ∃ m, n = m + 256 := ⟨n - 256, by omega⟩
    have hmin : min (m + 256) 256 = 256 := by omega
    have hmin' : min (m + 256 + 1) 256 = 256 := by omega
    have hs := congrArg (map hash) (range_slide (m + 1) 255)
    rw [map_append] at hs
    rw [recent, recent, hmin, hmin', Nat.add_sub_cancel, show m + 256 + 1 - 256 = m + 1 by omega]
    exact hs.symm
  · have hmin : min n 256 = n := by omega
    have hmin' : min (n + 1) 256 = n + 1 := by omega
    rw [recent, recent, hmin, hmin', range'_concat]
    simp [Nat.add_comm]

/-- The numbers of the 256th ledgers on a page, up to the sequence `n`: from the first one to the last one. -/
def firstOn (p : ℕ) : ℕ := max 1 (256 * p)

def lastOn (n p : ℕ) : ℕ := min (n / 256) (256 * p + 255)

def paged (n p : ℕ) : List H :=
  (range' (firstOn p) (lastOn n p + 1 - firstOn p)).map fun m => hash (256 * m)

private lemma getElem?_map_range' (f : ℕ → H) {a n i : ℕ} (hi : i < n) :
    ((range' a n).map f)[i]? = some (f (a + i)) := by
  simp [hi]

variable [Zero H]

def genesis (hash : H) : Ledger H where
  seq := 1
  hash
  parentHash := 0

def build (parent : Ledger H) (hash : H) : Ledger H :=
  updateSkipList { parent with seq := parent.seq + 1, hash, parentHash := parent.hash }

/-- The ledgers whose hashes are `hash 1`, `hash 2` and so on. -/
def chain (hash : ℕ → H) : ℕ → Ledger H
  | 0 => genesis (hash 1)
  | n + 1 => build (chain hash n) (hash (n + 2))

section

variable (n : ℕ)

@[simp] lemma seq_chain : (chain hash n).seq = n + 1 := by
  induction n with
  | zero => rfl
  | succ n ih =>
    exact congrArg (· + 1) ih

@[simp] lemma hash_chain : (chain hash n).hash = hash (n + 1) := by
  cases n with
  | zero => rfl
  | succ n => rw [chain, build, updateSkipList, if_neg (Nat.succ_ne_zero _)]

private lemma parentHash_chain : (chain hash (n + 1)).parentHash = hash (n + 1) := by
  exact hash_chain hash n

private lemma skipPages_chain_succ : (chain hash (n + 1)).skipPages =
      updatePages { chain hash n with seq := n + 2, hash := hash (n + 2), parentHash := hash (n + 1) } := by
  rw [chain, build, updateSkipList, if_neg (Nat.succ_ne_zero _), seq_chain, hash_chain]

private lemma skip_chain : (chain hash (n + 1)).skip = some ⟨recent hash (n + 1), n + 1⟩ := by
  induction n with
  | zero => rw [recent_succ]; rfl
  | succ n ih =>
    rw [chain, build, updateSkipList, if_neg (Nat.succ_ne_zero _), seq_chain, hash_chain, recent_succ, updateSkip, ih]
    rfl

end

private lemma lookup_skipPages_chain (n p : ℕ) : (chain hash n).skipPages.lookup p =
      if lastOn n p < firstOn p then none else some ⟨paged hash n p, 256 * lastOn n p⟩ := by
  induction n generalizing p with
  | zero =>
    rw [if_pos (by simp [lastOn, firstOn])]
    rfl
  | succ n ih =>
    rw [skipPages_chain_succ, updatePages]
    rw [show n + 2 - 1 = n + 1 by omega]
    by_cases hr : (n + 1) % 256 = 0
    · obtain ⟨m, hm⟩ : ∃ m, n + 1 = 256 * m := ⟨(n + 1) / 256, by omega⟩
      have hpa : (n + 1) / 65536 = m / 256 := by omega
      rw [if_pos hr, HashMap.lookup_put, hpa]
      by_cases hp : p = m / 256
      · have hl : lastOn (n + 1) p = m := by rw [lastOn]; omega
        have hf : firstOn p ≤ m := by rw [firstOn]; omega
        rw [if_pos hp, paged, hl, if_neg (Nat.not_lt.2 hf), ← hp, hm]
        have hold : ((chain hash n).skipPages.lookup p).elim [] LedgerHashes.hashes =
            (range' (firstOn p) (m - firstOn p)).map fun m => hash (256 * m) := by
          have hl' : lastOn n p = m - 1 := by rw [lastOn]; omega
          rw [ih]
          split_ifs with hn
          · rw [show m - firstOn p = 0 by omega]
            rfl
          · rw [Option.elim_some, paged, hl', show m - 1 + 1 - firstOn p = m - firstOn p by omega]
        rw [hold, show m + 1 - firstOn p = m - firstOn p + 1 by omega, range'_concat, map_append,
          map_singleton, show firstOn p + 1 * (m - firstOn p) = m by omega]
      · have hs : lastOn (n + 1) p = lastOn n p ∨ lastOn (n + 1) p < firstOn p ∧ lastOn n p < firstOn p := by
          simp only [lastOn, firstOn]
          omega
        rw [if_neg hp, ih]
        rcases hs with hs | ⟨hlt, hlt'⟩
        · rw [paged, paged, hs]
        · rw [if_pos hlt, if_pos hlt']
    · have hs : lastOn (n + 1) p = lastOn n p := by
        simp only [lastOn]
        omega
      rw [if_neg hr, paged, hs]
      exact ih p

/-! ### Looking up -/

private lemma toNat_ofInt_toInt {d : ℕ} (hd : d < 2 ^ 32) :
    (BitVec.ofNat 32 d).toInt = (d : ℤ) ∧ (BitVec.ofInt 64 (BitVec.ofNat 32 d).toInt).toNat = d ∨
      2 ^ 31 ≤ d ∧ 2 ^ 32 ≤ (BitVec.ofInt 64 (BitVec.ofNat 32 d).toInt).toNat := by
  rw [BitVec.toNat_ofInt, BitVec.toInt_eq_toNat_cond, BitVec.toNat_ofNat]
  split_ifs <;> omega

private lemma recentHash_chain {n s : ℕ} (hn : n + 1 < 2 ^ 32) (hs : s < n) :
    (chain hash n).recentHash s = if 1 ≤ s ∧ n + 1 - s ≤ 256 then some (hash s) else none := by
  obtain ⟨n, rfl⟩ : ∃ m, n = m + 1 := ⟨n - 1, by omega⟩
  rw [recentHash, seq_chain, skip_chain]
  dsimp only
  rw [length_recent]
  rcases toNat_ofInt_toInt (d := n + 1 + 1 - s) (by omega) with ⟨hi, hnat⟩ | ⟨hb, hh⟩
  · by_cases hd : n + 1 + 1 - s ≤ 256
    · rw [if_pos (by omega)]
      by_cases hpos : 1 ≤ s
      · rw [if_pos (by omega), if_pos ⟨hpos, hd⟩, recent, getElem?_map_range' hash (by omega)]
        congr 2
        omega
      · rw [if_neg (by omega), if_neg fun h => hpos h.1]
    · rw [if_neg (by omega), if_neg fun h => hd h.2]
  · rw [if_neg (by omega : ¬ (1 ≤ s ∧ n + 1 + 1 - s ≤ 256))]
    split_ifs
    · omega
    · rfl
    · rfl

private lemma pageHash_chain {n s : ℕ} (hn : n + 1 < 2 ^ 32) (hs : s ≤ n) :
    (chain hash n).pageHash s = if 1 ≤ s ∧ s % 256 = 0 then some (hash s) else none := by
  rw [pageHash]
  by_cases hm : s % 256 = 0
  · obtain ⟨m, rfl⟩ : ∃ m, s = 256 * m := ⟨s / 256, by omega⟩
    rw [if_neg (not_not.2 hm), lookup_skipPages_chain, show 256 * m / 65536 = m / 256 by omega]
    by_cases hz : m = 0
    · -- the first page starts with the ledger 256
      subst hz
      rw [if_neg (by omega : ¬ (1 ≤ 256 * 0 ∧ 256 * 0 % 256 = 0))]
      have hf : firstOn (0 / 256) = 1 := rfl
      split_ifs with hno
      · rfl
      dsimp only
      have hlen : (paged hash n (0 / 256)).length = lastOn n (0 / 256) := by simp [paged, hf]
      have hl : lastOn n (0 / 256) ≤ 255 := by rw [lastOn]; omega
      rw [if_neg (by omega)]
    · have hf : firstOn (m / 256) ≤ m := by rw [firstOn]; omega
      have hl : m ≤ lastOn n (m / 256) := by rw [lastOn]; omega
      have hle : 256 * lastOn n (m / 256) ≤ n := by rw [lastOn]; omega
      have hlen : (paged hash n (m / 256)).length = lastOn n (m / 256) + 1 - firstOn (m / 256) := by simp [paged]
      rw [if_neg (by omega), if_pos ⟨by omega, hm⟩]
      dsimp only
      rw [hlen, if_pos (by omega), paged, getElem?_map_range' _ (by omega)]
      congr 3
      omega
  · rw [if_pos hm, if_neg fun h => hm h.2]

private lemma hashOfSeq_chain_eq {n : ℕ} (hn : n + 1 < 2 ^ 32) {s : ℕ} (hs : 0 < n ∨ 0 < s) :
    (chain hash n).hashOfSeq s =
      if 1 ≤ s ∧ s ≤ n + 1 ∧ (n + 1 - s ≤ 256 ∨ s % 256 = 0) then some (hash s) else none := by
  rw [hashOfSeq, seq_chain, hash_chain]
  rcases Nat.lt_or_ge (n + 1) s with hl | hle
  · rw [if_pos hl, if_neg (by omega)]
  rw [if_neg (by omega)]
  by_cases hse : s = n + 1
  · rw [if_pos hse, if_pos (by omega), hse]
  rw [if_neg hse]
  by_cases hp : s = n
  · obtain ⟨m, rfl⟩ : ∃ m, n = m + 1 := ⟨n - 1, by omega⟩
    rw [if_pos (by omega), if_pos (by omega), parentHash_chain, hp]
  rw [recentHash_chain hash hn (by omega), pageHash_chain hash hn (by omega)]
  split_ifs <;> first | rfl | omega

/-- In every ledger but the first one asked for the sequence 0: a hash that is found is that of the ancestor with this
sequence, or of the ledger itself; and it is found for the last 256 ledgers and for every 256th one. -/
theorem hashOfSeq_chain {n : ℕ} (hn : n + 1 < 2 ^ 32) (s : ℕ) :
    ((∀ h, (chain hash n).hashOfSeq s = some h → ∃ k ≤ n, (chain hash k).seq = s ∧ (chain hash k).hash = h) ∧
      (1 ≤ s → s ≤ (chain hash n).seq → ((chain hash n).seq - s ≤ 256 ∨ s % 256 = 0) →
        ∃ k ≤ n, (chain hash k).seq = s ∧ (chain hash n).hashOfSeq s = some (chain hash k).hash)) ↔ 0 < n ∨ 0 < s := by
  constructor
  · rintro ⟨hfound, -⟩
    by_contra h
    obtain ⟨rfl, rfl⟩ : n = 0 ∧ s = 0 := by omega
    obtain ⟨k, -, hk, -⟩ := hfound _ rfl
    rw [seq_chain] at hk
    omega
  intro hs
  rw [hashOfSeq_chain_eq hash hn hs, seq_chain]
  constructor
  · intro h hf
    split_ifs at hf with hin
    cases hf
    exact ⟨s - 1, by omega, by rw [seq_chain]; omega, by rw [hash_chain, Nat.sub_add_cancel hin.1]⟩
  · intro hpos hle hne
    refine ⟨s - 1, by omega, by rw [seq_chain]; omega, ?_⟩
    rw [if_pos ⟨hpos, hle, hne⟩, hash_chain, Nat.sub_add_cancel hpos]

/-- The third ledger knows the hash of the first one. -/
theorem hashOfSeq_chain_third : ((∀ h, (chain (· + 5 : ℕ → ℕ) 2).hashOfSeq 1 = some h →
      ∃ k ≤ 2, (chain (· + 5 : ℕ → ℕ) k).seq = 1 ∧ (chain (· + 5 : ℕ → ℕ) k).hash = h) ∧
    (1 ≤ 1 → 1 ≤ (chain (· + 5 : ℕ → ℕ) 2).seq → ((chain (· + 5 : ℕ → ℕ) 2).seq - 1 ≤ 256 ∨ 1 % 256 = 0) →
      ∃ k ≤ 2, (chain (· + 5 : ℕ → ℕ) k).seq = 1 ∧
        (chain (· + 5 : ℕ → ℕ) 2).hashOfSeq 1 = some (chain (· + 5 : ℕ → ℕ) k).hash)) :=
  (hashOfSeq_chain _ (by decide) 1).2 (by decide)

/-- The first ledger answers with the hash of its parent, which does not exist, when asked for the sequence 0. -/
theorem hashOfSeq_genesis_zero :
    (chain (· + 5 : ℕ → ℕ) 0).hashOfSeq 0 = some 0 ∧ ¬ ∃ k ≤ 0, (chain (· + 5 : ℕ → ℕ) k).seq = 0 :=
  ⟨by decide, fun ⟨k, _, hk⟩ => by simp at hk⟩

end Ledger

end Xrpl.SkipList
