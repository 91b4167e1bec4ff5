import Xrpl.SHAMap.NodeHash

/-!
# Iterating over a SHAMap

A `ConstIterator` keeps the nodes from the root to its item on a stack.  `peekFirstItem` and `peekNextItem` move it
along the leaves, `upperBound` and `lowerBound` set it to the neighbours of an id.  Below the branch in which a node was
entered, `belowHelper` puts that branch into every node id it makes; the walk only reads the depth of an id, so
the iterator never notices.

* `OnPath p stack`: the stack holds the inner nodes on the way along `p`;
* `remaining k stack`: the leaves that come after the key `k` on that way; every step of the iterator takes the first of
  them and leaves the rest (`nextLoop_spec`).
-/

namespace Xrpl.SHAMap

open RadixTree.Tree List SHAMapNodeID

/-- The first of the branches `l` that is not empty.  `isEmptyBranch` tests a bit of a 16-bit mask, so the branch 16, which
the loop of `firstBelow` reaches, counts as empty. -/
def scanBranches (c : Fin kBranchFactor → SHAMapTreeNode) (l : List Nat) : Option (Fin kBranchFactor) :=
  l.findSome? fun m => if h : m < kBranchFactor then if (c ⟨m, h⟩).isNull then none else some ⟨m, h⟩ else none

def upFrom (m stop : Nat) : List Nat := range' m (stop - m)

/-- `for (i = m - 1; i >= 0; --i)` -/
def downFrom (m : Nat) : List Nat := (range m).reverse

/-- The id a leaf is pushed with, `{kLeafDepth, key}`. -/
def leafID (key : Uint256) : SHAMapNodeID := ⟨pre nibble key kLeafDepth⟩

/-- The id a node entered through `branch` is pushed with. -/
def pushID (stack : NodeStack) (branch : Fin kBranchFactor) : Except SHAMapError SHAMapNodeID :=
  match stack with
  | [] => .ok .root
  | (_, nodeID) :: _ => nodeID.getChildNodeID branch

/-- Go down to a leaf, at every node to the first non-empty branch in the order `scan`. -/
def belowHelper (scan : List Nat) (branch : Fin kBranchFactor) :
    SHAMapTreeNode → NodeStack → Except SHAMapError (Option SHAMapLeafNode × NodeStack)
  | .leaf l, stack => .ok (some l, (leaf l, leafID l.item.key) :: stack)
  | .inner h c, stack => do
    let nodeID ← pushID stack branch
    match scanBranches c scan with
    | some i => belowHelper scan branch (c i) ((inner h c, nodeID) :: stack)
    | none => return (none, (inner h c, nodeID) :: stack)
  | .null, _ => .error (.missingNode 0)

def firstBelow (node : SHAMapTreeNode) (stack : NodeStack) (branch : Fin kBranchFactor) :
    Except SHAMapError (Option SHAMapLeafNode × NodeStack) :=
  belowHelper (upFrom 0 (kBranchFactor + 1)) branch node stack

def lastBelow (node : SHAMapTreeNode) (stack : NodeStack) (branch : Fin kBranchFactor) :
    Except SHAMapError (Option SHAMapLeafNode × NodeStack) :=
  belowHelper (downFrom kBranchFactor) branch node stack

def peekFirstItem (m : SHAMap) : Except SHAMapError (Option SHAMapLeafNode × NodeStack) := do
  match ← firstBelow m.root [] 0 with
  | (some l, stack) => return (some l, stack)
  | (none, _) => return (none, [])

def leafBelow (id : Uint256) (below : Except SHAMapError (Option SHAMapLeafNode × NodeStack)) :
    Except SHAMapError (SHAMapLeafNode × NodeStack) := do
  match ← below with
  | (some l, stack) => return (l, stack)
  | (none, _) => throw (.missingNode id)

/-- The loop of `peekNextItem`: on the way up, the first branch after the one towards `id`. -/
def nextLoop (id : Uint256) : NodeStack → Except SHAMapError (Option SHAMapLeafNode × NodeStack)
  | [] => .ok (none, [])
  | (.inner h c, nodeID) :: stack =>
    match scanBranches c (upFrom (selectBranch nodeID id + 1) kBranchFactor) with
    | some i => do
      let (l, stack) ← leafBelow id (firstBelow (c i) ((inner h c, nodeID) :: stack) i)
      return (some l, stack)
    | none => nextLoop id stack
  | _ :: _ => .error (.logicError "another node is not leaf")

def peekNextItem (id : Uint256) (stack : NodeStack) : Except SHAMapError (Option SHAMapLeafNode × NodeStack) :=
  nextLoop id stack.tail

/-- `item_` and `stack_`; there is no item at the end. -/
structure ConstIterator where
  item : Option SHAMapItem
  stack : NodeStack

namespace ConstIterator

def endOf : ConstIterator := ⟨none, []⟩

def next (it : ConstIterator) : Except SHAMapError ConstIterator :=
  match it.item with
  | some item => do
    let (l, stack) ← peekNextItem item.key it.stack
    return ⟨l.map fun l => l.item, stack⟩
  | none => .error (.logicError "dereferenced the end")

end ConstIterator

def begin (m : SHAMap) : Except SHAMapError ConstIterator := do
  let (l, stack) ← peekFirstItem m
  return ⟨l.map fun l => l.item, stack⟩

def upperLoop (id : Uint256) : NodeStack → Except SHAMapError ConstIterator
  | [] => .ok .endOf
  | (.leaf l, nodeID) :: stack =>
    if id < l.item.key then .ok ⟨some l.item, (leaf l, nodeID) :: stack⟩ else upperLoop id stack
  | (.inner h c, nodeID) :: stack =>
    match scanBranches c (upFrom (selectBranch nodeID id + 1) kBranchFactor) with
    | some i => do
      let (l, stack) ← leafBelow id (firstBelow (c i) ((inner h c, nodeID) :: stack) i)
      return ⟨some l.item, stack⟩
    | none => upperLoop id stack
  | (.null, _) :: stack => upperLoop id stack

def upperBound (m : SHAMap) (id : Uint256) : Except SHAMapError ConstIterator := do
  let (_, stack) ← walkTowardsKey id m.root .root []
  upperLoop id stack

def lowerLoop (id : Uint256) : NodeStack → Except SHAMapError ConstIterator
  | [] => .ok .endOf
  | (.leaf l, nodeID) :: stack =>
    if l.item.key < id then .ok ⟨some l.item, (leaf l, nodeID) :: stack⟩ else lowerLoop id stack
  | (.inner h c, nodeID) :: stack =>
    match scanBranches c (downFrom (selectBranch nodeID id)) with
    | some i => do
      let (l, stack) ← leafBelow id (lastBelow (c i) ((inner h c, nodeID) :: stack) i)
      return ⟨some l.item, stack⟩
    | none => lowerLoop id stack
  | (.null, _) :: stack => lowerLoop id stack

def lowerBound (m : SHAMap) (id : Uint256) : Except SHAMapError ConstIterator := do
  let (_, stack) ← walkTowardsKey id m.root .root []
  lowerLoop id stack

section

variable (c : Fin kBranchFactor → SHAMapTreeNode)

private lemma scanBranches_cons (i : Fin kBranchFactor) (l : List Nat) :
    scanBranches c (i.val :: l) = if (c i).isNull then scanBranches c l else some i := by
  rw [scanBranches, findSome?_cons]
  simp only [i.isLt, dite_true]
  by_cases h : (c i).isNull = true
  · simp only [if_pos h]
    rfl
  · simp only [if_neg h]

/-- What a loop over the branches from `m` on finds. -/
private lemma scanBranches_upFrom (m : Nat) {stop : Nat} (hst : kBranchFactor ≤ stop) :
    (scanBranches c (upFrom m stop) = none ∧ entriesFrom c m = []) ∨
      ∃ i : Fin kBranchFactor, scanBranches c (upFrom m stop) = some i ∧ c i ≠ null ∧ m ≤ i ∧
        entriesFrom c m = (c i).entries ++ entriesFrom c (i + 1) := by
  unfold upFrom
  induction hn : stop - m generalizing m with
  | zero => exact .inl ⟨rfl, entriesFrom_of_le c (by omega)⟩
  | succ n ih =>
    rw [range'_succ]
    by_cases hm : m < kBranchFactor
    · have hc := entriesFrom_cons c ⟨m, hm⟩
      have hsc := scanBranches_cons c ⟨m, hm⟩ (range' (m + 1) n)
      rw [hsc]
      by_cases hnu : c ⟨m, hm⟩ = null
      · rw [hc, hnu]
        rcases ih (m + 1) (by omega) with ⟨hno, he⟩ | ⟨i, hso, hi, hmi, hf⟩
        · exact .inl ⟨hno, by rw [he]; rfl⟩
        · exact .inr ⟨i, hso, hi, by omega, by rw [hf]; rfl⟩
      · rw [if_neg (isNull_iff.not.2 hnu)]
        exact .inr ⟨⟨m, hm⟩, rfl, hnu, le_refl m, hc⟩
    · rw [scanBranches, findSome?_cons]
      simp only [hm]
      rcases ih (m + 1) (by omega) with ⟨hno, -⟩ | ⟨i, -, -, hmi, -⟩
      · exact .inl ⟨hno, entriesFrom_of_le c (by omega)⟩
      · omega

/-- What a loop over the branches below `m`, from the last to the first, finds. -/
private lemma scanBranches_downFrom {m : Nat} (hm : m ≤ kBranchFactor) :
    (scanBranches c (downFrom m) = none ∧ entriesBelow c m = []) ∨
      ∃ i : Fin kBranchFactor, scanBranches c (downFrom m) = some i ∧ c i ≠ null ∧ i < m ∧
        entriesBelow c m = entriesBelow c i ++ (c i).entries := by
  unfold downFrom
  induction m with
  | zero => exact .inl ⟨rfl, rfl⟩
  | succ m ih =>
    rw [range_succ, reverse_append, reverse_singleton, singleton_append]
    have hc := entriesBelow_succ c ⟨m, hm⟩
    have hsc := scanBranches_cons c ⟨m, hm⟩ (range m).reverse
    rw [hsc]
    by_cases hn : c ⟨m, hm⟩ = null
    · rw [hc, hn]
      simp only [entries, append_nil]
      rcases ih (by omega) with ⟨hno, he⟩ | ⟨i, hso, hi, him, hb⟩
      · exact .inl ⟨hno, he⟩
      · exact .inr ⟨i, hso, hi, by omega, hb⟩
    · rw [if_neg (isNull_iff.not.2 hn)]
      exact .inr ⟨⟨m, hm⟩, rfl, hn, Nat.lt_succ_self m, hc⟩

end

/-- The stack holds the inner nodes on the way along `p`, the last one on top.  Of a node id only the depth is right. -/
inductive OnPath : List (Fin kBranchFactor) → NodeStack → Prop
  | nil : OnPath [] []
  | push {p : List (Fin kBranchFactor)} {stack : NodeStack} {h : Uint256} {c : Fin kBranchFactor → SHAMapTreeNode}
      {nodeID : SHAMapNodeID} (i : Fin kBranchFactor) (hsa : OnPath p stack)
      (hc : ∀ j, CanonicalAt (p ++ [j]) (c j)) (hdepth : nodeID.getDepth = p.length) (hp : p.length < kLeafDepth) :
      OnPath (p ++ [i]) ((inner h c, nodeID) :: stack)

/-- The leaves after the branches towards `k`, those at the top of the stack first. -/
def remaining (k : Uint256) : NodeStack → List SHAMapLeafNode
  | [] => []
  | (.inner _ c, nodeID) :: stack => entriesFrom c (selectBranch nodeID k + 1) ++ remaining k stack
  | _ :: stack => remaining k stack

/-- The leaves before the branches towards `k`. -/
def preceding (k : Uint256) : NodeStack → List SHAMapLeafNode
  | [] => []
  | (.inner _ c, nodeID) :: stack => preceding k stack ++ entriesBelow c (selectBranch nodeID k)
  | _ :: stack => preceding k stack

variable {k : Uint256} {p : List (Fin kBranchFactor)} {stack : NodeStack} {h : Uint256}
  {c : Fin kBranchFactor → SHAMapTreeNode} {nodeID : SHAMapNodeID} {t : SHAMapTreeNode} {m : SHAMap}

private lemma remaining_push (hd : nodeID.getDepth = p.length) :
    remaining k ((inner h c, nodeID) :: stack) = entriesFrom c (nibble k p.length + 1) ++ remaining k stack := by
  rw [remaining, selectBranch_eq_nibble, hd]

private lemma OnPath.remaining_congr (h : OnPath p stack)
    {k' : Uint256} (hk : Under nibble p k) (hk' : Under nibble p k') : remaining k stack = remaining k' stack := by
  induction h with
  | nil => rfl
  | push i hsa hc hd hp ih =>
    obtain ⟨hk, hi⟩ := (under_concat nibble).1 hk
    obtain ⟨hk', hi'⟩ := (under_concat nibble).1 hk'
    rw [remaining_push hd, remaining_push hd, hi, hi', ih hk hk']

private lemma OnPath.pushID (h : OnPath p stack) (branch : Fin kBranchFactor) :
    ∃ nodeID, SHAMap.pushID stack branch = .ok nodeID ∧ nodeID.getDepth = p.length := by
  cases h with
  | nil => exact ⟨.root, rfl, rfl⟩
  | push i hsa hc hd hp =>
    refine ⟨_, getChildNodeID_of_lt (by rwa [hd]) branch, ?_⟩
    rw [length_append, ← hd]
    exact length_append

/-- The leaf on top of the stack `stack` above the nodes on its way, and the leaves after it. -/
def AtLeaf (l : SHAMapLeafNode) (rest : List SHAMapLeafNode) (stack : NodeStack) : Prop :=
  ∃ nodeID tail p, stack = (leaf l, nodeID) :: tail ∧ OnPath p tail ∧ Under nibble p l.item.key ∧
    remaining l.item.key tail = rest

/-- `firstBelow` ends at the first leaf below the node; the other leaves below it come next. -/
def ReachesFirst (branch : Fin kBranchFactor) (p : List (Fin kBranchFactor)) (t : SHAMapTreeNode) : Prop :=
  ∀ stack, OnPath p stack → ∃ l rest stack', firstBelow t stack branch = .ok (some l, stack') ∧
    t.entries = l :: rest ∧ AtLeaf l (rest ++ remaining l.item.key stack) stack'

private lemma firstBelow_inner {branch : Fin kBranchFactor}
    (hc : ∀ i, CanonicalAt (p ++ [i]) (c i)) (hp : p.length < kLeafDepth)
    (hb : ∀ i, c i ≠ null → ReachesFirst branch (p ++ [i]) (c i)) (hne : (inner h c).entries ≠ []) :
    ReachesFirst branch p (inner h c) := by
  intro stack hsa
  obtain ⟨nodeID, hid, hd⟩ := hsa.pushID branch
  have hst : kBranchFactor ≤ kBranchFactor + 1 := by omega
  rcases scanBranches_upFrom c 0 hst with ⟨-, he⟩ | ⟨i, hsc, hi, -, hf⟩
  · exact absurd he hne
  obtain ⟨l, rest, stack', hfst, hent, hle⟩ := hb i hi _ (.push (h := h) i hsa hc hd hp)
  have hl : Mem l (c i) := mem_entries.1 (by rw [hent]; exact mem_cons_self)
  have hn : nibble l.item.key p.length = i := ((under_concat nibble).1 ((hc i).under hl)).2
  refine ⟨l, rest ++ entriesFrom c (i + 1), stack', ?_, ?_, ?_⟩
  · rw [firstBelow, belowHelper, hid]
    rw [hsc]
    exact hfst
  · rw [← entriesFrom_zero, hf, hent, cons_append]
  · rwa [remaining_push hd, hn, ← append_assoc] at hle

private lemma firstBelow_spec (branch : Fin kBranchFactor)
    (ht : CanonicalAt p t) (hn : t ≠ null) : ReachesFirst branch p t := by
  induction t generalizing p with
  | null => exact absurd rfl hn
  | leaf l => exact fun stack hsa => ⟨l, [], _, rfl, rfl, _, stack, p, rfl, hsa, ht, rfl⟩
  | inner h c ih =>
    have hp : p.length < kLeafDepth := (ht.placed nibble_inj).2.1
    exact firstBelow_inner ht.2.2 hp (fun i => ih i (ht.2.2 i)) (ht.entries_ne_nil hn)

private lemma lastBelow_spec (branch : Fin kBranchFactor) (ht : CanonicalAt p t) (hn : t ≠ null)
    (hsa : OnPath p stack) :
    ∃ l stack', lastBelow t stack branch = .ok (some l, stack') ∧ t.entries.getLast? = some l := by
  induction t generalizing p stack with
  | null => exact absurd rfl hn
  | leaf l => exact ⟨l, _, rfl, rfl⟩
  | inner h c ih =>
    obtain ⟨nodeID, hid, hd⟩ := hsa.pushID branch
    have hp : p.length < kLeafDepth := (ht.placed nibble_inj).2.1
    have he : entriesBelow c kBranchFactor = (inner h c).entries := by
      rw [entriesBelow, take_of_length_le (by simp), entries]
    rcases scanBranches_downFrom c (le_refl _) with ⟨-, hemp⟩ | ⟨i, hsc, hi, -, hb⟩
    · exact absurd (he.symm.trans hemp) (ht.entries_ne_nil hn)
    obtain ⟨l, stack', hla, hl⟩ := ih i (ht.2.2 i) hi (.push (h := h) i hsa ht.2.2 hd hp)
    refine ⟨l, stack', ?_, ?_⟩
    · rw [lastBelow, belowHelper, hid]
      rw [hsc]
      exact hla
    · rw [← he, hb, getLast?_append, hl]
      rfl

/-- The iterator stands at the first of the leaves, or at the end. -/
def Positioned (it : ConstIterator) : List SHAMapLeafNode → Prop
  | [] => it.item = none
  | l :: rest => it.item = some l.item ∧ AtLeaf l rest it.stack

/-- The iterator made from what `peekFirstItem` and `peekNextItem` return. -/
def ConstIterator.ofPeek (r : Option SHAMapLeafNode × NodeStack) : ConstIterator := ⟨r.1.map fun l => l.item, r.2⟩

section

variable (hsa : OnPath p stack)

include hsa

private lemma nextLoop_spec (hk : Under nibble p k) :
    ∃ r, nextLoop k stack = .ok r ∧ Positioned (.ofPeek r) (remaining k stack) := by
  induction hsa with
  | nil => exact ⟨(none, []), rfl, rfl⟩
  | @push p stack h c nodeID i hsa hc hd hp ih =>
    obtain ⟨hkp, hi⟩ := (under_concat nibble).1 hk
    have hsel : selectBranch nodeID k = i := by rw [selectBranch_eq_nibble, hd, hi]
    rw [nextLoop, hsel]
    rcases scanBranches_upFrom c (i + 1) (le_refl _) with ⟨hsc, he⟩ | ⟨j, hsc, hj, -, hf⟩
    · rw [hsc, remaining_push hd, hi, he]
      exact ih hkp
    rw [hsc]
    obtain ⟨l, rest, stack', hfst, hent, hle⟩ := firstBelow_spec j (hc j) hj _ (.push (h := h) j hsa hc hd hp)
    have hl : Mem l (c j) := mem_entries.1 (by rw [hent]; exact mem_cons_self)
    have hlj : Under nibble (p ++ [j]) l.item.key := (hc j).under hl
    obtain ⟨hu, hn⟩ := (under_concat nibble).1 hlj
    refine ⟨(some l, stack'), ?_, ?_⟩
    · show (leafBelow k (firstBelow (c j) ((inner h c, nodeID) :: stack) j) >>= _) = _
      rw [hfst]
      rfl
    · rw [remaining_push hd, hi, hf, hent, append_assoc]
      rw [remaining_push hd, hn, hsa.remaining_congr hu hkp] at hle
      exact ⟨rfl, hle⟩

/-- On a stack of inner nodes `upperBound` searches like `peekNextItem`. -/
private lemma upperLoop_eq : upperLoop k stack = .ofPeek <$> nextLoop k stack := by
  induction hsa with
  | nil => rfl
  | @push p stack h c nodeID i hsa hc hd hp ih =>
    rw [upperLoop, nextLoop]
    cases scanBranches c (upFrom (selectBranch nodeID k + 1) kBranchFactor) with
    | none => exact ih
    | some j =>
      show (leafBelow k (firstBelow (c j) ((inner h c, nodeID) :: stack) j) >>= _) = _ <$> (_ >>= _)
      cases leafBelow k (firstBelow (c j) ((inner h c, nodeID) :: stack) j) <;> rfl

private lemma upperLoop_spec (hk : Under nibble p k) :
    ∃ it, upperLoop k stack = .ok it ∧ Positioned it (remaining k stack) := by
  obtain ⟨r, hr, hpos⟩ := nextLoop_spec hsa hk
  exact ⟨.ofPeek r, by rw [upperLoop_eq hsa, hr]; rfl, hpos⟩

/-- `lowerBound` goes to the last of the leaves that come before the key. -/
private lemma lowerLoop_spec (hk : Under nibble p k) :
    ∃ it, lowerLoop k stack = .ok it ∧ it.item = (preceding k stack).getLast?.map fun l => l.item := by
  induction hsa with
  | nil => exact ⟨.endOf, rfl, rfl⟩
  | @push p stack h c nodeID i hsa hc hd hp ih =>
    obtain ⟨hkp, hi⟩ := (under_concat nibble).1 hk
    have hsel : selectBranch nodeID k = i := by rw [selectBranch_eq_nibble, hd, hi]
    rw [lowerLoop, preceding, hsel]
    rcases scanBranches_downFrom c i.isLt.le with ⟨hsc, he⟩ | ⟨j, hsc, hj, -, hb⟩
    · rw [hsc, he, append_nil]
      exact ih hkp
    obtain ⟨l, stack', hla, hl⟩ := lastBelow_spec j (hc j) hj (.push (h := h) j hsa hc hd hp)
    rw [hsc]
    refine ⟨⟨some l.item, stack'⟩, ?_, ?_⟩
    · show (leafBelow k (lastBelow (c j) ((inner h c, nodeID) :: stack) j) >>= _) = _
      rw [hla]
      rfl
    · rw [hb, ← append_assoc, getLast?_append, hl]
      rfl

end

/-- The iterator runs through the items and ends. -/
def Enumerates (it : ConstIterator) : List SHAMapItem → Prop
  | [] => it.item = none
  | item :: items => it.item = some item ∧ ∃ it', it.next = .ok it' ∧ Enumerates it' items

private lemma Positioned.enumerates {it : ConstIterator} {ls : List SHAMapLeafNode} (h : Positioned it ls) :
    Enumerates it (ls.map fun l => l.item) := by
  induction ls generalizing it with
  | nil => exact h
  | cons l rest ih =>
    obtain ⟨hi, nodeID, tail, p, hsa, hp, hu, hre⟩ := h
    obtain ⟨r, hr, hpos⟩ := nextLoop_spec hp hu
    rw [hre] at hpos
    refine ⟨hi, .ofPeek r, ?_, ih hpos⟩
    rw [ConstIterator.next, hi, hsa]
    show (nextLoop l.item.key tail >>= _) = _
    rw [hr]
    rfl

/-! ### Towards an id -/

/-- The leaves below an inner node that are kept, when this depends on the order with an id. -/
private lemma filter_inner {id : Uint256} {keep : SHAMapLeafNode → Bool} (low high : Bool)
    (hc : ∀ i, CanonicalAt (p ++ [i]) (c i)) (hid : Under nibble p id)
    (hlow : ∀ l : SHAMapLeafNode, l.item.key < id → keep l = low)
    (hh : ∀ l : SHAMapLeafNode, id < l.item.key → keep l = high) :
    (inner h c).entries.filter keep = (if low then entriesBelow c (nibble id p.length) else []) ++
      ((c (nibble id p.length)).entries.filter keep ++
        if high then entriesFrom c (nibble id p.length + 1) else []) := by
  have ha : ∀ (ls : List SHAMapLeafNode) (b : Bool), (∀ l ∈ ls, keep l = b) →
      ls.filter keep = if b then ls else [] := by
    intro ls b hb
    cases b with
    | true => exact filter_eq_self.2 hb
    | false => exact filter_eq_nil_iff.2 fun l hl => by simp [hb l hl]
  have hbel := ha (entriesBelow c (nibble id p.length)) low fun l hl => by
    obtain ⟨i, hi, hmem⟩ := mem_entriesBelow hl
    exact hlow l ((order_of_branch lt_of_nibble hc hid hmem).2 hi)
  have hf := ha (entriesFrom c (nibble id p.length + 1)) high fun l hl => by
    obtain ⟨i, hi, hmem⟩ := mem_entriesFrom hl
    exact hh l ((order_of_branch lt_of_nibble hc hid hmem).1 hi)
  rw [entries_split h c (nibble id p.length), filter_append, filter_append, hbel, hf]

/-- A loop that is run on the nodes of `walkTowardsKey`: `spec` says where it ends, given the leaves of interest below the
top of the stack and the stack. -/
structure Search (id : Uint256) (keep : SHAMapLeafNode → Bool) (loop : NodeStack → Except SHAMapError ConstIterator)
    (spec : List SHAMapLeafNode → NodeStack → ConstIterator → Prop) : Prop where
  onInner : ∀ {p stack}, OnPath p stack → Under nibble p id → ∃ it, loop stack = .ok it ∧ spec [] stack it
  onLeaf : ∀ {p stack l nodeID}, OnPath p stack → Under nibble p id → Under nibble p l.item.key →
    ∃ it, loop ((leaf l, nodeID) :: stack) = .ok it ∧ spec ([l].filter keep) stack it
  onPush : ∀ {p stack h c nodeID it}, (∀ i, CanonicalAt (p ++ [i]) (c i)) → nodeID.getDepth = p.length →
    Under nibble p id → spec ((c (nibble id p.length)).entries.filter keep) ((inner h c, nodeID) :: stack) it →
      spec ((inner h c).entries.filter keep) stack it

namespace Search

variable {id : Uint256} {keep : SHAMapLeafNode → Bool} {loop : NodeStack → Except SHAMapError ConstIterator}
  {spec : List SHAMapLeafNode → NodeStack → ConstIterator → Prop}

/-- The search ends where it should below `t`. -/
def Ends (loop : NodeStack → Except SHAMapError ConstIterator) (keep : SHAMapLeafNode → Bool)
    (spec : List SHAMapLeafNode → NodeStack → ConstIterator → Prop) (id : Uint256) (p : List (Fin kBranchFactor))
    (t : SHAMapTreeNode) : Prop :=
  ∀ stack, OnPath p stack → ∃ r it, walkTowardsKey id t ⟨p⟩ stack = .ok r ∧ loop r.2 = .ok it ∧
    spec (t.entries.filter keep) stack it

variable (hs : Search id keep loop spec)

include hs

private lemma ends_inner (hc : ∀ i, CanonicalAt (p ++ [i]) (c i)) (hp : p.length < kLeafDepth) (hid : Under nibble p id)
    (hb : c (nibble id p.length) ≠ null → Ends loop keep spec id (p ++ [nibble id p.length]) (c (nibble id p.length))) :
    Ends loop keep spec id p (inner h c) := by
  intro stack hsa
  have hsel : selectBranch ⟨p⟩ id = nibble id p.length := selectBranch_eq_nibble _ _
  have hpu : OnPath (p ++ [nibble id p.length]) ((inner h c, ⟨p⟩) :: stack) := .push _ hsa hc rfl hp
  rw [walkTowardsKey]
  simp only [hsel]
  by_cases hn : c (nibble id p.length) = null
  · rw [if_pos (isNull_iff.2 hn)]
    obtain ⟨it, hit, hsp⟩ := hs.onInner hpu ((under_concat nibble).2 ⟨hid, rfl⟩)
    refine ⟨_, it, rfl, hit, hs.onPush (c := c) hc rfl hid ?_⟩
    rw [hn]
    exact hsp
  · rw [if_neg (isNull_iff.not.2 hn), getChildNodeID_of_lt hp]
    obtain ⟨r, it, hr, hit, hsp⟩ := hb hn _ hpu
    exact ⟨r, it, hr, hit, hs.onPush hc rfl hid hsp⟩

private lemma ends (ht : CanonicalAt p t) (hn : t ≠ null) (hid : Under nibble p id) : Ends loop keep spec id p t := by
  induction t generalizing p with
  | null => exact absurd rfl hn
  | leaf l =>
    intro stack hsa
    obtain ⟨it, hit, hsp⟩ := hs.onLeaf hsa hid ht
    exact ⟨_, it, rfl, hit, hsp⟩
  | inner h c ih =>
    refine hs.ends_inner ht.2.2 (ht.placed nibble_inj).2.1 hid fun hnu => ?_
    exact ih _ (ht.2.2 _) hnu ((under_concat nibble).2 ⟨hid, rfl⟩)

private lemma ends_root {m : SHAMap} (hm : IsCanonical m.root) :
    ∃ r it, walkTowardsKey id m.root .root [] = .ok r ∧ loop r.2 = .ok it ∧ spec (m.root.entries.filter keep) [] it := by
  obtain ⟨c, hr, hc⟩ := hm
  rw [hr]
  have he : Ends loop keep spec id [] (inner 0 c) :=
    hs.ends_inner hc (by decide) rfl fun hn => hs.ends (hc _) hn ((under_concat nibble).2 ⟨rfl, rfl⟩)
  exact he [] .nil

end Search

private lemma upperLoop_search (id : Uint256) : Search id (fun l => id < l.item.key)
    (upperLoop id) fun below stack it =>
      Positioned it (below ++ remaining id stack) where
  onInner hsa hid := upperLoop_spec hsa hid
  onLeaf {p stack l nodeID} hsa hid hl := by
    rw [upperLoop]
    by_cases hlt : id < l.item.key
    · rw [if_pos hlt, filter_cons_of_pos (by simpa using hlt), hsa.remaining_congr hid hl]
      exact ⟨_, rfl, rfl, nodeID, stack, p, rfl, hsa, hl, rfl⟩
    · rw [if_neg hlt, filter_cons_of_neg (by simpa using hlt)]
      exact upperLoop_spec hsa hid
  onPush hc hd hid hsp := by
    rw [filter_inner false true hc hid (fun _ hl => by simpa using hl.le) fun _ hl => by simpa using hl]
    rwa [if_neg (by simp), if_pos rfl, nil_append, append_assoc, ← remaining_push hd]

private lemma lowerLoop_search (id : Uint256) : Search id (fun l => l.item.key < id)
    (lowerLoop id) fun below stack it =>
      it.item = (preceding id stack ++ below).getLast?.map fun l => l.item where
  onInner hsa hid := by
    obtain ⟨it, hit, hi⟩ := lowerLoop_spec hsa hid
    exact ⟨it, hit, by rw [hi, append_nil]⟩
  onLeaf {p stack l nodeID} hsa hid hl := by
    rw [lowerLoop]
    by_cases hlt : l.item.key < id
    · rw [if_pos hlt, filter_cons_of_pos (by simpa using hlt)]
      exact ⟨_, rfl, by simp⟩
    · rw [if_neg hlt, filter_cons_of_neg (by simpa using hlt)]
      obtain ⟨it, hit, hi⟩ := lowerLoop_spec hsa hid
      exact ⟨it, hit, by rw [hi, filter_nil, append_nil]⟩
  onPush {p stack h c nodeID it} hc hd hid hsp := by
    rw [preceding, selectBranch_eq_nibble, hd, append_assoc] at hsp
    rw [filter_inner true false hc hid (fun _ hl => by simpa using hl) fun _ hl => by simpa using hl.le]
    rwa [if_pos rfl, if_neg (by simp), append_nil]

private lemma begin_spec (hm : IsCanonical m.root) : ∃ it, begin m = .ok it ∧ Positioned it m.root.entries := by
  obtain ⟨c, hr, hc⟩ := hm
  unfold begin peekFirstItem
  rw [hr]
  by_cases he : (inner (0 : Uint256) c).entries = []
  · have hst : kBranchFactor ≤ kBranchFactor + 1 := by omega
    have hsc : scanBranches c (upFrom 0 (kBranchFactor + 1)) = none := by
      rcases scanBranches_upFrom c 0 hst with ⟨hsc, -⟩ | ⟨i, -, hi, -, hf⟩
      · exact hsc
      · rw [entriesFrom_zero 0, he] at hf
        exact absurd (append_eq_nil_iff.1 hf.symm).1 ((hc i).entries_ne_nil hi)
    have hfst : firstBelow (inner 0 c) [] 0 = .ok (none, [(inner 0 c, .root)]) := by
      rw [firstBelow, belowHelper]
      rw [hsc]
      rfl
    rw [hfst, he]
    exact ⟨⟨none, []⟩, rfl, rfl⟩
  · have hrch : ReachesFirst 0 [] (inner 0 c) := firstBelow_inner hc (by decide) (fun i => firstBelow_spec 0 (hc i)) he
    obtain ⟨l, rest, stack, hfst, hent, hl⟩ := hrch [] .nil
    rw [hfst, hent]
    refine ⟨⟨some l.item, stack⟩, rfl, rfl, ?_⟩
    simpa [remaining] using hl

/-- A map that was changed by any calls has its items in the order of their keys: the iterator runs through them from
`begin`, from `upperBound` it runs through those after the id, and `lowerBound` is the last one before it. -/
theorem traversal_ordered [Sha512Half] {type : SHAMapNodeType} (htype : type ≠ .tnInner) {ops : List Op}
    {oks : List Bool} {m : SHAMap} (hrun : run type empty ops = .ok (oks, m)) :
    ∃ items : List SHAMapItem, items.Pairwise (fun a b => a.key < b.key) ∧
      (∀ item, item ∈ items ↔ (Contents.applyAll (fun _ => none) ops).2 item.key = some item) ∧
      (∃ it, begin m = .ok it ∧ Enumerates it items) ∧
      (∀ id, ∃ it, upperBound m id = .ok it ∧ Enumerates it (items.filter fun item => id < item.key)) ∧
      ∀ id, ∃ it, lowerBound m id = .ok it ∧ it.item = (items.filter fun item => item.key < id).getLast? := by
  have hm := represents_of_run htype hrun
  refine ⟨m.root.entries.map fun l => l.item, ?_, fun item => ?_, ?_, fun id => ?_, fun id => ?_⟩
  · rw [pairwise_map]
    exact hm.canonical.pairwise_entries lt_of_nibble
  · simp only [mem_map, mem_entries]
    constructor
    · rintro ⟨l, hl, rfl⟩
      obtain ⟨item, rfl, hi⟩ := (hm.mem_iff l).1 hl
      exact hi
    · exact fun hi => ⟨_, hm.mem_of_some hi, rfl⟩
  · obtain ⟨it, hit, hpos⟩ := begin_spec hm.canonical
    exact ⟨it, hit, hpos.enumerates⟩
  · obtain ⟨r, it, hr, hit, hpos⟩ := (upperLoop_search id).ends_root hm.canonical
    refine ⟨it, by rw [upperBound, hr]; exact hit, ?_⟩
    rw [filter_map]
    have hpos : Positioned it (m.root.entries.filter fun l => id < l.item.key) := by simpa [remaining] using hpos
    exact hpos.enumerates
  · obtain ⟨r, it, hr, hit, hi⟩ := (lowerLoop_search id).ends_root hm.canonical
    refine ⟨it, by rw [lowerBound, hr]; exact hit, ?_⟩
    have hi : it.item = (m.root.entries.filter fun l => l.item.key < id).getLast?.map fun l => l.item := by
      simpa [preceding] using hi
    rw [hi, filter_map, getLast?_map]
    rfl

/-- Two account entries, added in the wrong order. -/
theorem traversal_ordered_accountState : let _ : Sha512Half := ⟨fun bytes => BitVec.ofNat 256 bytes.length⟩
    SHAMapNodeType.tnAccountState ≠ .tnInner ∧
      ∃ m it items, run .tnAccountState empty [.add ⟨0x2222, []⟩, .add ⟨0x1111, []⟩] = .ok ([true, true], m) ∧
        begin m = .ok it ∧ Enumerates it items ∧ items.Pairwise (fun a b => a.key < b.key) ∧
        ⟨0x1111, []⟩ ∈ items ∧ ⟨0x2222, []⟩ ∈ items := by
  intro inst
  obtain ⟨m, hr, -⟩ := (represents_empty .tnAccountState).run (by decide) [.add ⟨0x2222, []⟩, .add ⟨0x1111, []⟩]
  obtain ⟨items, hsrt, hmem, ⟨it, hit, ha⟩, -⟩ := traversal_ordered (by decide) hr
  exact ⟨by decide, m, it, items, hr, hit, ha, hsrt, (hmem _).2 (by decide), (hmem _).2 (by decide)⟩

end Xrpl.SHAMap
