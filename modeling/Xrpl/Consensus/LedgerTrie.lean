import Mathlib.Algebra.GroupWithZero.Nat
import Mathlib.Data.Prod.Lex
import Mathlib.Data.List.Sort
import Xrpl.Lib.OwnedTree

/-!
# The ancestry trie of validated ledgers

A ledger is a string of ancestor ids; `LedgerTrie` keeps the supported ledgers in a compressed trie.  A node owns its
children, so the nodes are an `OwnedTree`; the raw pointers of the source (`parent`, and the locals `loc`, `incNode`,
`decNode` and `curr`) are addresses.  The counters are 32 bits wide and wrap around.

`insert` and `remove` have no result when an assertion of the source fails or a pointer dangles.
-/

namespace Xrpl.Consensus

open OwnedTree

/-- The `Ledger` template parameter: a ledger knows the ids of its ancestors. -/
class LedgerData (Ledger : Type) (ID : outParam Type) where
  /-- `Ledger(MakeGenesis{})` -/
  genesis : Ledger
  seq : Ledger → Nat
  /-- `operator[]`, for sequence numbers up to `seq` -/
  ancestor : Ledger → Nat → ID
  /-- the sequence number of the first possible mismatching ancestor of two ledgers -/
  mismatch : Ledger → Ledger → Nat

export LedgerData (seq ancestor mismatch)

/-- A `Ledger` parameter with *unique history*: an id names one ledger, so ledgers that agree on an id agree on
everything before it, and all of them start with the genesis ledger. -/
class LedgerType (Ledger : Type) (ID : outParam Type) extends LedgerData Ledger ID where
  seq_genesis : seq genesis = 0
  ancestor_zero : ∀ l, ancestor l 0 = ancestor genesis 0
  unique_history : ∀ a b s t, s ≤ seq a → t ≤ seq b → ancestor a s = ancestor b t →
    s = t ∧ ∀ p, p ≤ s → ancestor a p = ancestor b p
  agree_of_lt_mismatch : ∀ a b p, p < mismatch a b → p ≤ seq a ∧ p ≤ seq b ∧ ancestor a p = ancestor b p
  differ_at_mismatch : ∀ a b, mismatch a b ≤ seq a → mismatch a b ≤ seq b →
    ancestor a (mismatch a b) ≠ ancestor b (mismatch a b)

/-- What `std::uint32_t` arithmetic makes of a number. -/
def uint32 (n : Nat) : Nat := n % 2 ^ 32

def uint32Sub (a b : Nat) : Nat := uint32 (a + 2 ^ 32 - b)

structure SpanTip (Ledger ID : Type) where
  seq : Nat
  id : ID
  ledger_ : Ledger

section

variable {Ledger ID : Type} [LedgerData Ledger ID]

def ledgerID (l : Ledger) : ID := ancestor l (seq l)

variable (Ledger) in
/-- The half-open interval `[start_, end_)` of the ancestry of `ledger_`. -/
structure Span where
  start_ : Nat
  end_ : Nat
  ledger_ : Ledger
  start_lt_end : start_ < end_
  end_le : end_ ≤ seq ledger_ + 1

namespace Span

def ofGenesis : Span Ledger := ⟨0, 1, LedgerData.genesis, by omega, by omega⟩

def ofLedger (ledger : Ledger) : Span Ledger := ⟨0, seq ledger + 1, ledger, by omega, le_rfl⟩

section

variable (s : Span Ledger)

def clamp (val : Nat) : Nat := min (max s.start_ val) s.end_

/-- The part of the span in `[lo, hi)`, if there is any. -/
def sub (lo hi : Nat) : Option (Span Ledger) :=
  if h : s.clamp lo < s.clamp hi then
    some ⟨s.clamp lo, s.clamp hi, s.ledger_, h, (min_le_right _ _).trans s.end_le⟩
  else none

/-- `from`: the span `[spot, end_)`. -/
def from_ (spot : Nat) : Option (Span Ledger) := s.sub spot s.end_

def before (spot : Nat) : Option (Span Ledger) := s.sub s.start_ spot

def startID : ID := ancestor s.ledger_ s.start_

def diff (o : Ledger) : Nat := s.clamp (mismatch s.ledger_ o)

def tip : SpanTip Ledger ID := ⟨s.end_ - 1, ancestor s.ledger_ (s.end_ - 1), s.ledger_⟩

end

def merge (a b : Span Ledger) : Span Ledger :=
  if a.end_ < b.end_ then
    ⟨min a.start_ b.start_, b.end_, b.ledger_, (min_le_right _ _).trans_lt b.start_lt_end, b.end_le⟩
  else ⟨min a.start_ b.start_, a.end_, a.ledger_, (min_le_left _ _).trans_lt a.start_lt_end, a.end_le⟩

end Span

variable (Ledger) in
/-- A node of the trie without the children it owns. -/
structure NodeData where
  addr : Nat
  span : Span Ledger
  tipSupport : Nat
  branchSupport : Nat
  parent : Option Nat

variable (Ledger) in
abbrev Node := OwnedTree.Tree (NodeData Ledger)

def NodeData.ofSpan (addr : Nat) (span : Span Ledger) (parent : Option Nat) : NodeData Ledger :=
  ⟨addr, span, 0, 0, parent⟩

/-- `Node::erase` on the children: the child is swapped to the back and popped. -/
def erase (child : Nat) (children : List (Node Ledger)) : Option (List (Node Ledger)) := do
  let it ← children.findIdx? fun c => c.val.addr = child
  let back ← children.getLast?
  return (children.set it back).dropLast

variable (Ledger) in
/-- `nextAddr` is where the next node will be allocated. -/
structure LedgerTrie where
  root : Node Ledger
  seqSupport : Std.ExtTreeMap Nat Nat
  nextAddr : Nat

namespace LedgerTrie

def init : LedgerTrie Ledger := ⟨.node (.ofSpan 0 .ofGenesis none) [], ∅, 1⟩

def get (t : LedgerTrie Ledger) (p : Nat) : Option (Node Ledger) := t.root.get NodeData.addr p

def set (t : LedgerTrie Ledger) (p : Nat) (f : Node Ledger → Node Ledger) : LedgerTrie Ledger :=
  { t with root := t.root.set NodeData.addr p f }

mutual

/-- The loop of `find` from a node whose span differs from the ledger at `pos`. -/
def findFrom (ledger : Ledger) : Node Ledger → Nat → Nat × Nat
  | .node v children, pos =>
    if pos = v.span.end_ then (findChild ledger children pos).getD (v.addr, pos) else (v.addr, pos)

/-- The first child with a longer match, and the search from there. -/
def findChild (ledger : Ledger) : List (Node Ledger) → Nat → Option (Nat × Nat)
  | [], _ => none
  | child :: children, pos =>
    if child.val.span.diff ledger > pos then some (findFrom ledger child (child.val.span.diff ledger))
    else findChild ledger children pos

end

/-- The node that represents the longest common ancestry with the ledger, and the first difference. -/
def find (t : LedgerTrie Ledger) (ledger : Ledger) : Nat × Nat :=
  findFrom ledger t.root (t.root.val.span.diff ledger)

def findByLedgerID [DecidableEq ID] (t : LedgerTrie Ledger) (ledger : Ledger) : Option (Node Ledger) :=
  t.root.find fun v => ledgerID ledger = v.span.tip.id

/-- `loc` is cut to its prefix, and a new node with the rest of the span takes over its support and children. -/
def takeOver (addr : Nat) (pre oldSuffix : Span Ledger) : Node Ledger → Node Ledger
  | .node v children =>
    .node { v with span := pre, tipSupport := 0 }
      [.node ⟨addr, oldSuffix, v.tipSupport, v.branchSupport, some v.addr⟩
        (children.map (Tree.mapVal fun c => { c with parent := some addr }))]

/-- The first half of `insert`: split the span of `loc` when the ledger leaves it before its end. -/
def splitOld (t : LedgerTrie Ledger) (loc : Nat) (pre oldSuffix : Option (Span Ledger)) :
    Option (LedgerTrie Ledger) :=
  match oldSuffix with
  | none => some t
  | some oldSuffix => do
    let pre ← pre
    return { t.set loc (takeOver t.nextAddr pre oldSuffix) with nextAddr := t.nextAddr + 1 }

def pushChild (child : Node Ledger) : Node Ledger → Node Ledger
  | .node v children => .node v (children ++ [child])

/-- The second half of `insert`: a new child of `loc` for the rest of the ledger.  The second component is the node
from which the support is incremented. -/
def addNew (t : LedgerTrie Ledger) (loc : Nat) (newSuffix : Option (Span Ledger)) : LedgerTrie Ledger × Nat :=
  match newSuffix with
  | none => (t, loc)
  | some newSuffix =>
    ({ t.set loc (pushChild (.node (.ofSpan t.nextAddr newSuffix (some loc)) [])) with nextAddr := t.nextAddr + 1 },
      t.nextAddr)

/-- `branchSupport` of a node and of all nodes above it changed by `f`. -/
def changeBranchSupport (t : LedgerTrie Ledger) (p : Nat) (f : Nat → Nat) : Option (LedgerTrie Ledger) := do
  let root ← t.root.climb NodeData.addr NodeData.parent (fun v => { v with branchSupport := f v.branchSupport })
    t.root.nodes.length (some p)
  return { t with root := root }

/-- The end of `insert`: increment the counters, the branch supports from `incNode` up. -/
def addSupport (t : LedgerTrie Ledger) (incNode : Nat) (ledger : Ledger) (count : Nat) :
    Option (LedgerTrie Ledger) := do
  let t := t.set incNode (Tree.mapVal fun v => { v with tipSupport := uint32 (v.tipSupport + count) })
  let t ← t.changeBranchSupport incNode fun b => uint32 (b + count)
  return { t with
    seqSupport := t.seqSupport.insert (seq ledger) (uint32 (t.seqSupport.getD (seq ledger) 0 + count)) }

def insert (t : LedgerTrie Ledger) (ledger : Ledger) (count : Nat) : Option (LedgerTrie Ledger) := do
  let (loc, diffSeq) := t.find ledger
  let node ← t.get loc
  let t ← t.splitOld loc (node.val.span.before diffSeq) (node.val.span.from_ diffSeq)
  let (t, incNode) := t.addNew loc ((Span.ofLedger ledger).from_ diffSeq)
  t.addSupport incNode ledger count

/-- The loop of `remove` that erases a node without support and children, or merges it with its only child, and goes
on with its parent. -/
def compress : Nat → LedgerTrie Ledger → Nat → Option (LedgerTrie Ledger)
  | 0, _, _ => none
  | steps + 1, t, loc => do
    let node ← t.get loc
    if node.val.tipSupport = 0 ∧ loc ≠ t.root.val.addr then
      let parent ← node.val.parent
      let parentNode ← t.get parent
      match node.children with
      | [] =>
        let children ← erase loc parentNode.children
        compress steps (t.set parent fun n => .node n.val children) parent
      | [child] =>
        let child := child.mapVal fun c => { c with span := node.val.span.merge c.span, parent := some parent }
        let children ← erase loc (parentNode.children ++ [child])
        compress steps (t.set parent fun n => .node n.val children) parent
      | _ => return t
    else return t

/-- `seqSupport_` with the support for a sequence number decreased; there is no result if there is not enough. -/
def subSeqSupport (seqSupport : Std.ExtTreeMap Nat Nat) (s count : Nat) : Option (Std.ExtTreeMap Nat Nat) := do
  let support ← seqSupport[s]?
  if support < count then none
  else if uint32Sub support count = 0 then some (seqSupport.erase s)
  else some (seqSupport.insert s (uint32Sub support count))

/-- `remove` once the node for the ledger is found and has tip support. -/
def removeAt (t : LedgerTrie Ledger) (node : Node Ledger) (ledger : Ledger) (count : Nat) :
    Option (Bool × LedgerTrie Ledger) := do
  let loc := node.val.addr
  let count := min count node.val.tipSupport
  let t := t.set loc (Tree.mapVal fun v => { v with tipSupport := uint32Sub v.tipSupport count })
  let seqSupport ← subSeqSupport t.seqSupport (seq ledger) count
  let t ← { t with seqSupport := seqSupport }.changeBranchSupport loc fun b => uint32Sub b count
  let t ← compress t.root.nodes.length t loc
  return (true, t)

/-- Decrease support for a ledger, removing and compressing if possible; the flag tells whether a matching node was
decremented. -/
def remove [DecidableEq ID] (t : LedgerTrie Ledger) (ledger : Ledger) (count : Nat) :
    Option (Bool × LedgerTrie Ledger) :=
  match t.findByLedgerID ledger with
  | none => some (false, t)
  | some node => if node.val.tipSupport = 0 then some (false, t) else t.removeAt node ledger count

def tipSupport [DecidableEq ID] (t : LedgerTrie Ledger) (ledger : Ledger) : Nat :=
  match t.findByLedgerID ledger with
  | some loc => loc.val.tipSupport
  | none => 0

def branchSupport [DecidableEq ID] (t : LedgerTrie Ledger) (ledger : Ledger) : Nat :=
  match t.findByLedgerID ledger with
  | some loc => loc.val.branchSupport
  | none =>
    match t.get (t.find ledger).1 with
    | some loc =>
      -- the ledger is a proper prefix of the span
      if (t.find ledger).2 > seq ledger ∧ seq ledger < loc.val.span.end_ then loc.val.branchSupport else 0
    | none => 0

def empty (t : LedgerTrie Ledger) : Bool := t.root.val.branchSupport = 0

/-- Add the support of the sequence numbers below `bound` to the uncommitted support. -/
def addEarlier (bound : Nat) : Nat → List (Nat × Nat) → Nat × List (Nat × Nat)
  | uncommitted, [] => (uncommitted, [])
  | uncommitted, (s, support) :: it =>
    if s < bound then addEarlier bound (uint32 (uncommitted + support)) it else (uncommitted, (s, support) :: it)

/-- Advance `nextSeq` along a span that ends at `stop`, from one change of `seqSupport` to the next. -/
def advance (stop branchSupport : Nat) : Nat → Nat → List (Nat × Nat) → Nat × Nat × List (Nat × Nat)
  | nextSeq, uncommitted, [] =>
    if nextSeq < stop ∧ branchSupport > uncommitted then (stop, uncommitted, []) else (nextSeq, uncommitted, [])
  | nextSeq, uncommitted, (s, support) :: it =>
    if nextSeq < stop ∧ branchSupport > uncommitted then
      if s < stop then advance stop branchSupport (s + 1) (uint32 (uncommitted + support)) it
      else (stop, uncommitted, (s, support) :: it)
    else (nextSeq, uncommitted, (s, support) :: it)

section Preferred

variable [LinearOrder ID]

/-- Children are ordered by branch support, ties broken by the starting id of the span. -/
def childKey (n : Node Ledger) : ℕ ×ₗ ID := toLex (n.val.branchSupport, n.val.span.startID)

/-- `std::partial_sort` with the largest children in front; sorting the others as well is one of the orders it may
leave them in. -/
def sortChildren (children : List (Node Ledger)) : List (Node Ledger) :=
  children.insertionSort fun a b => childKey b ≤ childKey a

def margin (best : Node Ledger) : List (Node Ledger) → Nat
  | [] => best.val.branchSupport
  | second :: _ =>
    let margin := uint32Sub best.val.branchSupport second.val.branchSupport
    -- the second best needs additional support to overcome the tie
    if best.val.span.startID > second.val.span.startID then uint32 (margin + 1) else margin

variable (Ledger) in
/-- What the loop of `getPreferred` works on: the trie, whose children it sorts in place, the node `curr`, the
uncommitted support, and the entries of `seqSupport_` from `uncommittedIt` on. -/
structure PreferredState where
  trie : LedgerTrie Ledger
  curr : Nat
  uncommitted : Nat
  uncommittedIt : List (Nat × Nat)

/-- One turn of the loop of `getPreferred`: either the preferred ledger is found, or the best child is next. -/
def preferredTurn (largestIssued : Nat) (s : PreferredState Ledger) :
    Option (SpanTip Ledger ID × LedgerTrie Ledger ⊕ PreferredState Ledger) := do
  let node ← s.trie.get s.curr
  let span := node.val.span
  let (uncommitted, it) := addEarlier (max (span.start_ + 1) largestIssued) s.uncommitted s.uncommittedIt
  let (nextSeq, uncommitted, it) := advance span.end_ node.val.branchSupport (span.start_ + 1) uncommitted it
  if nextSeq < span.end_ then
    -- the span was not consumed
    let consumed ← span.before nextSeq
    return .inl (consumed.tip, s.trie)
  else
    let children := sortChildren node.children
    let t := s.trie.set s.curr fun n => .node n.val children
    match children with
    | [] => return .inl (span.tip, t)
    | best :: others =>
      if margin best others > uncommitted ∨ uncommitted = 0 then return .inr ⟨t, best.val.addr, uncommitted, it⟩
      else return .inl (span.tip, t)

def preferredLoop (largestIssued : Nat) :
    Nat → PreferredState Ledger → Option (SpanTip Ledger ID × LedgerTrie Ledger)
  | 0, _ => none
  | steps + 1, s =>
    match preferredTurn largestIssued s with
    | none => none
    | some (.inl result) => some result
    | some (.inr s') => preferredLoop largestIssued steps s'

def preferredInit (t : LedgerTrie Ledger) : PreferredState Ledger := ⟨t, t.root.val.addr, 0, t.seqSupport.toList⟩

/-- The preferred ledger, or `none` if there is none, and the trie with the children sorted on the way. -/
def getPreferred (t : LedgerTrie Ledger) (largestIssued : Nat) :
    Option (Option (SpanTip Ledger ID) × LedgerTrie Ledger) :=
  if t.empty then some (none, t)
  else do
    let (tip, t') ← preferredLoop largestIssued t.root.nodes.length t.preferredInit
    return (some tip, t')

end Preferred

mutual

/-- The checks of `checkInvariants` at a node and below it. -/
def checkNode (root : Nat) : Node Ledger → Bool
  | .node v children =>
    !(v.addr ≠ root && v.tipSupport = 0 && children.length < 2) && checkChildren root v.addr children &&
      v.tipSupport + (children.map fun c => c.val.branchSupport).sum = v.branchSupport

def checkChildren (root parent : Nat) : List (Node Ledger) → Bool
  | [] => true
  | child :: children =>
    child.val.parent = some parent && checkNode root child && checkChildren root parent children

end

def expectedSeqSupport (nodes : List (NodeData Ledger)) : Std.ExtTreeMap Nat Nat :=
  nodes.foldl (fun expected v =>
    if v.tipSupport ≠ 0 then
      expected.insert (v.span.end_ - 1) (uint32 (expected.getD (v.span.end_ - 1) 0 + v.tipSupport))
    else expected) ∅

def checkInvariants (t : LedgerTrie Ledger) : Bool :=
  checkNode t.root.val.addr t.root && expectedSeqSupport t.root.nodes == t.seqSupport

end LedgerTrie

end

end Xrpl.Consensus
