import Xrpl.Ledger.View

/-!
# Ledger directories

A directory is a list of keys, spread over numbered pages that form a ring: page 0 is the root, every page names the next
and the previous one, the last page names the root as its next, and the root names the last page as its previous.

Only the pages of one directory are modelled, by their numbers; pages with different numbers have different keys in the
ledger.  A link that is not there reads as 0, and a link that has been set to 0 is there.
-/

namespace Xrpl.Ledger

def kDirNodeMaxEntries : Nat := 32

/-- The maximum number of pages in a directory, before that limit was lifted. -/
def kDirNodeMaxPages : Nat := 262144

def kRootPage : Nat := 0

structure DirPage (Key : Type) where
  indexes : List Key
  indexNext : Option Nat := none
  indexPrevious : Option Nat := none
  deriving DecidableEq

namespace DirPage

variable {Key : Type}

def getIndexNext (p : DirPage Key) : Nat := p.indexNext.getD 0

def getIndexPrevious (p : DirPage Key) : Nat := p.indexPrevious.getD 0

def setIndexes (indexes : List Key) (p : DirPage Key) : DirPage Key := { p with indexes := indexes }

def setIndexNext (page : Nat) (p : DirPage Key) : DirPage Key := { p with indexNext := some page }

def setIndexPrevious (page : Nat) (p : DirPage Key) : DirPage Key := { p with indexPrevious := some page }

end DirPage

abbrev Directory (Key : Type) := View Nat (DirPage Key)

namespace Directory

variable {Key : Type} [LinearOrder Key]

def createRoot (key : Key) (d : Directory Key) : Except LogicError (Option Nat × Directory Key) := do
  let d ← d.insertNew kRootPage { indexes := [key] }
  return (some kRootPage, d)

def findPreviousPage (d : Directory Key) (start : DirPage Key) : Except LogicError (Nat × DirPage Key) :=
  let page := start.getIndexPrevious
  if page ≠ 0 then
    match d.lookup page with
    | none => .error (.what "Directory chain: root back-pointer broken.")
    | some node => .ok (page, node)
  else .ok (page, start)

/-- The entries of a page with one more key: at the end, or in its place among the sorted ones. -/
def insertIndex (preserveOrder : Bool) (indexes : List Key) (key : Key) : Except LogicError (List Key) :=
  if preserveOrder then
    if key ∈ indexes then .error (.what "dirInsert: double insertion") else .ok (indexes ++ [key])
  else
    let indexes := indexes.insertionSort (· ≤ ·)
    let before := indexes.takeWhile (· < key)
    let pos := indexes.dropWhile (· < key)
    if pos.head? = some key then .error (.what "dirInsert: double insertion") else .ok (before ++ key :: pos)

def insertKey (d : Directory Key) (node : DirPage Key) (page : Nat) (preserveOrder : Bool) (key : Key) :
    Except LogicError (Option Nat × Directory Key) := do
  let indexes ← insertIndex preserveOrder node.indexes key
  let d ← d.modify page (DirPage.setIndexes indexes)
  return (some page, d)

/-- A new page after the last one, unless there are no more page numbers. -/
def insertPage (fixDirectoryLimit : Bool) (d : Directory Key) (page : Nat) (key : Key) :
    Except LogicError (Option Nat × Directory Key) :=
  let newPage := (page + 1) % 2 ^ 64
  if newPage = 0 then .ok (none, d)
  else if ¬fixDirectoryLimit ∧ newPage ≥ kDirNodeMaxPages then .ok (none, d)
  else do
    let d ← d.modify page (DirPage.setIndexNext newPage)
    let d ← d.modify kRootPage (DirPage.setIndexPrevious newPage)
    let d ← d.insertNew newPage
      { indexes := [key], indexPrevious := if newPage ≠ 1 then some (newPage - 1) else none }
    return (some newPage, d)

def dirAdd (fixDirectoryLimit preserveOrder : Bool) (key : Key) (d : Directory Key) :
    Except LogicError (Option Nat × Directory Key) :=
  match d.lookup kRootPage with
  | none => createRoot key d
  | some root => do
    let (page, node) ← findPreviousPage d root
    if node.indexes.length < kDirNodeMaxEntries then insertKey d node page preserveOrder key
    else insertPage fixDirectoryLimit d page key

def checkRootLinks (root : DirPage Key) : Except LogicError Unit :=
  if root.getIndexNext = kRootPage ∧ root.getIndexPrevious ≠ kRootPage then
    .error (.what "Directory chain: fwd link broken")
  else if root.getIndexPrevious = kRootPage ∧ root.getIndexNext ≠ kRootPage then
    .error (.what "Directory chain: rev link broken")
  else .ok ()

section

variable (d : Directory Key)

def unlinkLast (last : Nat) : Except LogicError (Directory Key) := do
  let d ← d.modify kRootPage fun p => (p.setIndexNext kRootPage).setIndexPrevious kRootPage
  d.eraseKey last

/-- Delete an empty directory.  Older versions of the code could leave the last page empty. -/
def emptyDirDelete : Except LogicError (Bool × Directory Key) :=
  match d.lookup kRootPage with
  | none => .ok (false, d)
  | some node =>
    if ¬node.indexes.isEmpty then .ok (false, d)
    else do
      let prevPage := node.getIndexPrevious
      let nextPage := node.getIndexNext
      checkRootLinks node
      if nextPage = prevPage ∧ nextPage ≠ kRootPage then
        match d.lookup nextPage with
        | none => .error (.what "Directory chain: fwd link broken.")
        | some last =>
          if ¬last.indexes.isEmpty then return (false, d)
          else
            let d ← unlinkLast d nextPage
            let d ← d.eraseKey kRootPage
            return (true, d)
      else if nextPage = kRootPage ∧ prevPage = kRootPage then
        let d ← d.eraseKey kRootPage
        return (true, d)
      else return (true, d)

def eraseRoot (keepRoot alone : Bool) : Except LogicError (Bool × Directory Key) :=
  if keepRoot then .ok (true, d)
  else if alone then do
    let d ← d.eraseKey kRootPage
    return (true, d)
  else .ok (true, d)

def emptiedRoot (root : DirPage Key) (keepRoot : Bool) :
    Except LogicError (Bool × Directory Key) := do
  let prevPage := root.getIndexPrevious
  let nextPage := root.getIndexNext
  checkRootLinks root
  if nextPage = prevPage ∧ nextPage ≠ kRootPage then
    match d.lookup nextPage with
    | none => .error (.what "Directory chain: fwd link broken.")
    | some last =>
      if last.indexes.isEmpty then
        let d ← unlinkLast d nextPage
        eraseRoot d keepRoot true
      else eraseRoot d keepRoot false
  else eraseRoot d keepRoot (nextPage = kRootPage ∧ prevPage = kRootPage)

/-- Delete the page after an unlinked one when it is the last page and it is empty; the new next page of `prevPage`. -/
def dropEmptyNext (prevPage nextPage : Nat) (next : DirPage Key) :
    Except LogicError (Nat × Directory Key) :=
  if nextPage ≠ kRootPage ∧ next.getIndexNext = kRootPage ∧ next.indexes.isEmpty then do
    let d ← d.eraseKey nextPage
    let d ← d.modify prevPage (DirPage.setIndexNext kRootPage)
    match d.lookup kRootPage with
    | none => .error (.what "Directory chain: root link broken.")
    | some _ => do
      let d ← d.modify kRootPage (DirPage.setIndexPrevious prevPage)
      return (kRootPage, d)
  else .ok (nextPage, d)

def dropEmptyRoot (prevPage nextPage : Nat) (keepRoot : Bool) :
    Except LogicError (Bool × Directory Key) :=
  if ¬keepRoot ∧ nextPage = kRootPage ∧ prevPage = kRootPage then
    match d.lookup prevPage with
    | none => .error .eraseMissing
    | some prev =>
      if prev.indexes.isEmpty then do
        let d ← d.eraseKey prevPage
        return (true, d)
      else .ok (true, d)
  else .ok (true, d)

/-- A page other than the root has become empty: unlink and delete it. -/
def emptiedPage (page : Nat) (node : DirPage Key) (keepRoot : Bool) :
    Except LogicError (Bool × Directory Key) :=
  let prevPage := node.getIndexPrevious
  let nextPage := node.getIndexNext
  if nextPage = page then .error (.what "Directory chain: fwd link broken")
  else if prevPage = page then .error (.what "Directory chain: rev link broken")
  else
    match d.lookup prevPage with
    | none => .error (.what "Directory chain: fwd link broken.")
    | some _ => do
      let d ← d.modify prevPage (DirPage.setIndexNext nextPage)
      match d.lookup nextPage with
      | none => .error (.what "Directory chain: rev link broken.")
      | some next => do
        let d ← d.modify nextPage (DirPage.setIndexPrevious prevPage)
        let d ← d.eraseKey page
        let (nextPage, d) ← dropEmptyNext d prevPage nextPage (next.setIndexPrevious prevPage)
        dropEmptyRoot d prevPage nextPage keepRoot

end

def dirRemove (page : Nat) (key : Key) (keepRoot : Bool) (d : Directory Key) :
    Except LogicError (Bool × Directory Key) :=
  match d.lookup page with
  | none => .ok (false, d)
  | some node =>
    if key ∉ node.indexes then .ok (false, d)
    else do
      let entries := node.indexes.erase key
      let d ← d.modify page (DirPage.setIndexes entries)
      if ¬entries.isEmpty then return (true, d)
      else if page = kRootPage then emptiedRoot d (node.setIndexes entries) keepRoot
      else emptiedPage d page (node.setIndexes entries) keepRoot

/-- The loop of `dirDelete`, from the page `pi` on: the result, and the keys that the callback is called with. -/
def dirDeleteFrom (d : Directory Key) (pi : Option Nat) : Bool × List Key × Directory Key :=
  match _h : d.lookup (pi.getD 0) with
  | none => (false, [], d)
  | some page =>
    let d' := d.erase (pi.getD 0)
    match page.indexNext with
    | none => (true, page.indexes, d')
    | some next =>
      let r := dirDeleteFrom d' (some next)
      (r.1, page.indexes ++ r.2.1, r.2.2)
termination_by d.entries.length
decreasing_by rw [(HashMap.perm_of_lookup _h).length_eq]; exact Nat.lt_succ_self _

def dirDelete (d : Directory Key) : Bool × List Key × Directory Key := dirDeleteFrom d none

end Directory

end Xrpl.Ledger
