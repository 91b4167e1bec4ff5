import Xrpl.Basics.BaseUint
import Xrpl.Ledger.View

/-!
# Pages of non-fungible tokens

The tokens of an account are stored on pages.  The keys of the pages start with the account; their low 96 bits are a bound
for the low 96 bits of the tokens.  A token goes to the first page whose key is above its own low bits, or to the last
page, whose low bits are all ones.  Every page names the next and the previous one.

Only the pages of one account are in the view that is modelled, with the amounts by which the owner count of the account is
adjusted.  The amendment `fixNFTokenPageLinks` is enabled.
-/

namespace Xrpl.NFT

open Ledger

def kDirMaxTokensPerPage : Nat := 32

def kPageMask : Uint256 := 0xffffffffffffffffffffffff#256

abbrev AccountID := BitVec 160

def nftpageMin (owner : AccountID) : Uint256 := owner ++ 0#96

def nftpageMax (owner : AccountID) : Uint256 := owner ++ BitVec.allOnes 96

def nftpage (k token : Uint256) : Uint256 := (k &&& ~~~kPageMask) + (token &&& kPageMask)

structure NFToken where
  nftokenID : Uint256
  uri : Option (List Byte) := none
  deriving DecidableEq

structure NFTokenPage where
  nftokens : List NFToken
  nextPageMin : Option Uint256 := none
  previousPageMin : Option Uint256 := none
  deriving DecidableEq

namespace NFTokenPage

def setNFTokens (arr : List NFToken) (p : NFTokenPage) : NFTokenPage := { p with nftokens := arr }

def setNextPageMin (link : Option Uint256) (p : NFTokenPage) : NFTokenPage := { p with nextPageMin := link }

def setPreviousPageMin (link : Option Uint256) (p : NFTokenPage) : NFTokenPage := { p with previousPageMin := link }

end NFTokenPage

abbrev PageView := View Uint256 NFTokenPage

/-- The pages of an account, and by how much its owner count was adjusted each time. -/
structure Tokens where
  pages : PageView
  adjustments : List Int

inductive TER where
  | tesSUCCESS
  | tecNO_ENTRY
  | tecNO_SUITABLE_NFTOKEN_PAGE
  deriving DecidableEq

/-- The owner count stays between 0 and the largest 32-bit number. -/
def confineOwnerCount (current : Nat) (adjustment : Int) : Nat :=
  let adjusted := ((current + adjustment) % 2 ^ 32).toNat
  if adjustment > 0 then if adjusted < current then 2 ^ 32 - 1 else adjusted
  else if adjusted > current then 0 else adjusted

def adjustOwnerCount (s : Tokens) (amount : Int) : Tokens := { s with adjustments := s.adjustments ++ [amount] }

/-- The owner count of an account that had `start` before. -/
def Tokens.ownerCount (s : Tokens) (start : Nat) : Nat := s.adjustments.foldl confineOwnerCount start

def compareTokens (a b : Uint256) : Bool :=
  if a &&& kPageMask ≠ b &&& kPageMask then a &&& kPageMask < b &&& kPageMask else a < b

def locateKey (view : PageView) (owner : AccountID) (id : Uint256) : Uint256 :=
  let first := nftpage (nftpageMin owner) id
  let last := nftpageMax owner
  (view.succ first (some last.next)).getD last

def locatePage (view : PageView) (owner : AccountID) (id : Uint256) : Option NFTokenPage :=
  view.lookup (locateKey view owner id)

def findToken (view : PageView) (owner : AccountID) (nftokenID : Uint256) : Option NFToken :=
  match locatePage view owner nftokenID with
  | none => none
  | some page => page.nftokens.find? fun t => t.nftokenID = nftokenID

/-- Where a full page is split: after the tokens equivalent to the one in the middle, or before them when they reach to the
end of the page. -/
def splitIndex (narr : List NFToken) (cmp : Uint256) : Nat :=
  let half := kDirMaxTokensPerPage / 2
  let i := half + (narr.drop half).findIdx fun t => t.nftokenID &&& kPageMask ≠ cmp
  if i = narr.length then narr.findIdx fun t => t.nftokenID &&& kPageMask = cmp else i

/-- The tokens for a new page and for the old one; none if the token cannot be stored. -/
def splitPage (narr : List NFToken) (id : Uint256) : Option (List NFToken × List NFToken) :=
  match narr[kDirMaxTokensPerPage / 2 - 1]? with
  | none => none
  | some t =>
    let cmp := t.nftokenID &&& kPageMask
    let i := splitIndex narr cmp
    if i = narr.length then none
    else if i = 0 then
      if id &&& kPageMask = cmp then none
      else if id &&& kPageMask > cmp then some (narr, [])
      else some ([], narr)
    else some (narr.take i, narr.drop i)

def tokenIDForNewPage (narr carr : List NFToken) : Option Uint256 :=
  if narr.length = kDirMaxTokensPerPage then (narr[kDirMaxTokensPerPage - 1]?).map fun t => t.nftokenID.next
  else carr.head?.map NFToken.nftokenID

/-- Put the new page `np` before the page `cp`. -/
def insertPage (s : Tokens) (np cp : Uint256) (page : NFTokenPage) (narr carr : List NFToken) :
    Except LogicError Tokens := do
  let view ← (match page.previousPageMin with
    | none => pure s.pages
    | some ppm => if ppm ∈ s.pages then s.pages.modify ppm (NFTokenPage.setNextPageMin (some np)) else pure s.pages)
  let view ← view.insertNew np
    { nftokens := narr, nextPageMin := some cp, previousPageMin := page.previousPageMin }
  let view ← view.modify cp fun p => (p.setNFTokens carr).setPreviousPageMin (some np)
  return adjustOwnerCount { s with pages := view } 1

/-- The key of the page for a new token, which is created when there is none or the one that is there is full. -/
def getPageForToken (s : Tokens) (owner : AccountID) (id : Uint256) : Except LogicError (Option Uint256 × Tokens) :=
  let base := nftpageMin owner
  let first := nftpage base id
  let last := nftpageMax owner
  let cp := locateKey s.pages owner id
  match s.pages.lookup cp with
  | none => do
    let view ← s.pages.insertNew last { nftokens := [] }
    return (some last, adjustOwnerCount { s with pages := view } 1)
  | some page =>
    if page.nftokens.length ≠ kDirMaxTokensPerPage then .ok (some cp, s)
    else
      match splitPage page.nftokens id with
      | none => .ok (none, s)
      | some (narr, carr) =>
        match tokenIDForNewPage narr carr with
        | none => .ok (none, s)
        | some token => do
          let np := nftpage base token
          let s ← insertPage s np cp page narr carr
          return (if first < np then some np else some cp, s)

def sortTokens (arr : List NFToken) : List NFToken :=
  arr.insertionSort fun t t' => ¬compareTokens t'.nftokenID t.nftokenID

def insertToken (s : Tokens) (owner : AccountID) (nft : NFToken) : Except LogicError (TER × Tokens) := do
  let (page, s) ← getPageForToken s owner nft.nftokenID
  match page with
  | none => return (.tecNO_SUITABLE_NFTOKEN_PAGE, s)
  | some key =>
    let view ← s.pages.modify key fun p => p.setNFTokens (sortTokens (p.nftokens ++ [nft]))
    return (.tesSUCCESS, { s with pages := view })

/-- Move the tokens of `k1` to the next page `k2` when there is room. -/
def mergePages (view : PageView) (k1 k2 : Uint256) : Except LogicError (Bool × PageView) :=
  match view.lookup k1, view.lookup k2 with
  | some p1, some p2 =>
    if k1 ≥ k2 then .error (.what "mergePages: pages passed in out of order!")
    else if p1.nextPageMin ≠ some k2 then .error (.what "mergePages: next link broken!")
    else if p2.previousPageMin ≠ some k1 then .error (.what "mergePages: previous link broken!")
    else if p1.nftokens.length + p2.nftokens.length > kDirMaxTokensPerPage then .ok (false, view)
    else do
      let x := p1.nftokens.merge p2.nftokens fun t t' => !compareTokens t'.nftokenID t.nftokenID
      let view ← (match p1.previousPageMin with
        | none => pure view
        | some ppm =>
          if ppm ∈ view then view.modify ppm (NFTokenPage.setNextPageMin (some k2))
          else .error (.what "mergePages: p0 can't be located!"))
      let view ← view.modify k2 fun p => (p.setNFTokens x).setPreviousPageMin p1.previousPageMin
      let view ← view.eraseKey k1
      return (true, view)
  | _, _ => .error .updateMissing

def loadPage (view : PageView) (page1 : Uint256) (field : String) (link : Option Uint256) :
    Except LogicError (Option Uint256) :=
  match link with
  | none => .ok none
  | some id =>
    if id ∈ view then .ok (some id)
    else .error (.what ("page " ++ page1.toHex.toUpper ++ " has a broken " ++ field ++ " field pointing to " ++
      id.toHex.toUpper))

/-- Merge the page with the ones before and after it, as far as there is room; the number of pages that go. -/
def consolidate (view : PageView) (prev : Option Uint256) (curr : Uint256) (next : Option Uint256) :
    Except LogicError (Int × PageView) := do
  let (merged, view) ← (match prev with
    | none => pure (false, view)
    | some prev => mergePages view prev curr)
  let (merged', view) ← (match next with
    | none => pure (false, view)
    | some next => mergePages view curr next)
  return ((if merged then 1 else 0) + (if merged' then 1 else 0), view)

/-- The last page is empty: move the tokens of the previous page there. -/
def refillLast (view : PageView) (prev curr : Uint256) : Except LogicError PageView :=
  match view.lookup prev with
  | none => .error .updateMissing
  | some page => do
    let view ← view.modify curr fun p => (p.setNFTokens page.nftokens).setPreviousPageMin page.previousPageMin
    let newPrev ← loadPage view curr "PreviousPageMin" page.previousPageMin
    let view ← (match newPrev with
      | none => pure view
      | some newPrev => view.modify newPrev (NFTokenPage.setNextPageMin (some curr)))
    view.eraseKey prev

/-- Unlink and delete an empty page, and try to merge its neighbours; the number of pages that go. -/
def unlinkPage (view : PageView) (prev : Option Uint256) (curr : Uint256) (next : Option Uint256) :
    Except LogicError (Int × PageView) := do
  let view ← (match prev with
    | none => pure view
    | some prev => view.modify prev (NFTokenPage.setNextPageMin next))
  let view ← (match next with
    | none => pure view
    | some next => view.modify next (NFTokenPage.setPreviousPageMin prev))
  let view ← view.eraseKey curr
  match prev, next with
  | some prev, some next => do
    let (merged, view) ← mergePages view prev next
    return (if merged then 2 else 1, view)
  | _, _ => return (1, view)

def removeTokenFrom (s : Tokens) (nftokenID : Uint256) (curr : Uint256) (page : NFTokenPage) :
    Except LogicError (TER × Tokens) :=
  if ∀ t ∈ page.nftokens, t.nftokenID ≠ nftokenID then .ok (.tecNO_ENTRY, s)
  else do
    let arr := page.nftokens.eraseP fun t => t.nftokenID = nftokenID
    let prev ← loadPage s.pages curr "PreviousPageMin" page.previousPageMin
    let next ← loadPage s.pages curr "NextPageMin" page.nextPageMin
    if arr ≠ [] then
      let view ← s.pages.modify curr (NFTokenPage.setNFTokens arr)
      let (cnt, view) ← consolidate view prev curr next
      return (.tesSUCCESS, if cnt ≠ 0 then adjustOwnerCount { s with pages := view } (-cnt) else { s with pages := view })
    else
      match prev with
      | some prev =>
        if curr &&& kPageMask = kPageMask then
          let view ← refillLast s.pages prev curr
          return (.tesSUCCESS, adjustOwnerCount { s with pages := view } (-1))
        else
          let (cnt, view) ← unlinkPage s.pages (some prev) curr next
          return (.tesSUCCESS, adjustOwnerCount { s with pages := view } (-cnt))
      | none =>
        let (cnt, view) ← unlinkPage s.pages none curr next
        return (.tesSUCCESS, adjustOwnerCount { s with pages := view } (-cnt))

def removeToken (s : Tokens) (owner : AccountID) (nftokenID : Uint256) : Except LogicError (TER × Tokens) :=
  match locatePage s.pages owner nftokenID with
  | none => .ok (.tecNO_ENTRY, s)
  | some page => removeTokenFrom s nftokenID (locateKey s.pages owner nftokenID) page

end Xrpl.NFT
