import Mathlib.Data.UInt
import Xrpl.Lib.Yields

/-!
# Path sets on the wire

The type of an element is read from a mask and computed again from its fields; an element whose fields are all zero then
has the type that ends a path set.

* `pathSet_survives_iff`: a path set is read back exactly if no element has zero fields only.
-/

namespace Xrpl.Protocol

open List

/-- A `base_uint` of some bytes. -/
abbrev BitString (n : ℕ) := { bytes : List UInt8 // bytes.length = n }

instance (n : ℕ) : Zero (BitString n) := ⟨⟨replicate n 0, length_replicate⟩⟩

inductive PathAsset
  | currency (bytes : BitString 20)
  | mpt (bytes : BitString 24)
deriving DecidableEq

def typeNone : UInt8 := 0x00
def typeAccount : UInt8 := 0x01
def typeCurrency : UInt8 := 0x10
def typeIssuer : UInt8 := 0x20
def typeMpt : UInt8 := 0x40
def typeBoundary : UInt8 := 0xFF
def typeAll : UInt8 := typeAccount ||| typeCurrency ||| typeIssuer ||| typeMpt

def PathAsset.type : PathAsset → UInt8
  | .currency _ => typeCurrency
  | .mpt _ => typeMpt

def PathAsset.bytes : PathAsset → List UInt8
  | .currency bytes => bytes
  | .mpt bytes => bytes

structure STPathElement where
  type : UInt8
  account : BitString 20
  asset : PathAsset
  issuer : BitString 20
deriving DecidableEq

/-- The constructor. -/
def STPathElement.make (account : BitString 20) (asset : PathAsset) (issuer : BitString 20) (forceAsset : Bool) :
    STPathElement :=
  { type := (if account = 0 then 0 else typeAccount) |||
      (if forceAsset ∨ asset ≠ .currency 0 then asset.type else 0) ||| if issuer = 0 then 0 else typeIssuer
    account, asset, issuer }

def has (iType flag : UInt8) : Bool := iType &&& flag ≠ 0

/-- `SerialIter::getBitString` for a field that is present, otherwise the default. -/
def getIf (n : ℕ) (present : Bool) (sit : List UInt8) : Except String (BitString n × List UInt8) :=
  if present then
    if h : n ≤ sit.length then .ok (⟨sit.take n, by simpa using h⟩, sit.drop n)
    else .error "invalid SerialIter getBitString"
  else .ok (0, sit)

def readAsset (hasCurrency hasMPT : Bool) (sit : List UInt8) : Except String (PathAsset × List UInt8) := do
  if hasCurrency && hasMPT then throw "bad path element: MPT and Currency"
  else if hasMPT then
    let (bytes, sit) ← getIf 24 hasMPT sit
    return (.mpt bytes, sit)
  else
    let (bytes, sit) ← getIf 20 hasCurrency sit
    return (.currency bytes, sit)

/-- The fields of an element after its type. -/
def readElement (iType : UInt8) (sit : List UInt8) : Except String (STPathElement × List UInt8) := do
  let (account, sit) ← getIf 20 (has iType typeAccount) sit
  let (asset, sit) ← readAsset (has iType typeCurrency) (has iType typeMpt) sit
  let (issuer, sit) ← getIf 20 (has iType typeIssuer) sit
  return (.make account asset issuer (has iType typeCurrency || has iType typeMpt), sit)

section

variable {n : ℕ} {present : Bool} {x : BitString n} {sit rest : List UInt8}

/-- The bytes of a field that may be absent. -/
def field (present : Bool) (x : BitString n) : List UInt8 := if present then x.1 else []

private lemma getIf_field (hx : present = false → x = 0) (rest : List UInt8) :
    getIf n present (field present x ++ rest) = .ok (x, rest) := by
  cases present with
  | false => rw [hx rfl]; rfl
  | true =>
    obtain ⟨x, rfl⟩ := x
    simp [getIf, field]

private lemma of_getIf (h : getIf n present sit = .ok (x, rest)) :
    sit = field present x ++ rest ∧ (present = false → x = 0) := by
  cases present with
  | false =>
    cases h
    exact ⟨rfl, fun _ => rfl⟩
  | true =>
    rw [getIf, if_pos rfl] at h
    split_ifs at h
    cases h
    exact ⟨(take_append_drop n sit).symm, nofun⟩

end

/-- What is written after the type. -/
def STPathElement.fields (e : STPathElement) : List UInt8 :=
  field (has e.type typeAccount) e.account ++
    ((if has e.type typeCurrency || has e.type typeMpt then e.asset.bytes else []) ++
      field (has e.type typeIssuer) e.issuer)

variable {e : STPathElement} {iType : UInt8} {sit rest : List UInt8} {account issuer : BitString 20} {asset : PathAsset}
  {forceAsset : Bool}

private lemma of_readAsset {hasCurrency hasMPT : Bool} (h : readAsset hasCurrency hasMPT sit = .ok (asset, rest)) :
    rest <:+ sit ∧ ((hasCurrency || hasMPT) = false → asset = .currency 0 ∧ rest = sit) := by
  cases hasMPT with
  | true =>
    cases hasCurrency with
    | true => cases h
    | false =>
      obtain ⟨⟨bytes, sit1⟩, hg, heq⟩ := Except.of_bind_eq_ok h
      cases heq
      exact ⟨⟨_, (of_getIf hg).1.symm⟩, nofun⟩
  | false =>
    cases hasCurrency with
    | true =>
      obtain ⟨⟨bytes, sit1⟩, hg, heq⟩ := Except.of_bind_eq_ok h
      cases heq
      exact ⟨⟨_, (of_getIf hg).1.symm⟩, nofun⟩
    | false =>
      cases h
      exact ⟨suffix_rfl, fun _ => ⟨rfl, rfl⟩⟩

/-- The reader forces an asset that it has read. -/
private lemma has_make (account issuer : BitString 20) (hp : forceAsset = false → asset = .currency 0) :
    let e := STPathElement.make account asset issuer forceAsset
    has e.type typeAccount = decide (account ≠ 0) ∧ has e.type typeIssuer = decide (issuer ≠ 0) ∧
    has e.type typeCurrency = (forceAsset && asset.type = typeCurrency) ∧
    has e.type typeMpt = (forceAsset && asset.type = typeMpt) ∧ has e.type (~~~typeAll) = false := by
  have hf : (forceAsset ∨ asset ≠ .currency 0) ↔ forceAsset := by
    cases forceAsset with
    | true => simp
    | false => simp [hp rfl]
  simp only [STPathElement.make, hf]
  cases asset <;> cases forceAsset <;> split_ifs <;> simp_all [PathAsset.type] <;> exact ⟨rfl, rfl, rfl, rfl, rfl⟩

def Sound (e : STPathElement) : Prop :=
  ∃ account asset issuer forceAsset, e = .make account asset issuer forceAsset ∧ (forceAsset = false → asset = .currency 0)

/-- An element without an asset whose accounts are zero. -/
def Void (iType : UInt8) (sit : List UInt8) : Prop :=
  iType ≠ typeNone ∧ has iType typeCurrency = false ∧ has iType typeMpt = false ∧
    field (has iType typeAccount) (0 : BitString 20) ++ field (has iType typeIssuer) (0 : BitString 20) <+: sit

private lemma type_of_void (hv : Void iType sit) (h : readElement iType sit = .ok (e, rest)) : e.type = 0 := by
  obtain ⟨-, hc, hm, t, rfl⟩ := hv
  rw [readElement, append_assoc, getIf_field fun _ => rfl, hc, hm] at h
  change (getIf _ _ _ >>= _) = _ at h
  rw [getIf_field fun _ => rfl] at h
  cases h
  rfl

private lemma of_readElement (h : readElement iType sit = .ok (e, rest)) :
    Sound e ∧ rest <:+ sit ∧ (iType ≠ typeNone → (e.type = 0 ↔ Void iType sit)) := by
  have hvoid (hv : Void iType sit) := type_of_void hv h
  obtain ⟨⟨account, sit1⟩, hacc, h⟩ := Except.of_bind_eq_ok h
  obtain ⟨⟨asset, sit2⟩, hass, h⟩ := Except.of_bind_eq_ok h
  obtain ⟨⟨issuer, sit3⟩, hiss, h⟩ := Except.of_bind_eq_ok h
  cases h
  obtain ⟨rfl, -⟩ := of_getIf hacc
  obtain ⟨rfl, -⟩ := of_getIf hiss
  obtain ⟨hs, hp⟩ := of_readAsset hass
  refine ⟨⟨_, _, _, _, rfl, fun hf => (hp hf).1⟩, (suffix_append ..).trans (hs.trans (suffix_append ..)),
    fun hn => ⟨fun ht => ?_, hvoid⟩⟩
  obtain ⟨ha, hi, hc, hm, -⟩ := has_make account issuer fun hf => (hp hf).1
  rw [ht] at ha hi hc hm
  obtain rfl : account = 0 := by simpa [has] using ha
  obtain rfl : issuer = 0 := by simpa [has] using hi
  have hf : (has iType typeCurrency || has iType typeMpt) = false := by
    cases asset with
    | currency bytes => simpa [has, PathAsset.type] using hc
    | mpt bytes => simpa [has, PathAsset.type] using hm
  obtain ⟨hc, hm⟩ := Bool.or_eq_false_iff.1 hf
  exact ⟨hn, hc, hm, rest, by rw [append_assoc, (hp hf).2]⟩

private lemma readAsset_bytes (hp : forceAsset = false → asset = .currency 0) (rest : List UInt8) :
    readAsset (forceAsset && asset.type = typeCurrency) (forceAsset && asset.type = typeMpt)
      ((if forceAsset then asset.bytes else []) ++ rest) = .ok (asset, rest) := by
  cases forceAsset with
  | false =>
    rw [hp rfl]
    rfl
  | true =>
    cases asset with
    | currency bytes | mpt bytes => exact congrArg (· >>= _) (@getIf_field _ true bytes nofun rest)

private lemma readElement_fields (he : Sound e) (rest : List UInt8) :
    readElement e.type (e.fields ++ rest) = .ok (e, rest) := by
  obtain ⟨account, asset, issuer, forceAsset, rfl, hp⟩ := he
  obtain ⟨ha, hi, hc, hm, -⟩ := has_make account issuer hp
  have hf : (forceAsset && asset.type = typeCurrency || forceAsset && asset.type = typeMpt) = forceAsset := by
    cases asset <;> cases forceAsset <;> rfl
  have hfi : (STPathElement.make account asset issuer forceAsset).fields = field (decide (account ≠ 0)) account ++
      ((if forceAsset then asset.bytes else []) ++ field (decide (issuer ≠ 0)) issuer) := by
    rw [STPathElement.fields, ha, hi, hc, hm, hf]
    rfl
  rw [readElement, hfi, ha, hi, hc, hm, append_assoc, append_assoc, getIf_field (by simp)]
  show (readAsset _ _ _ >>= _) = _
  rw [readAsset_bytes hp]
  show (getIf _ _ _ >>= _) = _
  rw [getIf_field (by simp), hf]
  rfl

abbrev STPathSet := List (List STPathElement)

/-- The loop of the constructor, with the path so far. -/
def readPaths (path : List STPathElement) (sit : List UInt8) : Except String (STPathSet × List UInt8) :=
  match sit with
  | [] => .error "invalid SerialIter get8"
  | iType :: sit =>
    if iType = typeNone ∨ iType = typeBoundary then
      if path.isEmpty then .error "empty path"
      else if iType = typeNone then .ok ([path], sit)
      else (·.map (path :: ·) id) <$> readPaths [] sit
    else if has iType (~~~typeAll) then .error "bad path element"
    else
      match _h : readElement iType sit with
      | .error e => .error e
      | .ok (element, rest) => readPaths (path ++ [element]) rest
termination_by sit.length
decreasing_by
  · simp
  · have := (of_readElement _h).2.1.length_le
    simp
    omega

def STPathSet.add : STPathSet → List UInt8
  | [] => [typeNone]
  | [path] => path.flatMap (fun e => e.type :: e.fields) ++ [typeNone]
  | path :: paths => path.flatMap (fun e => e.type :: e.fields) ++ typeBoundary :: add paths

/-- The constructor gets from one place to another. -/
inductive Passes : List UInt8 → List UInt8 → Prop
  | refl (s : List UInt8) : Passes s s
  | boundary {s t : List UInt8} : Passes s t → Passes (typeBoundary :: s) t
  | element {mask : UInt8} {x : STPathElement} {s s' t : List UInt8} : mask ≠ typeNone →
    readElement mask s = .ok (x, s') → Passes s' t → Passes (mask :: s) t

variable {path : List STPathElement} {paths : STPathSet}

private lemma readElement_boundary (s : List UInt8) : readElement typeBoundary s ≠ .ok (e, rest) := by
  intro h
  obtain ⟨⟨account, sit1⟩, -, h⟩ := Except.of_bind_eq_ok h
  obtain ⟨⟨asset, sit2⟩, hass, -⟩ := Except.of_bind_eq_ok h
  cases hass

/-- The elements that are read are sound, and one of them has no type exactly if a void one was passed. -/
private lemma of_readPaths (hp : ∀ e ∈ path, Sound e) (h : readPaths path sit = .ok (paths, rest)) :
    paths ≠ [] ∧ (∀ path ∈ paths, path ≠ [] ∧ ∀ e ∈ path, Sound e) ∧
      ((∀ path ∈ paths, ∀ e ∈ path, e.type ≠ 0) ↔
        (∀ e ∈ path, e.type ≠ 0) ∧ ∀ iType sit', Passes sit (iType :: sit') → ¬ Void iType sit') := by
  fun_induction readPaths path sit generalizing paths with
  | case1 => cases h
  | case2 => cases h
  | case3 path sit he hma =>
    cases h
    refine ⟨cons_ne_nil _ _, forall_mem_singleton.2 ⟨by simpa using he, hp⟩, ?_⟩
    refine forall_mem_singleton.trans (and_iff_left ?_).symm
    rintro iType sit' hps hv
    cases hps with
    | refl => exact hv.1 rfl
    | element hne => exact hne rfl
  | case4 path iType sit hma he hn ih =>
    obtain rfl := hma.resolve_left hn
    cases hr : readPaths [] sit with
    | error what =>
      rw [hr] at h
      cases h
    | ok r =>
      rw [hr] at h
      cases h
      obtain ⟨-, hpa, hiff⟩ := ih (by simp) hr
      refine ⟨cons_ne_nil _ _, forall_mem_cons.2 ⟨⟨by simpa using he, hp⟩, hpa⟩, ?_⟩
      refine forall_mem_cons.trans (and_congr_right' (hiff.trans ((and_iff_right (by simp)).trans ⟨?_, ?_⟩)))
      · intro hv iType sit' hps
        cases hps with
        | refl => exact fun hvo => absurd hvo.2.1 (by decide)
        | boundary hps => exact hv iType sit' hps
        | element _ hr => exact absurd hr (readElement_boundary _)
      · exact fun hv iType sit' hps => hv iType sit' (.boundary hps)
  | case5 => cases h
  | case6 => cases h
  | case7 path iType sit hma ha element rest' hr ih =>
    simp only [not_or] at hma
    obtain ⟨hs, -, hz⟩ := of_readElement hr
    obtain ⟨hne, hpa, hiff⟩ := ih (forall_mem_append.2 ⟨hp, forall_mem_singleton.2 hs⟩) h
    refine ⟨hne, hpa, hiff.trans ?_⟩
    rw [forall_mem_append, forall_mem_singleton, and_assoc, ne_eq, hz hma.1]
    refine and_congr_right' ⟨fun ⟨hv0, hv⟩ iType' sit' hps => ?_, fun hv => ⟨hv _ _ (.refl _), ?_⟩⟩
    · cases hps with
      | refl => exact hv0
      | boundary => exact absurd rfl hma.2
      | element _ hr' hps =>
        cases hr.symm.trans hr'
        exact hv iType' sit' hps
    · exact fun iType' sit' hps => hv iType' sit' (.element hma.1 hr hps)

private lemma readPaths_element (hm : ¬ (iType = typeNone ∨ iType = typeBoundary)) (ha : ¬ has iType (~~~typeAll))
    (hr : readElement iType sit = .ok (e, rest)) (path : List STPathElement) :
    readPaths path (iType :: sit) = readPaths (path ++ [e]) rest := by
  rw [readPaths, if_neg hm, if_neg ha]
  split
  case h_1 heq => cases heq.symm.trans hr
  case h_2 heq =>
    cases heq.symm.trans hr
    rfl

variable {elements : List STPathElement}

private lemma readPaths_sound (hs : Sound e) (hne : e.type ≠ 0) (path : List STPathElement) (rest : List UInt8) :
    readPaths path (e.type :: e.fields ++ rest) = readPaths (path ++ [e]) rest := by
  have ha : ¬ has e.type (~~~typeAll) := by
    obtain ⟨account, asset, issuer, forceAsset, rfl, hp⟩ := hs
    simp [(has_make _ _ hp).2.2.2.2]
  have hm : ¬ (e.type = typeNone ∨ e.type = typeBoundary) := by
    rintro (hn | hb)
    · exact hne hn
    · exact ha (hb ▸ rfl)
  exact readPaths_element hm ha (readElement_fields hs _) path

private lemma readPaths_elements (hs : ∀ e ∈ elements, Sound e) (h : ∀ e ∈ elements, e.type ≠ 0)
    (path : List STPathElement)
    (rest : List UInt8) : readPaths path (elements.flatMap (fun e => e.type :: e.fields) ++ rest) =
      readPaths (path ++ elements) rest := by
  induction elements generalizing path with
  | nil => simp
  | cons e elements ih =>
    obtain ⟨hs, hss⟩ := forall_mem_cons.1 hs
    obtain ⟨hne, h⟩ := forall_mem_cons.1 h
    rw [flatMap_cons, append_assoc, readPaths_sound hs hne, ih hss h, append_assoc]
    rfl

/-- An element without a type ends the path set before its last byte. -/
private lemma readPaths_cut (hs : ∀ e ∈ elements, Sound e) (h : ∃ e ∈ elements, e.type = 0) (path : List STPathElement)
    (hr : rest ≠ []) : readPaths path (elements.flatMap (fun e => e.type :: e.fields) ++ rest) ≠ .ok (paths, []) := by
  induction elements generalizing path with
  | nil => simp at h
  | cons e elements ih =>
    obtain ⟨hse, hss⟩ := forall_mem_cons.1 hs
    rw [flatMap_cons, append_assoc]
    by_cases h0 : e.type = 0
    · rw [h0, cons_append, readPaths, if_pos (.inl rfl)]
      split_ifs
      · exact nofun
      · simp [hr]
      · contradiction
    · rw [readPaths_sound hse h0]
      exact ih hss (by simpa [h0] using h) _

private lemma readPaths_add_iff (hne : paths ≠ []) (hs : ∀ path ∈ paths, path ≠ [] ∧ ∀ e ∈ path, Sound e) :
    readPaths [] (STPathSet.add paths) = .ok (paths, []) ↔ ∀ path ∈ paths, ∀ e ∈ path, e.type ≠ 0 := by
  fun_induction STPathSet.add paths with
  | case1 => cases hne rfl
  | case2 path =>
    obtain ⟨hp, hl⟩ := hs path mem_cons_self
    rw [forall_mem_singleton]
    by_cases h : ∀ e ∈ path, e.type ≠ 0
    · rw [readPaths_elements hl h]
      simpa [readPaths, hp] using h
    · exact iff_of_false (readPaths_cut hl (by simpa using h) [] (by simp)) h
  | case3 path paths hc ih =>
    obtain ⟨⟨hp, hl⟩, hs⟩ := forall_mem_cons.1 hs
    rw [forall_mem_cons]
    by_cases h : ∀ e ∈ path, e.type ≠ 0
    · rw [and_iff_right h, ← ih (by simpa using hc) hs, readPaths_elements hl h, nil_append, readPaths,
        if_pos (.inr rfl), if_neg (by simpa using hp), if_neg (by decide)]
      cases readPaths [] (STPathSet.add paths) with
      | error what => exact iff_of_false nofun nofun
      | ok r => simp [Prod.ext_iff]
    · exact iff_of_false (readPaths_cut hl (by simpa using h) [] (by simp)) fun hv => h hv.1

/-- The constructor reads back what is written for a path set that it has read exactly if it has passed no void element. -/
theorem pathSet_survives_iff (sit rest : List UInt8) (paths : STPathSet) (h : readPaths [] sit = .ok (paths, rest)) :
    readPaths [] paths.add = .ok (paths, []) ↔ ∀ iType sit', Passes sit (iType :: sit') → ¬ Void iType sit' := by
  obtain ⟨hne, hs, hv⟩ := of_readPaths (by simp) h
  rw [readPaths_add_iff hne hs, hv, and_iff_right (by simp)]

/-- An element with the account zero is written as the end of the path set. -/
theorem pathSet_lost : ∃ paths, readPaths [] (typeAccount :: replicate 20 0 ++ [typeNone]) = .ok (paths, []) ∧
    readPaths [] paths.add = .error "empty path" := by
  refine ⟨[[.make 0 (.currency 0) 0 false]], ?_, ?_⟩
  · refine (readPaths_element (by decide) (by decide) (show _ = Except.ok (_, [typeNone]) from rfl) []).trans ?_
    rw [readPaths]
    rfl
  · show readPaths [] (typeNone :: [typeNone]) = _
    rw [readPaths]
    rfl

theorem pathSet_survives_currency : ∃ paths, readPaths [] (typeCurrency :: replicate 20 0 ++ [typeNone]) = .ok (paths, []) ∧
    readPaths [] paths.add = .ok (paths, []) := by
  have hr : readPaths [] (typeCurrency :: replicate 20 0 ++ [typeNone]) = .ok ([[.make 0 (.currency 0) 0 true]], []) := by
    refine (readPaths_element (by decide) (by decide) (show _ = Except.ok (_, [typeNone]) from rfl) []).trans ?_
    rw [readPaths]
    rfl
  refine ⟨_, hr, (pathSet_survives_iff _ _ _ hr).2 ?_⟩
  rintro iType sit' hp ⟨hn, hc, -⟩
  cases hp with
  | refl => cases hc
  | element _ hr hp =>
    cases hr
    cases hp with
    | refl => exact hn rfl
    | element hne => exact hne rfl

end Xrpl.Protocol
