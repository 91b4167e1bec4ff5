import Xrpl.Basics.Number

/-!
# Amounts of multi-purpose tokens: the model

An amount of an MPT is an integer from 0 to `kMaxMpTokenAmount`.  `STAmount::canonicalize` brings a mantissa and an
offset to this form.  The transfer fee is charged by `multiply`, which computes with `Number` or, before the
amendment fixUniversalNumber, with integers of 64 bits.

* `canonicalize`, `canAdd`, `canSubtract`: `STAmount` for MPTs, with its exceptions;
* `multiply`: an amount times a transfer rate.
-/

namespace Xrpl.MPT

open Basics (MantissaScale RoundingMode Number Failure)

inductive TER where
  | tecPATH_DRY
  | tecNO_AUTH
  | tecINTERNAL
  | tecINSUFFICIENT_FUNDS
  | tecOBJECT_NOT_FOUND
  deriving DecidableEq, Repr

/-- What ends an operation without success. -/
inductive Stop where
  /-- A result code other than `tesSUCCESS`. -/
  | ter (code : TER)
  /-- An exception, with its text. -/
  | thrown (what : String)
  /-- A stored amount left its range.  Storage of 64 bits never reports this; see `checked`. -/
  | wrapped
  deriving DecidableEq, Repr

def Stop.ofFailure : Failure → Stop
  | .overflowError what => .thrown what
  | .diverges => .thrown ""

def liftNumber {α : Type} (x : Except Failure α) : Except Stop α := x.mapError Stop.ofFailure

def kMaxMpTokenAmount : ℕ := 0x7FFFFFFFFFFFFFFF

structure MPTID (A : Type) where
  sequence : BitVec 32
  account : A
  deriving DecidableEq

abbrev MPTAmount := { value : ℕ // value ≤ kMaxMpTokenAmount }

/-- An `STAmount` that holds an MPT and is not negative. -/
structure STAmount (A : Type) where
  mptID : MPTID A
  mpt : MPTAmount

/-- The thread-local settings that arithmetic depends on. -/
structure Arithmetic where
  /-- `getSTNumberSwitchover`: is the amendment fixUniversalNumber enabled? -/
  switchover : Bool
  scale : MantissaScale
  mode : RoundingMode

def scaleUp : ℕ → ℕ → Except Stop ℕ
  | 0, value => pure value
  | offset + 1, value =>
    if kMaxMpTokenAmount < value then throw (.thrown "MPT amount out of range")
    else scaleUp offset (value * 10 % 2 ^ 64)

/-- `STAmount::canonicalize` for an MPT amount that is not negative. -/
def canonicalize (ar : Arithmetic) (value : ℕ) (offset : ℤ) : Except Stop MPTAmount :=
  if value = 0 ∨ offset ≤ -20 then pure ⟨0, Nat.zero_le _⟩
  else if 18 < offset then throw (.thrown "MPT amount out of range")
  else do
    let value ←
      if ar.switchover then Int.toNat <$> liftNumber (Number.toRep ar.mode { mantissa := value, exponent := offset })
      else scaleUp offset.toNat (value / 10 ^ (-offset).toNat)
    if h : value ≤ kMaxMpTokenAmount then pure ⟨value, h⟩ else throw (.thrown "MPT amount out of range")

def canAdd (ar : Arithmetic) (a b : ℕ) : Except Stop Bool := do
  let aVal ← canonicalize ar a 0
  let bVal ← canonicalize ar b 0
  if aVal.1 = 0 ∨ bVal.1 = 0 then pure true
  else pure !(0 < bVal.1 && kMaxMpTokenAmount - bVal < aVal.1)

def canSubtract (ar : Arithmetic) (a b : ℕ) : Except Stop Bool := do
  let aVal ← canonicalize ar a 0
  let bVal ← canonicalize ar b 0
  if bVal.1 = 0 then pure true
  else pure !(0 < bVal.1 && aVal.1 < bVal.1)

def kParityRate : ℕ := 1000000000

def kMinValue : ℕ := 1000000000000000

def kTenTO14 : ℕ := 100000000000000

/-- The loop that brings the mantissa of an integral amount to the size of the other ones. -/
def raiseToMinValue (value : ℕ) (offset : ℤ) : ℕ × ℤ :=
  if 0 < value ∧ value < kMinValue then raiseToMinValue (value * 10) (offset - 1) else (value, offset)
termination_by kMinValue - value
decreasing_by omega

/-- `asAmount`: mantissa and exponent of a rate as an amount.  Rates are below 2^32, so that normalizing is exact. -/
def asAmount (rate : ℕ) : ℕ × ℤ := raiseToMinValue rate (-9)

def muldiv (multiplier multiplicand divisor : ℕ) : Except Stop ℕ :=
  let ret := multiplier * multiplicand / divisor
  if 2 ^ 64 ≤ ret then
    throw (.thrown ("overflow: (" ++ toString multiplier ++ " * " ++ toString multiplicand ++ ") / " ++
      toString divisor))
  else pure ret

/-- `multiply` for an MPT amount and an amount that is not integral, before fixUniversalNumber. -/
def multiplyIntegers (ar : Arithmetic) (value : MPTAmount) (v2 : ℕ × ℤ) : Except Stop MPTAmount := do
  let v1 := raiseToMinValue value.1 0
  let product ← muldiv v1.1 v2.1 kTenTO14
  canonicalize ar ((product + 7) % 2 ^ 64) (v1.2 + v2.2 + 14)

/-- `multiply` for an MPT amount and an amount that is not integral, with `Number`. -/
def multiplyNumbers (ar : Arithmetic) (value : MPTAmount) (v2 : ℕ × ℤ) : Except Stop MPTAmount := do
  let n1 ← liftNumber (Number.ofRep ar.scale ar.mode (.ofNat value.1) 0)
  let n2 ← liftNumber (Number.ofRep ar.scale ar.mode (.ofNat v2.1) (.ofInt v2.2))
  let r ← liftNumber (Number.mul ar.scale ar.mode n1 n2)
  let intValue ← liftNumber (Number.toRep ar.mode r)
  canonicalize ar intValue.toNat 0

def multiply (ar : Arithmetic) (amount : MPTAmount) (rate : ℕ) : Except Stop MPTAmount :=
  if rate = kParityRate then pure amount
  else if amount.1 = 0 then pure amount
  else if ar.switchover then multiplyNumbers ar amount (asAmount rate)
  else multiplyIntegers ar amount (asAmount rate)

end Xrpl.MPT
