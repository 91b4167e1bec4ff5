import Xrpl.Basics.Divu10

/-!
# `Number`: the model

A decimal floating point number with a sign, an unsigned mantissa and an exponent, and its arithmetic in integers of 64
and 128 bits.  The rounding mode and the mantissa scale, which the source keeps in thread-local variables, are arguments.
Mantissas are natural numbers; where an operation of the source could leave its integer type the result is reduced to the
width of that type (`MantissaType.wrap`).

* `Guard` holds the digits that an operation has dropped: sixteen of them, a bit for non-zero digits beyond these, and
  the sign.
* `Guard.doRoundUp`, `Guard.doRoundDown` and `doNormalize` bring a result into the range of mantissas.
* `Number.add`, `Number.mul`, `Number.div`, `Number.truncate` and `Number.power` are the operations.
* `Number.toRep` is the conversion to an integer.
-/

namespace Xrpl.Basics

inductive Failure
  /-- `std::overflow_error`, with its text. -/
  | overflowError (what : String)
  /-- A loop of the source that has not ended within the number of rounds the model gives it. -/
  | diverges
deriving DecidableEq, Repr

inductive MantissaScale
  | small
  | largeLegacy
  | large
deriving DecidableEq, Repr

inductive RoundingMode
  | toNearest
  | towardsZero
  | downward
  | upward
deriving DecidableEq, Repr

def kPowerOfTen (exponent : ℕ) : ℕ := 10 ^ exponent

/-- The arguments `minMantissa`, `maxMantissa` and `cuspRoundingFixEnabled` of the functions that round: the least
mantissa is a multiple of ten and a power of it, the greatest has the same number of digits, and both fit in 64 bits. -/
structure MantissaLimits where
  log : ℕ
  cuspRoundingFixEnabled : Bool
  log_pos : 0 < log
  log_le : log ≤ 18

def MantissaLimits.min (lim : MantissaLimits) : ℕ := kPowerOfTen lim.log

def MantissaLimits.max (lim : MantissaLimits) : ℕ := lim.min * 10 - 1

def MantissaScale.getExponent : MantissaScale → ℕ
  | .small => 15
  | .largeLegacy | .large => 18

def MantissaScale.isCuspFixEnabled : MantissaScale → Bool
  | .small | .largeLegacy => false
  | .large => true

def getMantissaRange (scale : MantissaScale) : MantissaLimits where
  log := scale.getExponent
  cuspRoundingFixEnabled := scale.isCuspFixEnabled
  log_pos := by cases scale <;> decide
  log_le := by cases scale <;> decide

def kMinExponent : ℤ := -32768

def kMaxExponent : ℤ := 32768

def kMaxRep : ℕ := 9223372036854775807

/-- The unsigned integers that mantissas are computed in. -/
inductive MantissaType
  | uint64
  | uint128
deriving DecidableEq, Repr

def MantissaType.bits : MantissaType → ℕ
  | .uint64 => 64
  | .uint128 => 128

def MantissaType.wrap (T : MantissaType) (m : ℕ) : ℕ := m % 2 ^ T.bits

/-- A `Number`.  The default is the canonical zero, whose exponent is the least `int`. -/
structure Number where
  negative : Bool := false
  mantissa : ℕ := 0
  exponent : ℤ := -2147483648
deriving DecidableEq, Repr

namespace Number

def kZero : Number := {}

def isnormal (scale : MantissaScale) (x : Number) : Bool :=
  let range := getMantissaRange scale
  x == kZero ||
    (range.min ≤ x.mantissa && x.mantissa ≤ range.max && (x.mantissa ≤ kMaxRep || x.mantissa % 10 == 0) &&
      kMinExponent ≤ x.exponent && x.exponent ≤ kMaxExponent)

def neg (x : Number) : Number :=
  if x.mantissa = 0 then kZero else { x with negative := !x.negative }

def lt (l r : Number) : Bool :=
  if l.negative != r.negative then l.negative
  else if l.mantissa = 0 then 0 < r.mantissa
  else if r.mantissa = 0 then false
  else if r.exponent < l.exponent then l.negative
  else if l.exponent < r.exponent then !l.negative
  else if l.negative then r.mantissa < l.mantissa
  else l.mantissa < r.mantissa

end Number

/-- The digits that were dropped from a mantissa. -/
structure Guard where
  /-- Sixteen decimal digits, four bits each, the one dropped last on top. -/
  digits : BitVec 64 := 0
  /-- Has a non-zero digit been shifted off the end? -/
  xbit : Bool := false
  /-- The sign of the dropped digits. -/
  sbit : Bool := false
deriving DecidableEq, Repr

namespace Guard

def push (g : Guard) (d : BitVec 32) : Guard :=
  { g with
    xbit := g.xbit || (g.digits &&& 0xF) != 0
    digits := (g.digits >>> 4) ||| ((d.setWidth 64 &&& 0xF) <<< 60) }

def pop (g : Guard) : ℕ × Guard :=
  (((g.digits &&& 0xF000000000000000) >>> 60).toNat, { g with digits := g.digits <<< 4 })

/-- `doDropDigit`: the last digit of the mantissa goes to the guard.  For 128 bits there is an optimized version. -/
def doDropDigit (T : MantissaType) (g : Guard) (x : Number) : Guard × Number :=
  match T with
  | .uint64 =>
    (g.push (.ofNat 32 (x.mantissa % 10)), { x with mantissa := x.mantissa / 10, exponent := x.exponent + 1 })
  | .uint128 =>
    let (r, u) := divu10 (.ofNat 128 x.mantissa)
    (g.push r, { x with mantissa := u.toNat, exponent := x.exponent + 1 })

/-- `round`: 1 is up, -1 is down, 0 is exactly half. -/
def round (mode : RoundingMode) (g : Guard) : ℤ :=
  match mode with
  | .towardsZero => -1
  | .downward => if g.sbit ∧ (0 < g.digits ∨ g.xbit) then 1 else -1
  | .upward => if g.sbit then -1 else if 0 < g.digits ∨ g.xbit then 1 else -1
  | .toNearest =>
    if 0x5000000000000000 < g.digits then 1
    else if g.digits < 0x5000000000000000 then -1
    else if g.xbit then 1
    else 0

/-- The test with which `doRoundUp`, `doRoundDown` and `doRound` begin. -/
def changes (mode : RoundingMode) (g : Guard) (mantissa : ℕ) : Bool :=
  let r := g.round mode
  r == 1 || (r == 0 && mantissa &&& 1 == 1)

lemma doDropDigit_lt (T : MantissaType) (g : Guard) {x : Number} (h : 0 < x.mantissa) :
    (g.doDropDigit T x).2.mantissa < x.mantissa := by
  cases T with
  | uint64 => exact Nat.div_lt_self h (by decide)
  | uint128 =>
    have hs := (divu10_spec (.ofNat 128 x.mantissa)).2
    rw [BitVec.toNat_ofNat] at hs
    change (divu10 (.ofNat 128 x.mantissa)).2.toNat < x.mantissa
    omega

end Guard

lemma MantissaLimits.min_pos (lim : MantissaLimits) : 0 < lim.min := by
  rw [MantissaLimits.min, kPowerOfTen]
  positivity

lemma MantissaLimits.pos_of_cusp {lim : MantissaLimits} {m : ℕ} (h : ¬ (m < lim.max ∧ m < kMaxRep)) : 0 < m := by
  have hmin := lim.min_pos
  have hmax : lim.max = lim.min * 10 - 1 := rfl
  have hr : kMaxRep = 9223372036854775807 := rfl
  omega

/-- `bringIntoRange`: the mantissa comes back into the range after rounding. -/
def bringIntoRange (T : MantissaType) (lim : MantissaLimits) (x : Number) : Number :=
  let x := if x.mantissa < lim.min then
      { x with mantissa := T.wrap (x.mantissa * 10), exponent := x.exponent - 1 }
    else x
  if x.exponent < kMinExponent then Number.kZero else x

def finishRoundUp (T : MantissaType) (lim : MantissaLimits) (location : String) (x : Number) :
    Except Failure Number :=
  let x := bringIntoRange T lim x
  if kMaxExponent < x.exponent then throw (.overflowError location) else pure x

namespace Guard

/-- `doRoundUp`: the guard holds what is missing from the mantissa. -/
def doRoundUp (T : MantissaType) (lim : MantissaLimits) (mode : RoundingMode) (location : String) (g : Guard)
    (x : Number) : Except Failure Number :=
  if g.changes mode x.mantissa then
    if lim.cuspRoundingFixEnabled then
      if x.mantissa < lim.max ∧ x.mantissa < kMaxRep then
        finishRoundUp T lim location { x with mantissa := T.wrap (x.mantissa + 1) }
      else
        -- incrementing would need a division, so the division and the rounding come first
        let next := g.doDropDigit T x
        doRoundUp T lim mode location next.1 next.2
    else
      let x := { x with mantissa := T.wrap (x.mantissa + 1) }
      if lim.max < x.mantissa ∨ kMaxRep < x.mantissa then
        finishRoundUp T lim location { x with mantissa := x.mantissa / 10, exponent := x.exponent + 1 }
      else
        finishRoundUp T lim location x
  else
    finishRoundUp T lim location x
termination_by x.mantissa
decreasing_by
  apply doDropDigit_lt
  exact MantissaLimits.pos_of_cusp ‹_›

/-- `doRoundDown`: the guard holds what the mantissa is too large by. -/
def doRoundDown (T : MantissaType) (lim : MantissaLimits) (mode : RoundingMode) (g : Guard) (x : Number) : Number :=
  if g.changes mode x.mantissa then
    let x := { x with mantissa := T.wrap (x.mantissa + 2 ^ T.bits - 1) }
    bringIntoRange T lim <|
      if x.mantissa < lim.min then { x with mantissa := T.wrap (x.mantissa * 10), exponent := x.exponent - 1 } else x
  else
    bringIntoRange T lim x

end Guard

def scaleUp (T : MantissaType) (lim : MantissaLimits) (x : Number) : Number :=
  if x.mantissa < lim.min ∧ kMinExponent < x.exponent then
    scaleUp T lim { x with mantissa := T.wrap (x.mantissa * 10), exponent := x.exponent - 1 }
  else x
termination_by (x.exponent - kMinExponent).toNat
decreasing_by omega

def scaleDown (T : MantissaType) (lim : MantissaLimits) (g : Guard) (x : Number) : Except Failure (Guard × Number) :=
  if lim.max < x.mantissa then
    if kMaxExponent ≤ x.exponent then throw (.overflowError "Number::normalize 1")
    else
      let next := g.doDropDigit T x
      scaleDown T lim next.1 next.2
  else pure (g, x)
termination_by x.mantissa
decreasing_by
  apply Guard.doDropDigit_lt
  omega

def fitRep (T : MantissaType) (g : Guard) (x : Number) : Except Failure (Guard × Number) :=
  if kMaxRep < x.mantissa then
    if kMaxExponent ≤ x.exponent then throw (.overflowError "Number::normalize 1.5")
    else pure (g.doDropDigit T x)
  else pure (g, x)

def doNormalize (T : MantissaType) (lim : MantissaLimits) (mode : RoundingMode) (dropped : Bool) (x : Number) :
    Except Failure Number :=
  if x.mantissa = 0 then pure Number.kZero
  else do
    let (g, x) ← scaleDown T lim { xbit := dropped, sbit := x.negative } (scaleUp T lim x)
    if x.exponent < kMinExponent ∨ x.mantissa < lim.min then pure Number.kZero
    else
      let (g, x) ← fitRep T g x
      g.doRoundUp T lim mode "Number::normalize 2" x

namespace Number

variable (scale : MantissaScale) (mode : RoundingMode)

def normalize (x : Number) : Except Failure Number :=
  doNormalize .uint64 (getMantissaRange scale) mode false x

/-- `externalToInternal`: the absolute value, with care for the least `int64_t`. -/
def externalToInternal (mantissa : Int64) : ℕ :=
  if 0 ≤ mantissa then mantissa.toInt.toNat
  else if -Int64.maxValue ≤ mantissa then (-mantissa).toInt.toNat
  else MantissaType.uint64.wrap (-mantissa.toInt).toNat

def ofRep (mantissa : Int64) (exponent : Int32) : Except Failure Number :=
  normalize scale mode
    { negative := mantissa < 0, mantissa := externalToInternal mantissa, exponent := exponent.toInt }

def one : Number := { mantissa := (getMantissaRange scale).min, exponent := -(getMantissaRange scale).log }

/-! ### Arithmetic -/

def narrow (x : Number) : Number := { x with mantissa := MantissaType.uint64.wrap x.mantissa }

end Number

/-- `n` rounds of the loops of `operator+=` that bring the two exponents together. -/
def Guard.dropDigits (T : MantissaType) : ℕ → Guard → Number → Guard × Number
  | 0, g, x => (g, x)
  | n + 1, g, x =>
    let next := g.doDropDigit T x
    dropDigits T n next.1 next.2

/-- The loop of `operator+=` that takes digits back from the guard after a subtraction, for at most `fuel` rounds. -/
def Guard.takeBack (lim : MantissaLimits) : ℕ → Guard → Number → Except Failure (Guard × Number)
  | fuel, g, x =>
    if x.mantissa < lim.min ∧ MantissaType.uint128.wrap (x.mantissa * 10) ≤ kMaxRep then
      match fuel with
      | 0 => throw .diverges
      | fuel + 1 =>
        let (d, g) := g.pop
        let m := MantissaType.uint128.wrap (x.mantissa * 10)
        takeBack lim fuel g
          { x with mantissa := MantissaType.uint128.wrap (m + 2 ^ 128 - d), exponent := x.exponent - 1 }
    else pure (g, x)

namespace Number

/-- The guard and the two operands of `operator+=` once their exponents agree. -/
def align (x y : Number) : Guard × Number × Number :=
  if x.exponent < y.exponent then
    let (g, x) := Guard.dropDigits .uint128 (y.exponent - x.exponent).toNat { sbit := x.negative } x
    (g, x, y)
  else if y.exponent < x.exponent then
    let (g, y) := Guard.dropDigits .uint128 (x.exponent - y.exponent).toNat { sbit := y.negative } y
    (g, x, y)
  else ({}, x, y)

variable (scale : MantissaScale) (mode : RoundingMode)

def fitSum (lim : MantissaLimits) (g : Guard) (z : Number) : Guard × Number :=
  if lim.max < z.mantissa ∨ kMaxRep < z.mantissa then g.doDropDigit .uint128 z else (g, z)

/-- `operator+=` for operands of one sign. -/
def addMagnitudes (g : Guard) (x y : Number) : Except Failure Number :=
  let range := getMantissaRange scale
  let next := fitSum range g { x with mantissa := MantissaType.uint128.wrap (x.mantissa + y.mantissa) }
  next.1.doRoundUp .uint128 range mode "Number::addition overflow" next.2

/-- The operand with the larger mantissa, less the other mantissa. -/
def difference (x y : Number) : Number :=
  if y.mantissa < x.mantissa then { x with mantissa := x.mantissa - y.mantissa }
  else { y with mantissa := y.mantissa - x.mantissa }

/-- `operator+=` for operands of different signs. -/
def subMagnitudes (g : Guard) (x y : Number) : Except Failure Number := do
  let (g, z) ← g.takeBack (getMantissaRange scale) 40 (difference x y)
  pure (g.doRoundDown .uint128 (getMantissaRange scale) mode z)

def addAligned (g : Guard) (x y : Number) : Except Failure Number :=
  if x.negative = y.negative then addMagnitudes scale mode g x y else subMagnitudes scale mode g x y

def add (x y : Number) : Except Failure Number :=
  if y = kZero then pure x
  else if x = kZero then pure y
  else if x = y.neg then pure kZero
  else do
    let operands := align x y
    let z ← addAligned scale mode operands.1 operands.2.1 operands.2.2
    normalize scale mode z.narrow

def sub (x y : Number) : Except Failure Number := add scale mode x y.neg

def shrink (lim : MantissaLimits) (g : Guard) (z : Number) : Guard × Number :=
  if lim.max < z.mantissa ∨ kMaxRep < z.mantissa then
    let next := g.doDropDigit .uint128 z
    shrink lim next.1 next.2
  else (g, z)
termination_by z.mantissa
decreasing_by
  apply Guard.doDropDigit_lt
  omega

def mul (x y : Number) : Except Failure Number :=
  if x = kZero then pure x
  else if y = kZero then pure y
  else do
    let range := getMantissaRange scale
    let negative := x.negative != y.negative
    let next := shrink range { sbit := negative }
      { negative, mantissa := MantissaType.uint128.wrap (x.mantissa * y.mantissa), exponent := x.exponent + y.exponent }
    let z ← next.1.doRoundUp .uint64 range mode
      ("Number::multiplication overflow : exponent is " ++ toString next.2.exponent) next.2.narrow
    normalize scale mode z

/-- The three stages of a division by `dm`: the quotient of the mantissas, its exponent, and whether something is left
of the numerator. -/
def divideMantissas (numerator dm : ℕ) (ze : ℤ) : ℕ × ℤ × Bool :=
  let zm := numerator / dm
  let remainder := numerator % dm
  if scale = .small ∨ remainder = 0 then (zm, ze, false)
  else
    let partialNumerator := MantissaType.uint128.wrap (remainder * kPowerOfTen 5)
    let correction := partialNumerator / dm
    let dropped := (getMantissaRange scale).cuspRoundingFixEnabled && partialNumerator % dm != 0
    if correction = 0 then (zm, ze, dropped)
    else
      let zm := MantissaType.uint128.wrap (zm * kPowerOfTen 5)
      (MantissaType.uint128.wrap (zm + correction), ze - 5, dropped)

def quotient (x y : Number) : ℕ × ℤ × Bool :=
  divideMantissas scale (MantissaType.uint128.wrap (x.mantissa * kPowerOfTen 17)) y.mantissa
    (x.exponent - y.exponent - 17)

def div (x y : Number) : Except Failure Number :=
  if y = kZero then throw (.overflowError "Number: divide by 0")
  else if x = kZero then pure x
  else do
    let (zm, ze, dropped) := quotient scale x y
    let z ← doNormalize .uint128 (getMantissaRange scale) mode dropped
      { negative := x.negative != y.negative, mantissa := zm, exponent := ze }
    pure z.narrow

def dropFraction (x : Number) : Number :=
  if x.exponent < 0 ∧ x.mantissa ≠ 0 then
    dropFraction { x with mantissa := x.mantissa / 10, exponent := x.exponent + 1 }
  else x
termination_by x.mantissa
decreasing_by omega

def truncate (x : Number) : Except Failure Number :=
  if 0 ≤ x.exponent ∨ x.mantissa = 0 then pure x
  else normalize scale mode x.dropFraction

def power (f : Number) (n : ℕ) : Except Failure Number :=
  if n = 0 then pure (one scale)
  else if n = 1 then pure f
  else do
    let r ← power f (n / 2)
    let r ← mul scale mode r r
    if n % 2 ≠ 0 then mul scale mode r f else pure r
termination_by n
decreasing_by omega

/-- `mantissa` and `exponent` without the sign: the mantissa as it is seen from outside fits in an `int64_t`. -/
def external (x : Number) : ℕ × ℤ :=
  if kMaxRep < x.mantissa then (x.mantissa / 10, x.exponent + 1) else (x.mantissa, x.exponent)

def raiseRep : ℕ → ℕ → Except Failure ℕ
  | 0, drops => pure drops
  | offset + 1, drops =>
    if kMaxRep / 10 < drops then throw (.overflowError "Number::operator rep() overflow")
    else raiseRep offset (drops * 10)

def doRound (location : String) (g : Guard) (drops : ℕ) : Except Failure ℤ := do
  let drops ←
    if g.changes mode drops then
      if kMaxRep ≤ drops then throw (.overflowError location) else pure (drops + 1)
    else pure drops
  pure (if g.sbit then -drops else drops)

def toRep (x : Number) : Except Failure ℤ :=
  let (drops, offset) := x.external
  if drops = 0 then pure 0
  else do
    let (g, z) := Guard.dropDigits .uint64 (-offset).toNat { sbit := x.negative } { mantissa := drops, exponent := offset }
    let drops ← raiseRep offset.toNat z.mantissa
    doRound mode "Number::operator rep() rounding overflow" g drops

end Number

end Xrpl.Basics
