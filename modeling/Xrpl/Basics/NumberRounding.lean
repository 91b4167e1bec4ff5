import Xrpl.Basics.NumberDirected

/-!
# Directed rounding of the operations

With the mantissa scale `large`, an operation in a directed rounding mode gives a value on the right side of the exact
one, with one exception: the sum of two negative numbers of the same exponent is rounded in the wrong direction when its
last digit is dropped and is not zero (`LosesSign`), because the guard takes its sign from the operand that is shifted,
and none is.
-/

namespace Xrpl.Basics

open Guard MantissaType

namespace Number

variable {mode : RoundingMode}

lemma changes_empty (mode : RoundingMode) (sbit : Bool) (m : ℕ) : changes mode { sbit } m = false := by
  cases mode <;> cases sbit <;> simp [changes, Guard.round]

private lemma push_zero_empty (sbit : Bool) : push { sbit } (.ofNat 32 0) = { sbit } := by
  cases sbit <;> decide

variable {lim : MantissaLimits} {x y : Number} {g : Guard} {x' : Number} {n : ℕ}
  {T : MantissaType} {location : String} {negative : Bool} {X : ℚ} {z : Number}

private lemma doRoundUp_empty (sbit : Bool) (x : Number) :
    doRoundUp T lim mode location { sbit } x = finishRoundUp T lim location x := by
  rw [doRoundUp, if_neg]
  rw [changes_empty]
  exact Bool.false_ne_true

lemma finishRoundUp_of_eq
    (h : bringIntoRange T lim y = x) (hx : x.exponent ≤ kMaxExponent) : finishRoundUp T lim location y = .ok x := by
  rw [finishRoundUp, h, if_neg (by omega)]
  rfl

lemma normalize_of_le {scale : MantissaScale} (hmin : (getMantissaRange scale).min ≤ x.mantissa)
    (hmax : x.mantissa ≤ (getMantissaRange scale).max) (hlow : kMinExponent ≤ x.exponent) :
    normalize scale mode x = (fitRep .uint64 { sbit := x.negative } x >>= fun s =>
      s.1.doRoundUp .uint64 (getMantissaRange scale) mode "Number::normalize 2" s.2) := by
  have hl := (getMantissaRange scale).max_add_one
  have hup : scaleUp .uint64 (getMantissaRange scale) x = x := by
    rw [scaleUp, if_neg (by omega)]
  have hd : scaleDown .uint64 (getMantissaRange scale) { xbit := false, sbit := x.negative } x =
      .ok ({ sbit := x.negative }, x) := by
    rw [scaleDown, if_neg (by omega)]
    rfl
  have hpos := (getMantissaRange scale).min_pos
  rw [normalize, doNormalize, if_neg (by omega), hup, hd]
  exact if_neg (by omega)

/-- A normal number is normalized to itself, unless its external view would need a greater exponent. -/
lemma normalize_of_inRange {scale : MantissaScale} (hx : x.InRange (getMantissaRange scale)) :
    Meets Failure.IsOverflow (normalize scale mode x) (· = x) := by
  have hmin := hx.min_le
  have hmax := hx.le_max
  have hl := (getMantissaRange scale).max_add_one
  have hlow := hx.minExponent_le
  have hh := hx.le_maxExponent
  rw [normalize_of_le hmin hmax hlow, fitRep]
  by_cases hr : kMaxRep < x.mantissa
  · rw [if_pos hr]
    by_cases ht : kMaxExponent ≤ x.exponent
    · rw [if_pos ht]
      exact ⟨_, rfl⟩
    -- the dropped digit is zero, and comes back
    have hz : x.mantissa % 10 = 0 := hx.rep.resolve_left (by omega)
    rw [if_neg ht, doDropDigit_eq (T := .uint64) (Normal.mantissa_lt (.inr hx)), hz, push_zero_empty]
    change Meets _ (doRoundUp _ _ _ _ { sbit := x.negative } _) _
    have hb : { x with mantissa := x.mantissa / 10 * 10, exponent := x.exponent + 1 - 1 } = x := by
      have h1 : x.mantissa / 10 * 10 = x.mantissa := by omega
      have h2 : x.exponent + 1 - 1 = x.exponent := by omega
      rw [h1, h2]
    rw [doRoundUp_empty, finishRoundUp_of_eq _ hh]
    · exact rfl
    · rw [bringIntoRange_of_lt (by dsimp only; omega), if_neg (by dsimp only; omega)]
      exact hb
  · rw [if_neg hr]
    change Meets _ (doRoundUp _ _ _ _ { sbit := x.negative } _) _
    rw [doRoundUp_empty, finishRoundUp_of_eq _ hh]
    · exact rfl
    · rw [bringIntoRange_of_le hmin, if_neg (by omega)]

def Poppable (lim : MantissaLimits) (x : Number) : Prop :=
  x.mantissa < lim.min ∧ uint128.wrap (x.mantissa * 10) ≤ kMaxRep

lemma takeBack_of_not_poppable {fuel : ℕ} {s : Guard × Number} (h : g.takeBack lim fuel x = .ok s)
    (hp : ¬ Poppable lim x) : s = (g, x) := by
  rw [Poppable] at hp
  cases fuel <;> rw [takeBack, if_neg hp] at h <;> exact (Except.ok.inj h).symm

lemma takeBack_of_poppable {fuel : ℕ} {s : Guard × Number} (h : g.takeBack lim (fuel + 1) x = .ok s)
    (hp : Poppable lim x) (hpos : 0 < x.mantissa) (hg : IsPacked 16 g.digits.toNat) :
    g.pop.2.takeBack lim fuel { x with mantissa := x.mantissa * 10 - g.pop.1, exponent := x.exponent - 1 } = .ok s := by
  rw [Poppable] at hp
  rw [takeBack, if_pos hp] at h
  dsimp only at h
  rwa [takeBack_mantissa hpos (hp.1.trans_le lim.min_le) (pop_le hg)] at h

private lemma nonzero_of_pop (h : g.pop.2.Nonzero) : g.Nonzero := by
  rw [nonzero_iff_toNat] at h ⊢
  rw [pop_digits] at h
  refine h.imp_left fun hne hz => hne ?_
  omega

/-- Digits that are taken back from an exact guard keep the difference that the number and the guard stand for. -/
lemma takeBack_value {fuel : ℕ} {f : ℚ} {s : Guard × Number}
    (h : g.takeBack lim fuel x = .ok s) (hg : g.Holds f) (hpos : 0 < x.mantissa) (hx : x.mantissa < 2 ^ 64)
    (he : g.xbit = true → ¬ Poppable lim x) :
    ∃ f', s.1.Sticky f' ∧ (x.mantissa - f) * 10 ^ x.exponent = (s.2.mantissa - f') * 10 ^ s.2.exponent ∧
      s.1.sbit = g.sbit ∧ (s.1.Nonzero → g.Nonzero) ∧ s.2.negative = x.negative ∧ 0 < s.2.mantissa ∧
      s.2.mantissa < 2 ^ 64 := by
  have hmin := lim.min_le
  induction fuel generalizing g x f with
  | zero =>
    rw [takeBack] at h
    split at h
    · cases h
    · obtain rfl := Except.ok.inj h
      exact ⟨f, hg.toSticky, rfl, rfl, id, rfl, hpos, hx⟩
  | succ fuel ih =>
    by_cases hc : Poppable lim x
    · have hxb : g.xbit = false := by
        rw [← Bool.not_eq_true]
        exact fun hb => he hb hc
      have hd := pop_le hg.isPacked
      have hlt := hc.1
      obtain ⟨f', h1, h2, h3, h4, h5, h6⟩ := ih (takeBack_of_poppable h hc hpos hg.isPacked) (hg.pop hxb)
        (by dsimp only; omega) (by dsimp only; omega) (fun hb => by simp [hxb] at hb)
      refine ⟨f', h1, ?_, h3, fun hnz => nonzero_of_pop (h4 hnz), h5, h6⟩
      rw [← h2]
      have hexp : (10 : ℚ) ^ x.exponent = 10 ^ (x.exponent - 1) * 10 := by
        rw [← ten_zpow_add_one]
        congr 1
        omega
      rw [hexp, Nat.cast_sub (by omega)]
      push_cast
      ring
    · obtain rfl := takeBack_of_not_poppable h hc
      exact ⟨f, hg.toSticky, rfl, rfl, id, rfl, hpos, hx⟩

def signed (negative : Bool) (X : ℚ) : ℚ := if negative then -X else X

/-- The result is on the side of the exact value that the mode asks for. -/
def OnSide (mode : RoundingMode) (exact result : ℚ) : Prop :=
  match mode with
  | .upward => exact ≤ result
  | .downward => result ≤ exact
  | _ => True

lemma onSide_signed_iff (hm : mode.Directed) {M : ℚ} :
    OnSide mode (signed negative X) (signed negative M) ↔ Bracket (mode.outward negative) X M := by
  rcases hm with rfl | rfl <;> cases negative <;> simp [OnSide, signed, Bracket, RoundingMode.outward]

lemma onSide_refl (mode : RoundingMode) (q : ℚ) : OnSide mode q q := by
  cases mode <;> simp [OnSide]

lemma onSide_of_sided (hm : mode.Directed) {r : Number}
    (h : Sided (mode.outward negative) negative X r) (hr : r ≠ kZero) : OnSide mode (signed negative X) r.toRat := by
  obtain ⟨hn, hb⟩ := h.resolve_left hr
  have hr' : r.toRat = signed negative r.magnitude := by rw [← hn]; rfl
  rw [hr']
  exact (onSide_signed_iff hm).2 hb

/-! ### Operands of different signs -/

private lemma Shifted.magnitude_eq (h : Shifted x n g x') :
    x.magnitude = (x'.mantissa + (x.mantissa % 10 ^ n : ℕ) / 10 ^ n) * 10 ^ x'.exponent := by
  have hs : (x.mantissa : ℚ) = 10 ^ n * (x.mantissa / 10 ^ n : ℕ) + (x.mantissa % 10 ^ n : ℕ) := by
    exact_mod_cast (Nat.div_add_mod _ (10 ^ n)).symm
  have he : (10 : ℚ) ^ (x.exponent + n) = 10 ^ x.exponent * 10 ^ n := by
    rw [← zpow_natCast, ← zpow_add₀ (by norm_num)]
  rw [magnitude, h.eq, he]
  conv_lhs => rw [hs]
  field_simp

private lemma difference_of_lt (h : x.mantissa < y.mantissa) :
    difference x y = { y with mantissa := y.mantissa - x.mantissa } ∧
      difference y x = { y with mantissa := y.mantissa - x.mantissa } := by
  rw [difference, difference, if_neg (by omega), if_pos h]
  exact ⟨rfl, rfl⟩

private lemma toRat_add_of_opposite (hs : x.negative = !y.negative) :
    x.toRat + y.toRat = signed y.negative (y.magnitude - x.magnitude) ∧
      x.toRat + y.toRat = signed x.negative (x.magnitude - y.magnitude) := by
  rw [toRat, toRat, hs, signed, signed]
  cases y.negative
  · constructor <;> simp <;> ring
  · constructor <;> simp <;> ring

/-- What the difference of two aligned operands and the guard stand for. -/
structure Differs (x y : Number) (g : Guard) (d : Number) : Prop where
  value : ∃ f, g.Holds f ∧ x.toRat + y.toRat = signed d.negative ((d.mantissa - f) * 10 ^ d.exponent) ∧
    ((∃ k : ℤ, 10 * f = k) ∨ 9 * 10 ^ 17 ≤ d.mantissa) ∧ (0 < f → kMinExponent < d.exponent)
  sbit : g.Nonzero → g.sbit = !d.negative
  exact : g.xbit = true → ¬ Poppable (getMantissaRange .large) d
  lt : d.mantissa < 10 ^ 19
  exponent_eq : d.exponent = max x.exponent y.exponent

variable (hx : x.InRange (getMantissaRange .large)) (hy : y.InRange (getMantissaRange .large))

section

include hx hy

/-- With more than sixteen digits in the guard the other operand is so much larger that no digit is taken back. -/
private lemma Shifted.not_poppable (h : Shifted x n g x') (hxb : g.xbit = true) :
    ¬ Poppable (getMantissaRange .large) { y with mantissa := y.mantissa - x'.mantissa } := by
  have hmin : (getMantissaRange .large).min = 10 ^ 18 := rfl
  have hmax : (getMantissaRange .large).max = 10 ^ 19 - 1 := rfl
  have hr : kMaxRep = 9223372036854775807 := rfl
  have hx1 := hx.le_max
  have hy1 := hy.min_le
  have hy2 := hy.le_max
  by_cases hn : n ≤ 16
  · have hp : (10 : ℚ) ^ 16 = 10 ^ n * 10 ^ (16 - n) := by
      rw [← pow_add]
      congr 1
      omega
    have hi : ((x.mantissa % 10 ^ n : ℕ) : ℚ) / 10 ^ n * 10 ^ 16 = (x.mantissa % 10 ^ n * 10 ^ (16 - n) : ℕ) := by
      rw [hp]
      push_cast
      field_simp
    simp [h.holds.xbit_of_integral hi] at hxb
  · have hp : 10 ^ 17 ≤ 10 ^ n := Nat.pow_le_pow_right (by norm_num) (by omega)
    have hx' : x'.mantissa ≤ 99 := by
      rw [h.eq]
      have hle : x.mantissa / 10 ^ n ≤ x.mantissa / 10 ^ 17 := Nat.div_le_div_left hp (by positivity)
      dsimp only
      omega
    have hw : uint128.wrap ((y.mantissa - x'.mantissa) * 10) = (y.mantissa - x'.mantissa) * 10 := by
      refine Nat.mod_eq_of_lt ?_
      change _ < 2 ^ 128
      omega
    rintro ⟨-, hle⟩
    rw [hw] at hle
    omega

private lemma Shifted.differs (h : Shifted x n g x') (hn : 0 < n)
    (hs : x.negative = !y.negative) (he : x.exponent + n = y.exponent) :
    Differs x y g { y with mantissa := y.mantissa - x'.mantissa } := by
  have hmin : (getMantissaRange .large).min = 10 ^ 18 := rfl
  have hmax : (getMantissaRange .large).max = 10 ^ 19 - 1 := rfl
  have hlt := h.lt_min hn hx
  have hle := hy.min_le
  have hle' := hy.le_max
  have hxe := hx.minExponent_le
  refine ⟨⟨_, h.holds, ?_, ?_, fun _ => ?_⟩, fun _ => ?_, h.not_poppable hx hy, ?_, ?_⟩
  · have hm := h.magnitude_eq
    have hexp : x'.exponent = y.exponent := by
      rw [h.eq]
      exact he
    rw [(toRat_add_of_opposite hs).1, hm, magnitude, hexp]
    rw [Nat.cast_sub (by omega)]
    congr 1
    ring
  · rcases Nat.lt_or_ge 1 n with hfar | hn1
    · -- the operand that is shifted by two digits or more has become small
      have hp : 10 ^ 2 ≤ 10 ^ n := Nat.pow_le_pow_right (by norm_num) hfar
      have hx' : x'.mantissa ≤ x.mantissa / 10 ^ 2 := by
        rw [h.eq]
        exact Nat.div_le_div_left hp (by positivity)
      have hx1 := hx.le_max
      right
      dsimp only
      omega
    · obtain rfl : n = 1 := by omega
      refine .inl ⟨(x.mantissa % 10 : ℕ), ?_⟩
      simp only [pow_one, Int.cast_natCast]
      ring
  · dsimp only
    omega
  · rw [h.sbit, decide_eq_true hn]
    exact hs
  · dsimp only
    omega
  · dsimp only
    omega

private lemma differs_of_same_exponent (hg : g.Holds 0)
    (hs : x.negative = !y.negative) (he : x.exponent = y.exponent) : Differs x y g (difference x y) := by
  have hemp : ¬ g.Nonzero := fun h => lt_irrefl (0 : ℚ) (hg.toSticky.nonzero_iff.1 h)
  have hxb : ¬ g.xbit = true := fun h => hemp (.inr h)
  have hmax : (getMantissaRange .large).max = 10 ^ 19 - 1 := rfl
  have hx1 := hx.le_max
  have hy1 := hy.le_max
  refine ⟨⟨0, hg, ?_, .inl ⟨0, by simp⟩, fun h => absurd h (lt_irrefl _)⟩, fun h => absurd h hemp,
    fun h => absurd h hxb, ?_, ?_⟩
  · obtain ⟨hy', hx'⟩ := toRat_add_of_opposite hs
    by_cases hlt : y.mantissa < x.mantissa
    · rw [hx', difference, if_pos hlt, magnitude, magnitude, ← he]
      rw [Nat.cast_sub hlt.le]
      congr 1
      ring
    · rw [hy', difference, if_neg hlt, magnitude, magnitude, he]
      rw [Nat.cast_sub (by omega)]
      congr 1
      ring
  · rw [difference]
    split <;> dsimp only <;> omega
  · rw [difference]
    split <;> dsimp only <;> omega

lemma align_differs (hs : x.negative ≠ y.negative) :
    Differs x y (align x y).1 (difference (align x y).2.1 (align x y).2.2) := by
  have hxn : x.negative = !y.negative := by
    cases hxn : x.negative <;> cases hyn : y.negative <;> simp_all
  have hyn : y.negative = !x.negative := by rw [hxn, Bool.not_not]
  have hxm := hx.min_le
  have hym := hy.min_le
  obtain ⟨n, ⟨hsh, ho, he⟩ | ⟨hsh, ho, he⟩⟩ := align_spec hx.lt_wide hy.lt_wide
  · rcases Nat.eq_zero_or_pos n with rfl | hn
    · have hsa : (align x y).2.1 = x := by rw [hsh.eq]; simp
      have hh := hsh.holds
      simp only [pow_zero, Nat.mod_one, Nat.cast_zero, zero_div] at hh
      rw [ho, hsa]
      exact differs_of_same_exponent hx hy hh hxn (by simpa using he)
    · have hlt := hsh.lt_min hn hx
      rw [ho, (difference_of_lt (by omega)).1]
      exact hsh.differs hx hy hn hxn he
  · rcases Nat.eq_zero_or_pos n with rfl | hn
    · have hsa : (align x y).2.2 = y := by rw [hsh.eq]; simp
      have hh := hsh.holds
      simp only [pow_zero, Nat.mod_one, Nat.cast_zero, zero_div] at hh
      rw [ho, hsa]
      exact differs_of_same_exponent hx hy hh hxn (by simpa using he.symm)
    · have hlt := hsh.lt_min hn hy
      rw [ho, (difference_of_lt (by omega)).2]
      have hd := hsh.differs hy hx hn hyn he
      refine ⟨?_, hd.sbit, hd.exact, hd.lt, hd.exponent_eq.trans (max_comm ..)⟩
      rw [add_comm]
      exact hd.value

lemma subMagnitudes_sided (hm : mode.Directed) (hs : x.negative ≠ y.negative) (hne : x ≠ y.neg) :
    ∃ negative X, x.toRat + y.toRat = signed negative X ∧
      Meets Failure.IsOverflow (subMagnitudes .large mode (align x y).1 (align x y).2.1 (align x y).2.2)
        (fun z => Sided (mode.outward negative) negative X z ∧ z.mantissa < 2 ^ 64) := by
  have hd := align_differs hx hy hs
  have hpos := difference_pos (align_mantissa_ne hx hy hs hne)
  have he := subMagnitudes_throws .large mode (align_isPacked hx.lt_wide hy.lt_wide) (align_mantissa_ne hx hy hs hne)
  obtain ⟨f, hf, hvl, -⟩ := hd.value
  refine ⟨_, _, hvl, ?_⟩
  rw [subMagnitudes] at he ⊢
  cases hr : (align x y).1.takeBack (getMantissaRange .large) 40 (difference (align x y).2.1 (align x y).2.2) with
  | error e =>
    rw [hr] at he
    exact he
  | ok s =>
    obtain ⟨f', h1, h2, h3, h4, h5, h6, h7⟩ := takeBack_value hr hf hpos (hd.lt.trans (by norm_num)) hd.exact
    refine ⟨?_, s.1.doRoundDown_lt h6 h7⟩
    rw [h2, ← h5]
    refine doRoundDown_directed hm h1 (fun hnz => ?_) h6 h7
    rw [h3, h5]
    exact hd.sbit (h4 hnz)

end

/-! ### Operands of one sign -/

/-- The sum of two negative numbers of one exponent whose last digit is dropped although it is not zero. -/
def LosesSign (x y : Number) : Prop :=
  x.negative = true ∧ y.negative = true ∧ x.exponent = y.exponent ∧ kMaxRep < x.mantissa + y.mantissa ∧
    (x.mantissa + y.mantissa) % 10 ≠ 0

instance (x y : Number) : Decidable (LosesSign x y) := inferInstanceAs (Decidable (_ ∧ _))

def total (x y : Number) : Number := { x with mantissa := uint128.wrap (x.mantissa + y.mantissa) }

/-- The total of two aligned operands of one sign, and what the guard has seen of them. -/
structure Totals (x y : Number) (g : Guard) (z : Number) : Prop where
  stands : Stands g z (x.magnitude + y.magnitude)
  min_le : (getMantissaRange .large).min ≤ z.mantissa
  le_max : z.mantissa ≤ 2 * (getMantissaRange .large).max
  negative : z.negative = x.negative
  sbit_of_ne : x.exponent ≠ y.exponent → g.sbit = x.negative
  of_eq : x.exponent = y.exponent → g.sbit = false ∧ g.Sticky 0 ∧ z.mantissa = x.mantissa + y.mantissa

private lemma total_mantissa (hx : x.mantissa < 2 ^ 64) (hy : y.mantissa < 2 ^ 64) :
    (total x y).mantissa = x.mantissa + y.mantissa := by
  refine Nat.mod_eq_of_lt ?_
  change _ < 2 ^ 128
  omega

section

include hx hy

private lemma Shifted.totals (h : Shifted x n g x') (he : x.exponent + n = y.exponent)
    (hz : z = { negative := x.negative, mantissa := x'.mantissa + y.mantissa, exponent := y.exponent }) :
    Totals x y g z := by
  have hle : x'.mantissa ≤ x.mantissa := by
    rw [h.eq]
    exact Nat.div_le_self _ _
  have hx1 := hx.le_max
  have hy1 := hy.le_max
  have hy2 := hy.min_le
  subst hz
  refine ⟨⟨_, h.holds.toSticky, ?_⟩, ?_, ?_, rfl, ?_, ?_⟩
  · have hexp : x'.exponent = y.exponent := by
      rw [h.eq]
      exact he
    rw [h.magnitude_eq, hexp, magnitude]
    push_cast
    ring
  · dsimp only
    omega
  · dsimp only
    omega
  · intro hne
    have hn : 0 < n := by
      rcases Nat.eq_zero_or_pos n with rfl | hn
      · exact absurd (by simpa using he) hne
      · exact hn
    rw [h.sbit, decide_eq_true hn, Bool.true_and]
  · intro heq
    obtain rfl : n = 0 := by omega
    have hh := h.holds.toSticky
    simp only [pow_zero, Nat.mod_one, Nat.cast_zero, zero_div] at hh
    refine ⟨by simp [h.sbit], hh, ?_⟩
    rw [h.eq]
    simp

lemma align_totals (hs : x.negative = y.negative) :
    Totals x y (align x y).1 (total (align x y).2.1 (align x y).2.2) := by
  have hx1 := Normal.mantissa_lt (.inr hx)
  have hy1 := Normal.mantissa_lt (.inr hy)
  obtain ⟨n, ⟨hsh, ho, he⟩ | ⟨hsh, ho, he⟩⟩ := align_spec hx.lt_wide hy.lt_wide
  · have hle : (align x y).2.1.mantissa ≤ x.mantissa := by
      rw [hsh.eq]
      exact Nat.div_le_self _ _
    refine hsh.totals hx hy he ?_
    have hm := total_mantissa (x := (align x y).2.1) (y := y) (by omega) hy1
    rw [ho, total] at *
    rw [← he]
    congr 1 <;> rw [hsh.eq]
  · have hle : (align x y).2.2.mantissa ≤ y.mantissa := by
      rw [hsh.eq]
      exact Nat.div_le_self _ _
    have hm := total_mantissa (x := x) (y := (align x y).2.2) hx1 (by omega)
    have ht : Totals y x (align x y).1 (total x (align x y).2.2) := by
      refine hsh.totals hy hx he ?_
      rw [total] at *
      dsimp only at hm
      rw [hm, hs, Nat.add_comm]
    rw [ho]
    refine ⟨?_, ht.min_le, ht.le_max, rfl, fun hne => ?_, fun heq => ?_⟩
    · rw [add_comm]
      exact ht.stands
    · rw [hs]
      exact ht.sbit_of_ne (Ne.symm hne)
    · obtain ⟨h1, h2, h3⟩ := ht.of_eq heq.symm
      exact ⟨h1, h2, by rw [h3, Nat.add_comm]⟩

end

/-- The guard and the sum before they are rounded. -/
structure Unrounded (x y : Number) (g : Guard) (z : Number) : Prop where
  stands : Stands g z (x.magnitude + y.magnitude)
  roundable : Roundable (getMantissaRange .large) z.mantissa
  negative : z.negative = x.negative
  sbit : ¬ LosesSign x y → g.Nonzero → g.sbit = x.negative
  losesSign : LosesSign x y → g.sbit = false ∧ g.Nonzero

lemma Totals.unrounded (h : Totals x y g z) (hs : x.negative = y.negative) :
    Unrounded x y (fitSum (getMantissaRange .large) g z).1 (fitSum (getMantissaRange .large) g z).2 := by
  have hmin : (getMantissaRange .large).min = 10 ^ 18 := rfl
  have hmax : (getMantissaRange .large).max = 10 ^ 19 - 1 := rfl
  have hr : kMaxRep = 9223372036854775807 := rfl
  have h1 := h.min_le
  have h2 := h.le_max
  have hw : z.mantissa < 2 ^ uint128.bits := by
    change _ < 2 ^ 128
    omega
  rw [fitSum]
  split
  case isTrue ha =>
    have hstd := h.stands.drop (T := .uint128) hw
    have hd := toNat_digit z.mantissa
    rw [doDropDigit_eq hw] at hstd ⊢
    refine ⟨hstd, ⟨?_, ?_, ?_⟩, h.negative, ?_, ?_⟩
    · dsimp only
      omega
    · dsimp only
      omega
    · dsimp only
      omega
    · intro hkp hnz
      by_cases heq : x.exponent = y.exponent
      · obtain ⟨hsb, hz, hsum⟩ := h.of_eq heq
        cases hxn : x.negative with
        | false => exact hsb
        | true =>
          -- the dropped digit is not zero, so this is the case in which the sign is lost
          have hp := (hz.push (d := .ofNat 32 (z.mantissa % 10)) (by omega)).nonzero_iff.1 hnz
          refine absurd ⟨hxn, hs ▸ hxn, heq, by omega, fun hm => ?_⟩ hkp
          rw [hsum, hm] at hp
          simp at hp
      · exact h.sbit_of_ne heq
    · rintro ⟨-, -, heq, -, hm⟩
      obtain ⟨hsb, hz, hsum⟩ := h.of_eq heq
      refine ⟨hsb, (hz.push (by omega)).nonzero_iff.2 ?_⟩
      rw [hd, hsum]
      positivity
  case isFalse hin =>
    refine ⟨h.stands, ⟨?_, ?_, ?_⟩, h.negative, ?_, ?_⟩
    · dsimp only
      omega
    · dsimp only
      omega
    · dsimp only
      omega
    · intro _ hnz
      by_cases heq : x.exponent = y.exponent
      · obtain ⟨-, hz, -⟩ := h.of_eq heq
        exact absurd (hz.nonzero_iff.1 hnz) (lt_irrefl 0)
      · exact h.sbit_of_ne heq
    · rintro ⟨-, -, heq, ha, -⟩
      obtain ⟨-, -, hsum⟩ := h.of_eq heq
      omega

end Number

end Xrpl.Basics
