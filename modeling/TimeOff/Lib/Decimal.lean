import Mathlib.Algebra.Order.Floor.Ring
import Mathlib.Data.Rat.Floor
import Mathlib.Tactic.Common
import Mathlib.Tactic.Positivity
import Mathlib.Tactic.Linarith
import Mathlib.Tactic.Ring
import TimeOff.Lib.Text

/-!
# Decimal arithmetic to 28 significant digits

Decimals are rationals, and an operation of the default decimal context is the
exact operation followed by `Decimal.round`: the nearest number with 28
significant digits, halves going to the even digit. `quantize` is the other
rounding a database does when it stores a number with a fixed scale: halves go
away from zero.

The second half bounds the error. Rounding moves a number by at most half of the
last place it keeps (`abs_round_sub_le`), which is less than one part in `10 ^
27` of it (`round_le`), and integers of up to 28 digits are not moved at all
(`round_intCast`). So a quotient of integers that is rounded and then floored is
wrong only if the rounding reaches the next integer, which is at least one part
of the divisor away: `floor_div` for small dividends, `floor_div_of_room` in
general, with the condition on the last place kept.
-/

namespace Decimal

/-- The significant digits of the context. -/
def precision : Nat := 28

/-- The number of decimal digits of `n`. -/
def digits (n : Nat) : Nat := (Nat.toDigits 10 n).length

/-- Powers of ten, with exponents of either sign. -/
def pow10 (e : Int) : ℚ := if 0 ≤ e then 10 ^ e.toNat else 1 / 10 ^ (-e).toNat

theorem pow10_pos (e : Int) : 0 < pow10 e := by
  simp only [pow10]
  split <;> positivity

/-- The exponent of the leading digit of `q`. -/
def adjusted (q : ℚ) : Int :=
  let e : Int := digits q.num.natAbs - digits q.den
  if pow10 e ≤ |q| then e else e - 1

/-- The nearest integer, halves to the even one. -/
def halfEven (x : ℚ) : Int :=
  let rest := x - ⌊x⌋
  if rest < 1 / 2 then ⌊x⌋
  else if 1 / 2 < rest then ⌊x⌋ + 1
  else if ⌊x⌋ % 2 = 0 then ⌊x⌋ else ⌊x⌋ + 1

/-- Round to the precision of the context. -/
def round (q : ℚ) : ℚ :=
  if q = 0 then 0
  else
    let unit := pow10 (adjusted q - (precision - 1))
    halfEven (q / unit) * unit

/-- The operations of the context. -/
def mul (a b : ℚ) : ℚ := round (a * b)

def div (a b : ℚ) : ℚ := round (a / b)

/-- Round to `scale` decimals, halves away from zero. -/
def quantize (scale : Nat) (q : ℚ) : ℚ :=
  let x := |q| * 10 ^ scale
  (if q < 0 then -1 else 1) * (⌊x + 1 / 2⌋ : ℚ) / 10 ^ scale

/-- The text of a non-negative decimal with a fixed number of decimals. -/
def fixed (scale : Nat) (q : ℚ) : String :=
  let n := ⌊q * 10 ^ scale⌋.toNat
  (n / 10 ^ scale).repr ++ "." ++ Text.pad scale (n % 10 ^ scale)

/-- The nearest integer is the floor or the one above. -/
theorem floor_le_halfEven (x : ℚ) : ⌊x⌋ ≤ halfEven x := by
  simp only [halfEven]
  split_ifs <;> omega

/-- Rounding does not change the sign of a number. -/
theorem round_nonneg {q : ℚ} (h : 0 ≤ q) : 0 ≤ round q := by
  simp only [round]
  split
  · exact le_refl 0
  · have hu := pow10_pos (adjusted q - ((precision : Int) - 1))
    have hf : 0 ≤ halfEven (q / pow10 (adjusted q - ((precision : Int) - 1))) :=
      le_trans (Int.floor_nonneg.mpr (div_nonneg h (le_of_lt hu))) (floor_le_halfEven _)
    exact mul_nonneg (by exact_mod_cast hf) (le_of_lt hu)

theorem nonneg_mul {a b : ℚ} (ha : 0 ≤ a) (hb : 0 ≤ b) : 0 ≤ mul a b :=
  round_nonneg (mul_nonneg ha hb)

theorem nonneg_div {a b : ℚ} (ha : 0 ≤ a) (hb : 0 ≤ b) : 0 ≤ div a b :=
  round_nonneg (div_nonneg ha hb)

/-- Storing does not change the sign either. -/
theorem quantize_nonneg {n : Nat} {q : ℚ} (h : 0 ≤ q) : 0 ≤ quantize n q := by
  simp only [quantize]
  rw [if_neg (not_lt.mpr h)]
  have hx : (0 : ℚ) ≤ |q| * 10 ^ n + 1 / 2 := by positivity
  have hf : (0 : ℚ) ≤ (⌊|q| * 10 ^ n + 1 / 2⌋ : ℚ) := by exact_mod_cast Int.floor_nonneg.mpr hx
  positivity

/-- What `quantize` yields has as many decimals as asked for, -/
theorem exists_quantize_eq (n : Nat) (q : ℚ) : ∃ k : Int, quantize n q = k / 10 ^ n := by
  simp only [quantize]
  split
  · refine ⟨-⌊|q| * 10 ^ n + 1 / 2⌋, ?_⟩
    push_cast
    ring
  · exact ⟨⌊|q| * 10 ^ n + 1 / 2⌋, by rw [one_mul]⟩

/-- and a number that has no more stays as it is. -/
theorem quantize_div (n : Nat) (k : Int) : quantize n ((k : ℚ) / 10 ^ n) = k / 10 ^ n := by
  have hpow : (0 : ℚ) < 10 ^ n := by positivity
  have habs : |(k : ℚ) / 10 ^ n| * 10 ^ n = ((|k| : Int) : ℚ) := by
    rw [abs_div, abs_of_pos hpow, div_mul_cancel₀ _ (ne_of_gt hpow), Int.cast_abs]
  have hfloor : ⌊((|k| : Int) : ℚ) + 1 / 2⌋ = |k| := by
    rw [Int.floor_intCast_add]
    norm_num
  simp only [quantize]
  rw [habs, hfloor]
  split
  · next hneg =>
    have hk : k < 0 := by
      rw [div_lt_iff₀ hpow, zero_mul] at hneg
      exact_mod_cast hneg
    rw [abs_of_neg hk]
    push_cast
    ring
  · next hneg =>
    have hk : 0 ≤ k := by
      rw [div_lt_iff₀ hpow, zero_mul] at hneg
      exact_mod_cast not_lt.mp hneg
    rw [abs_of_nonneg hk, one_mul]

/-- A number is stored as it is exactly if it has no more decimals than asked for. -/
theorem quantize_eq_self_iff {n : Nat} {q : ℚ} :
    quantize n q = q ↔ ∃ k : Int, q = k / 10 ^ n := by
  constructor
  · intro h
    obtain ⟨k, hk⟩ := exists_quantize_eq n q
    exact ⟨k, h.symm.trans hk⟩
  · rintro ⟨k, rfl⟩
    exact quantize_div n k

/-- A third, to 28 digits. -/
example : round (1 / 3) = 3333333333333333333333333333 / 10 ^ 28 := by decide +kernel

/-! ## The error of rounding

Rounding moves a number by at most half a unit of the last digit kept. A
quotient that is not an integer is at least one part of the divisor below the
next one, so as long as the unit is small enough, rounding does not change its
floor. -/

theorem lt_pow_digits (n : Nat) : n < 10 ^ digits n :=
  (Nat.length_toDigits_le_iff (by decide) Nat.length_toDigits_pos).mp (le_refl _)

/-- And no fewer digits than its length says. -/
theorem pow_digits_le {n : Nat} (h : 0 < n) : 10 ^ (digits n - 1) ≤ n := by
  by_contra hlt
  by_cases hone : digits n = 1
  · rw [hone] at hlt
    omega
  · have hpos : 0 < digits n := Nat.length_toDigits_pos
    have hle := (Nat.length_toDigits_le_iff (b := 10) (by decide) (by omega)).mpr (not_le.mp hlt)
    simp only [digits] at hle hpos
    omega

/-- They are the powers of the field. -/
theorem pow10_eq_zpow (e : Int) : pow10 e = (10 : ℚ) ^ e := by
  simp only [pow10]
  split
  · next h =>
    rw [← zpow_natCast, Int.toNat_of_nonneg h]
  · next h =>
    rw [← zpow_natCast, Int.toNat_of_nonneg (by omega), zpow_neg, one_div, inv_inv]

/-- A number is at least the place of its leading digit. -/
theorem pow10_adjusted_le {q : ℚ} (h : q ≠ 0) : pow10 (adjusted q) ≤ |q| := by
  simp only [adjusted]
  split
  · assumption
  · rw [pow10_eq_zpow]
    have hnum : (10 : ℚ) ^ (digits q.num.natAbs - 1 : Int) ≤ q.num.natAbs := by
      have hpos : 0 < digits q.num.natAbs := Nat.length_toDigits_pos
      have hle := pow_digits_le (Int.natAbs_pos.mpr (Rat.num_ne_zero.mpr h))
      rw [← Nat.cast_pred hpos, zpow_natCast]
      exact_mod_cast hle
    have hden : (q.den : ℚ) ≤ 10 ^ (digits q.den : Int) := by
      rw [zpow_natCast]
      exact_mod_cast le_of_lt (lt_pow_digits q.den)
    have hpos : (0 : ℚ) < q.den := by exact_mod_cast q.den_pos
    have habs : |q| = q.num.natAbs / q.den := by
      rw [Rat.abs_def, Rat.divInt_eq_div, Int.cast_natCast, Int.cast_natCast]
    have hexp : (digits q.num.natAbs - digits q.den - 1 : Int)
        = (digits q.num.natAbs - 1) - digits q.den := by
      omega
    rw [habs, hexp, zpow_sub₀ (by norm_num)]
    gcongr

/-- The nearest integer is no further than one half. -/
theorem halfEven_le (x : ℚ) : (halfEven x : ℚ) ≤ x + 1 / 2 := by
  have hfloor := Int.floor_le x
  simp only [halfEven]
  split_ifs <;> push_cast <;> linarith

theorem sub_le_halfEven (x : ℚ) : x - 1 / 2 ≤ halfEven x := by
  have hfloor := Int.lt_floor_add_one x
  simp only [halfEven]
  split_ifs <;> push_cast <;> linarith

/-- Integers are their own nearest. -/
theorem halfEven_intCast (n : Int) : halfEven n = n := by
  have hrest : (n : ℚ) - (⌊(n : ℚ)⌋ : ℚ) < 1 / 2 := by
    rw [Int.floor_intCast, sub_self]
    norm_num
  simp only [halfEven]
  rw [if_pos hrest, Int.floor_intCast]

/-- The place of the last digit that the context keeps of `q`. -/
def lastPlace (q : ℚ) : ℚ := pow10 (adjusted q - (precision - 1))

/-- There is always a last place. -/
theorem lastPlace_pos (q : ℚ) : 0 < lastPlace q := pow10_pos _

/-- The place of the last digit kept. -/
theorem unit_eq (q : ℚ) :
    pow10 (adjusted q - ((precision : Int) - 1)) = pow10 (adjusted q) / 10 ^ 27 := by
  rw [pow10_eq_zpow, pow10_eq_zpow, zpow_sub₀ (by norm_num)]
  norm_num [precision]

/-- Rounding gains less than one part in `10 ^ 27`. -/
theorem round_le {q : ℚ} (h : 0 ≤ q) : round q ≤ q * (1 + 1 / 10 ^ 27) := by
  unfold round
  split
  · next hzero =>
    rw [hzero, zero_mul]
  · next hne =>
    have hlead := pow10_adjusted_le hne
    rw [abs_of_nonneg h] at hlead
    have hpos := pow10_pos (adjusted q - ((precision : Int) - 1))
    dsimp only
    calc (halfEven (q / pow10 (adjusted q - ((precision : Int) - 1))) : ℚ)
          * pow10 (adjusted q - ((precision : Int) - 1))
        ≤ (q / pow10 (adjusted q - ((precision : Int) - 1)) + 1 / 2)
          * pow10 (adjusted q - ((precision : Int) - 1)) :=
          mul_le_mul_of_nonneg_right (halfEven_le _) (le_of_lt hpos)
      _ = q + pow10 (adjusted q) / 10 ^ 27 / 2 := by
          rw [add_mul, div_mul_cancel₀ _ (ne_of_gt hpos), unit_eq]
          ring
      _ ≤ q * (1 + 1 / 10 ^ 27) := by
          linarith

/-- Rounding moves a number by at most half a unit of its last digit. -/
theorem abs_round_sub_le (q : ℚ) : |round q - q| ≤ |q| / 10 ^ 27 / 2 := by
  unfold round
  split
  · next hzero =>
    rw [hzero]
    norm_num
  · next hne =>
    have hlead := pow10_adjusted_le hne
    have hunit := unit_eq q
    have hpos := pow10_pos (adjusted q - ((precision : Int) - 1))
    dsimp only
    generalize pow10 (adjusted q - ((precision : Int) - 1)) = unit at hunit hpos
    have hmul : q = q / unit * unit := (div_mul_cancel₀ q (ne_of_gt hpos)).symm
    have hhalf : |(halfEven (q / unit) : ℚ) - q / unit| ≤ 1 / 2 := by
      rw [abs_le]
      constructor
      · linarith [sub_le_halfEven (q / unit)]
      · linarith [halfEven_le (q / unit)]
    calc |(halfEven (q / unit) : ℚ) * unit - q|
        = |(halfEven (q / unit) : ℚ) - q / unit| * unit := by
          rw [← abs_of_pos hpos, ← abs_mul, abs_of_pos hpos, sub_mul, ← hmul]
      _ ≤ 1 / 2 * unit := mul_le_mul_of_nonneg_right hhalf (le_of_lt hpos)
      _ = pow10 (adjusted q) / 10 ^ 27 / 2 := by
          rw [hunit]
          ring
      _ ≤ |q| / 10 ^ 27 / 2 := by
          gcongr

/-- A number whose digits fit the context is not rounded. -/
theorem round_scaled {n : Int} {k : Nat} (h : |n| < 10 ^ 28) :
    round ((n : ℚ) / 10 ^ k) = (n : ℚ) / 10 ^ k := by
  unfold round
  split
  · next hzero =>
    exact hzero.symm
  · next hne =>
    have hlead := pow10_adjusted_le hne
    have hpos := pow10_pos (adjusted ((n : ℚ) / 10 ^ k) - ((precision : Int) - 1))
    dsimp only
    generalize adjusted ((n : ℚ) / 10 ^ k) = e at hlead hpos
    -- the leading digit stands at most 28 places before the last one
    have hplace : e - 27 ≤ -(k : Int) := by
      have hlt : (10 : ℚ) ^ e < 10 ^ (28 - (k : Int)) := by
        calc (10 : ℚ) ^ e = pow10 e := (pow10_eq_zpow e).symm
          _ ≤ |(n : ℚ) / 10 ^ k| := hlead
          _ = |(n : ℚ)| / 10 ^ k := by
            rw [abs_div, abs_of_pos (by positivity : (0 : ℚ) < 10 ^ k)]
          _ < 10 ^ 28 / 10 ^ k := by
            gcongr
            exact_mod_cast h
          _ = 10 ^ (28 - (k : Int)) := by
            rw [zpow_sub₀ (by norm_num), zpow_natCast]
            norm_cast
      have := (zpow_lt_zpow_iff_right₀ (by norm_num : (1 : ℚ) < 10)).mp hlt
      omega
    have hwhole : (n : ℚ) / 10 ^ k / pow10 (e - ((precision : Int) - 1))
        = ((n * 10 ^ (27 - (k : Int) - e).toNat : Int) : ℚ) := by
      have hexp : (((27 - (k : Int) - e).toNat : Nat) : Int) = 27 - (k : Int) - e :=
        Int.toNat_of_nonneg (by omega)
      rw [pow10_eq_zpow, Int.cast_mul, Int.cast_pow, Int.cast_ofNat, ← zpow_natCast _ (Int.toNat _),
        hexp, ← zpow_natCast _ k, div_div, ← zpow_add₀ (by norm_num), div_eq_mul_inv, ← zpow_neg]
      congr 2
      simp only [precision]
      omega
    rw [hwhole, halfEven_intCast, ← hwhole, div_mul_cancel₀ _ (ne_of_gt hpos)]

/-- Integers of 28 digits are not rounded. -/
theorem round_intCast {n : Int} (h : |n| < 10 ^ 28) : round (n : ℚ) = n := by
  have hround := round_scaled (k := 0) h
  rwa [pow_zero, div_one] at hround

/-- The floor of an exact quotient is the floor division. -/
theorem floor_div_eq_fdiv (p : Int) {d : Int} (hd : d ≠ 0) : ⌊(p : ℚ) / d⌋ = p.fdiv d := by
  rcases lt_or_gt_of_ne hd with hneg | hpos
  · have hnat : ((-d).toNat : Int) = -d := Int.toNat_of_nonneg (by omega)
    have hquot : (p : ℚ) / d = ((-p : Int) : ℚ) / ((-d).toNat : ℕ) := by
      rw [← Int.cast_natCast (-d).toNat, hnat, Int.cast_neg, Int.cast_neg, neg_div_neg_eq]
    rw [hquot, Rat.floor_intCast_div_natCast, hnat, ← Int.fdiv_eq_ediv_of_nonneg _ (by omega),
      Int.neg_fdiv_neg]
  · have hnat : (d.toNat : Int) = d := Int.toNat_of_nonneg (le_of_lt hpos)
    have hquot : (p : ℚ) / d = (p : ℚ) / (d.toNat : ℕ) := by
      rw [← Int.cast_natCast d.toNat, hnat]
    rw [hquot, Rat.floor_intCast_div_natCast, hnat, Int.fdiv_eq_ediv_of_nonneg _ (le_of_lt hpos)]

/-- A positive quotient of integers is at least one part of the divisor. -/
theorem one_div_le_of_pos {r d : Int} (h : 0 < (r : ℚ) / d) : 1 / |(d : ℚ)| ≤ (r : ℚ) / d := by
  have hr : r ≠ 0 := by
    rintro rfl
    simp at h
  have hd : d ≠ 0 := by
    rintro rfl
    simp at h
  have habs : (1 : ℚ) ≤ |(r : ℚ)| := by exact_mod_cast Int.one_le_abs hr
  have hpos : (0 : ℚ) < |(d : ℚ)| := abs_pos.mpr (by exact_mod_cast hd)
  calc 1 / |(d : ℚ)| ≤ |(r : ℚ)| / |(d : ℚ)| := by gcongr
    _ = (r : ℚ) / d := by rw [← abs_div, abs_of_pos h]

/-- A quotient of integers is no closer to the next integer than one part of
the divisor, and rounding it moves it by less than that. -/
theorem floor_div {p d : Int} (hd : d ≠ 0) (hp : |p| ≤ 10 ^ 27) : ⌊div p d⌋ = p.fdiv d := by
  unfold div
  rw [← floor_div_eq_fdiv p hd]
  have hdq : (d : ℚ) ≠ 0 := by exact_mod_cast hd
  have hpos : (0 : ℚ) < |(d : ℚ)| := abs_pos.mpr hdq
  have hpq : |(p : ℚ)| ≤ 10 ^ 27 := by exact_mod_cast hp
  have herr : |round ((p : ℚ) / d) - (p : ℚ) / d| < 1 / |(d : ℚ)| := by
    calc |round ((p : ℚ) / d) - (p : ℚ) / d|
        ≤ |(p : ℚ) / d| / 10 ^ 27 / 2 := abs_round_sub_le _
      _ = |(p : ℚ)| / 10 ^ 27 / 2 * (1 / |(d : ℚ)|) := by
        rw [abs_div]
        ring
      _ ≤ 1 / 2 * (1 / |(d : ℚ)|) := by
        gcongr
        linarith
      _ < 1 / |(d : ℚ)| := by
        have : 0 < 1 / |(d : ℚ)| := by positivity
        linarith
  obtain ⟨hlow, hhigh⟩ := abs_lt.mp herr
  -- the quotient is its floor and a rest over the divisor
  generalize hfloor : ⌊(p : ℚ) / d⌋ = f
  have hquot : (p : ℚ) / d = f + ((p - f * d : Int) : ℚ) / d := by
    push_cast
    field_simp
    ring
  have hrest : (0 : ℚ) ≤ ((p - f * d : Int) : ℚ) / d := by
    linarith [Int.floor_le ((p : ℚ) / d), congrArg (Int.cast (R := ℚ)) hfloor]
  have hsum : ((d - (p - f * d) : Int) : ℚ) / d = 1 - ((p - f * d : Int) : ℚ) / d := by
    rw [Int.cast_sub d, sub_div, div_self hdq]
  have hnext : (0 : ℚ) < ((d - (p - f * d) : Int) : ℚ) / d := by
    have := Int.lt_floor_add_one ((p : ℚ) / d)
    rw [hfloor] at this
    linarith
  by_cases hzero : p - f * d = 0
  · -- the quotient is whole, and its digits are among those of `p`
    have hwhole : (p : ℚ) / d = f := by
      rw [hquot, hzero, Int.cast_zero, zero_div, add_zero]
    have hf : |f| < 10 ^ 28 := by
      have hfp : |f| * 1 ≤ |f| * |d| :=
        mul_le_mul_of_nonneg_left (Int.one_le_abs hd) (abs_nonneg f)
      rw [← abs_mul, ← sub_eq_zero.mp hzero] at hfp
      omega
    rw [hwhole, round_intCast hf, Int.floor_intCast]
  · have hrest' : (0 : ℚ) < ((p - f * d : Int) : ℚ) / d :=
      lt_of_le_of_ne hrest (div_ne_zero (by exact_mod_cast hzero) hdq).symm
    have hover := one_div_le_of_pos hrest'
    have hunder := one_div_le_of_pos hnext
    refine Int.floor_eq_iff.mpr ⟨?_, ?_⟩
    · linarith
    · linarith

/-- The last place kept of a number below `10 ^ 28` divides every integer. -/
theorem exists_lastPlace_eq {q : ℚ} (hq : q ≠ 0) (h : |q| < 10 ^ 28) :
    ∃ k : Nat, lastPlace q = 1 / 10 ^ k := by
  have hlead := pow10_adjusted_le hq
  unfold lastPlace
  generalize adjusted q = e at hlead
  have hlt : (10 : ℚ) ^ e < 10 ^ (28 : Int) := by
    calc (10 : ℚ) ^ e = pow10 e := (pow10_eq_zpow e).symm
      _ ≤ |q| := hlead
      _ < 10 ^ (28 : Int) := by exact_mod_cast h
  have he : e < 28 := (zpow_lt_zpow_iff_right₀ (by norm_num : (1 : ℚ) < 10)).mp hlt
  refine ⟨(27 - e).toNat, ?_⟩
  have hexp : (((27 - e).toNat : Nat) : Int) = 27 - e := Int.toNat_of_nonneg (by omega)
  rw [pow10_eq_zpow, one_div, ← zpow_natCast, hexp, ← zpow_neg]
  congr 1
  simp only [precision]
  omega

/-- The division of up to 28 digits does not reach the next integer when half of
the last place kept is less than what is missing to it. -/
theorem floor_div_of_room {p d : Int} (hd : 0 < d) (hp : |p| < 10 ^ 28)
    (hroom : lastPlace ((p : ℚ) / d) * d < 2 * (d - p % d : Int)) : ⌊div p d⌋ = p / d := by
  have hdq : (0 : ℚ) < d := by exact_mod_cast hd
  by_cases hzero : p = 0
  · rw [hzero, Int.zero_ediv, div, Int.cast_zero, zero_div, round, if_pos rfl, Int.floor_zero]
  have hq : (p : ℚ) / d ≠ 0 := div_ne_zero (by exact_mod_cast hzero) (ne_of_gt hdq)
  have hsize : |(p : ℚ) / d| < 10 ^ 28 := by
    rw [abs_div, abs_of_pos hdq]
    have hone : (1 : ℚ) ≤ d := by exact_mod_cast hd
    exact lt_of_le_of_lt (div_le_self (abs_nonneg _) hone) (by exact_mod_cast hp)
  -- the quotient is an integer and a rest below one
  have hquot : (p : ℚ) / d = (p / d : Int) + (p % d : Int) / d := by
    have hsplit : (p : ℚ) = d * (p / d : Int) + (p % d : Int) := by
      exact_mod_cast (Int.mul_ediv_add_emod p d).symm
    rw [div_eq_iff (ne_of_gt hdq), add_mul, div_mul_cancel₀ _ (ne_of_gt hdq)]
    linarith
  have hrest : (0 : ℚ) ≤ (p % d : Int) / d :=
    div_nonneg (by exact_mod_cast Int.emod_nonneg p (ne_of_gt hd)) (le_of_lt hdq)
  obtain ⟨k, hk⟩ := exists_lastPlace_eq hq hsize
  have hround : div p d = halfEven ((p : ℚ) / d / lastPlace ((p : ℚ) / d))
      * lastPlace ((p : ℚ) / d) := if_neg hq
  have hpos := lastPlace_pos ((p : ℚ) / d)
  rw [hround]
  generalize lastPlace ((p : ℚ) / d) = place at hroom hk hpos
  have hmul : (p : ℚ) / d / place * place = (p : ℚ) / d := div_mul_cancel₀ _ (ne_of_gt hpos)
  refine Int.floor_eq_iff.mpr ⟨?_, ?_⟩
  · -- the integer below is a multiple of the last place
    have hwhole : ((p / d * 10 ^ k : Int) : ℚ) * place = (p / d : Int) := by
      rw [hk]
      push_cast
      field_simp
    have hfloor : (p / d * 10 ^ k : Int) ≤ halfEven ((p : ℚ) / d / place) := by
      refine le_trans (Int.le_floor.mpr ?_) (floor_le_halfEven _)
      rw [le_div_iff₀ hpos, hwhole]
      linarith
    calc ((p / d : Int) : ℚ) = ((p / d * 10 ^ k : Int) : ℚ) * place := hwhole.symm
      _ ≤ halfEven ((p : ℚ) / d / place) * place := by
        gcongr
  · -- rounding moves up by half the last place at most, and the rest has more room than that
    have hgap : place / 2 < ((d - p % d : Int) : ℚ) / d := by
      rw [lt_div_iff₀ hdq]
      linarith
    have hnext : ((d - p % d : Int) : ℚ) / d = 1 - (p % d : Int) / d := by
      rw [Int.cast_sub, sub_div, div_self (ne_of_gt hdq)]
    calc (halfEven ((p : ℚ) / d / place) : ℚ) * place
        ≤ ((p : ℚ) / d / place + 1 / 2) * place :=
          mul_le_mul_of_nonneg_right (halfEven_le _) (le_of_lt hpos)
      _ = (p : ℚ) / d + place / 2 := by
          rw [add_mul, hmul]
          ring
      _ < (p / d : Int) + 1 := by
          linarith

/-- Up to `10 ^ 27` there is always room. -/
theorem room_of_le {p d : Int} (hd : 0 < d) (hp : |p| ≤ 10 ^ 27) :
    lastPlace ((p : ℚ) / d) * d < 2 * (d - p % d : Int) := by
  have hdq : (0 : ℚ) < d := by exact_mod_cast hd
  have hleft : (1 : ℚ) ≤ (d - p % d : Int) := by
    exact_mod_cast Int.sub_pos.mpr (Int.emod_lt_of_pos p hd)
  by_cases hzero : p = 0
  · have hplace : lastPlace 0 = 1 / 10 ^ 28 := by decide +kernel
    rw [hzero, Int.cast_zero, zero_div, hplace, Int.zero_emod, Int.sub_zero]
    linarith
  have hlead := pow10_adjusted_le (div_ne_zero (Int.cast_ne_zero.mpr hzero) (ne_of_gt hdq))
  have hplace : lastPlace ((p : ℚ) / d) * d ≤ 1 := by
    calc lastPlace ((p : ℚ) / d) * d = pow10 (adjusted ((p : ℚ) / d)) / 10 ^ 27 * d := by
          rw [lastPlace, unit_eq]
      _ ≤ |(p : ℚ) / d| / 10 ^ 27 * d := by gcongr
      _ = |(p : ℚ)| / 10 ^ 27 := by
          rw [abs_div, abs_of_pos hdq]
          field_simp
      _ ≤ 1 := by
          rw [div_le_one (by norm_num)]
          exact_mod_cast hp
  linarith

end Decimal
