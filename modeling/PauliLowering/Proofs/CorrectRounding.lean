import Mathlib.Algebra.Order.Field.Power
import Mathlib.Data.Rat.Floor
import Mathlib.Order.Monotone.Basic
import Mathlib.Tactic.Linarith
import Mathlib.Tactic.Positivity
import PauliLowering.Number

/-!
Rounding gives the nearest number, and of two equally near ones the one with the even significand.

`IsRounding` says this without an algorithm, by comparison with all other numbers. Codes list the
magnitudes in ascending order (`codeMagnitude_strictMono`), so there is one rounding only
(`IsRounding.unique`). The numbers are multiples of the unit at which a significand is rounded, or
lie below the binade of it (`magnitude_grid`), so the nearest multiple is the nearest number
(`isRounding_nearest`). The shortcuts for far decimals agree with that (`isRounding_ofDecimal`), so
a decimal with a given rounding is rounded to it (`IsRounding.ofDecimal_eq`).
-/

namespace PauliLowering.Binary64

/-! ## Logarithms -/

theorem zpow_mul_of_add {b : Rat} (nonzero : b ≠ 0) {k l m : Int} (sum : k + l = m) :
    b ^ k * b ^ l = b ^ m := by
  rw [← zpow_add₀ nonzero, sum]

/-- The logarithms of numerator and denominator give that of the quotient up to one. -/
theorem log2_quotient {n d : Nat} (hn : n ≠ 0) (hd : d ≠ 0) :
    (2 : Rat) ^ ((n.log2 : Int) - d.log2 - 1) ≤ n / d ∧
      (n / d : Rat) < 2 ^ ((n.log2 : Int) - d.log2 + 1) := by
  have hden : (0 : Rat) < d := by exact_mod_cast Nat.pos_of_ne_zero hd
  have hbelow : ∀ m : Nat, m ≠ 0 → (2 : Rat) ^ (m.log2 : Int) ≤ m := by
    intro m hm
    rw [zpow_natCast]
    exact_mod_cast Nat.log2_self_le hm
  have habove : ∀ m : Nat, (m : Rat) < 2 ^ (m.log2 + 1 : Int) := by
    intro m
    exact_mod_cast Nat.lt_log2_self
  constructor
  · rw [le_div_iff₀ hden]
    calc (2 : Rat) ^ ((n.log2 : Int) - d.log2 - 1) * d
        ≤ 2 ^ ((n.log2 : Int) - d.log2 - 1) * 2 ^ (d.log2 + 1 : Int) := by
          gcongr
          exact (habove d).le
      _ = 2 ^ (n.log2 : Int) := zpow_mul_of_add (by norm_num) (by omega)
      _ ≤ n := hbelow n hn
  · rw [div_lt_iff₀ hden]
    calc (n : Rat) < 2 ^ (n.log2 + 1 : Int) := habove n
      _ = 2 ^ ((n.log2 : Int) - d.log2 + 1) * 2 ^ (d.log2 : Int) :=
          (zpow_mul_of_add (by norm_num) (by omega)).symm
      _ ≤ 2 ^ ((n.log2 : Int) - d.log2 + 1) * d := by
          gcongr
          exact hbelow d hd

theorem floorLog2_spec {x : Rat} (pos : 0 < x) :
    2 ^ floorLog2 x ≤ x ∧ x < 2 ^ (floorLog2 x + 1) := by
  have hnum : 0 < x.num := Rat.num_pos.mpr pos
  have hquotient : (x.num.natAbs / x.den : Rat) = x := by
    rw [← Int.cast_natCast, Int.natAbs_of_nonneg hnum.le, Rat.num_div_den]
  obtain ⟨hlower, hupper⟩ := log2_quotient (Int.natAbs_ne_zero.mpr hnum.ne') x.den_nz
  rw [hquotient] at hlower hupper
  simp only [floorLog2]
  split
  · next hle => exact ⟨hle, hupper⟩
  · next hgt => exact ⟨hlower, by simpa using hgt⟩

/-! ## Magnitudes in the order of their codes -/

/-- The place value of the last bit of a significand, counted from the lowest of the format. -/
def unit (k : Nat) : Rat := 2 ^ ((k : Int) - 1074)

theorem unit_pos (k : Nat) : 0 < unit k := by
  unfold unit
  positivity

theorem unit_add (k j : Nat) : unit (k + j) = 2 ^ j * unit k := by
  unfold unit
  rw [← zpow_natCast]
  exact (zpow_mul_of_add (by norm_num) (by omega)).symm

def codeMagnitude (code : Nat) : Rat :=
  if code < fractionCount then code * unit 0
  else (fractionCount + code % fractionCount : Nat) * unit (code / fractionCount - 1)

theorem magnitude_eq (v : Binary64) : v.magnitude = codeMagnitude v.code := by
  unfold magnitude significand exponent codeMagnitude
  split
  · next hsmall =>
    have hfield : max (v.code / fractionCount) 1 = 1 := by rw [Nat.div_eq_of_lt hsmall]; rfl
    rw [hfield, unit]
    rfl
  · next hnormal =>
    have hquotient : 1 ≤ v.code / fractionCount :=
      (Nat.one_le_div_iff (by decide)).mpr (Nat.le_of_not_lt hnormal)
    rw [Nat.max_eq_left hquotient, unit]
    congr 2
    omega

/-- A significand may reach the next power of two, where it counts for the next place. -/
theorem codeMagnitude_grid {k m : Nat} (high : m ≤ 2 ^ 53) (low : k = 0 ∨ 2 ^ 52 ≤ m) :
    codeMagnitude (k * fractionCount + m) = m * unit k := by
  have hcount : fractionCount = 2 ^ 52 := rfl
  rcases Nat.lt_or_ge m fractionCount with hsmall | hlarge
  · obtain rfl : k = 0 := by omega
    rw [Nat.zero_mul, Nat.zero_add, codeMagnitude, if_pos hsmall]
  · rw [codeMagnitude, if_neg (by omega)]
    obtain ⟨f, rfl⟩ : ∃ f, m = fractionCount + f := ⟨m - fractionCount, by omega⟩
    have hsplit : k * fractionCount + (fractionCount + f) = f + fractionCount * (k + 1) := by ring
    rw [hsplit, Nat.add_mul_mod_self_left, Nat.add_mul_div_left _ _ (by decide)]
    rcases Nat.lt_or_ge f fractionCount with hrest | hfull
    · rw [Nat.mod_eq_of_lt hrest, Nat.div_eq_of_lt hrest, Nat.zero_add, Nat.add_sub_cancel]
    · obtain rfl : f = fractionCount := by omega
      rw [Nat.mod_self, Nat.div_self (by decide), Nat.add_zero]
      have hplace : 1 + (k + 1) - 1 = k + 1 := by omega
      rw [hplace, unit_add]
      push_cast
      ring

theorem exists_grid (code : Nat) : ∃ k m, code = k * fractionCount + m ∧ m < 2 ^ 53 ∧
    (k = 0 ∨ 2 ^ 52 ≤ m) := by
  have hcount : fractionCount = 2 ^ 52 := rfl
  rcases Nat.lt_or_ge code fractionCount with hsmall | hlarge
  · exact ⟨0, code, by omega, by omega, .inl rfl⟩
  · have hquotient : 1 ≤ code / fractionCount := (Nat.one_le_div_iff (by decide)).mpr hlarge
    have hrest : code % fractionCount < fractionCount := Nat.mod_lt _ (by decide)
    have hdivision := Nat.div_add_mod code fractionCount
    obtain ⟨k, hk⟩ : ∃ k, code / fractionCount = k + 1 := ⟨code / fractionCount - 1, by omega⟩
    rw [hk] at hdivision
    refine ⟨k, fractionCount + code % fractionCount, ?_, by omega, .inr (by omega)⟩
    calc code = fractionCount * (k + 1) + code % fractionCount := hdivision.symm
      _ = k * fractionCount + (fractionCount + code % fractionCount) := by ring

theorem codeMagnitude_strictMono : StrictMono codeMagnitude := by
  refine strictMono_nat_of_lt_succ fun code => ?_
  obtain ⟨k, m, rfl, hhigh, hlow⟩ := exists_grid code
  rw [codeMagnitude_grid hhigh.le hlow, Nat.add_assoc,
    codeMagnitude_grid (by omega) (hlow.imp_right fun h => by omega)]
  push_cast
  linarith [unit_pos k, add_one_mul (m : Rat) (unit k)]

theorem magnitude_lt_magnitude {v w : Binary64} : v.magnitude < w.magnitude ↔ v.code < w.code := by
  rw [magnitude_eq, magnitude_eq, codeMagnitude_strictMono.lt_iff_lt]

theorem magnitude_le_magnitude {v w : Binary64} : v.magnitude ≤ w.magnitude ↔ v.code ≤ w.code := by
  rw [magnitude_eq, magnitude_eq, codeMagnitude_strictMono.le_iff_le]

theorem magnitude_inj {v w : Binary64} : v.magnitude = w.magnitude ↔ v.code = w.code := by
  rw [magnitude_eq, magnitude_eq, codeMagnitude_strictMono.injective.eq_iff]

/-- A number is a multiple of a unit, or lies below all significands with a hidden bit at that unit.
-/
theorem magnitude_grid (w : Binary64) (k : Nat) :
    (∃ n : Nat, w.magnitude = n * unit k) ∨ (k ≠ 0 ∧ w.magnitude < 2 ^ 52 * unit k) := by
  obtain ⟨l, m, hcode, hhigh, hlow⟩ := exists_grid w.code
  rw [magnitude_eq, hcode, codeMagnitude_grid hhigh.le hlow]
  rcases Nat.lt_or_ge l k with hbelow | habove
  · obtain ⟨j, rfl⟩ : ∃ j, k = l + 1 + j := ⟨k - l - 1, by omega⟩
    refine .inr ⟨by omega, ?_⟩
    have hm : (m : Rat) < 2 ^ 53 := by exact_mod_cast hhigh
    have hj : (1 : Rat) ≤ 2 ^ j := one_le_pow₀ (by norm_num)
    have hunit := unit_pos l
    calc (m : Rat) * unit l < 2 ^ 53 * unit l := by gcongr
      _ ≤ 2 ^ 53 * (2 ^ j * unit l) := by
          gcongr
          exact le_mul_of_one_le_left hunit.le hj
      _ = 2 ^ 52 * unit (l + 1 + j) := by
          rw [unit_add, unit_add]
          ring
  · obtain ⟨j, rfl⟩ : ∃ j, l = k + j := ⟨l - k, by omega⟩
    refine .inl ⟨m * 2 ^ j, ?_⟩
    rw [unit_add]
    push_cast
    ring

theorem significand_mod_two (v : Binary64) : v.significand % 2 = v.code % 2 := by
  unfold significand fractionCount
  split <;> omega

theorem code_le_of_number {v : Binary64} (number : v.isNaN = false) : v.code ≤ infinityCode := by
  simpa [isNaN] using number

theorem magnitude_infinity (negative : Bool) :
    (infinity negative).magnitude = 2 ^ (1024 : Int) := by
  calc (infinity negative).magnitude = codeMagnitude (2045 * fractionCount + 2 ^ 53) :=
        magnitude_eq _
    _ = (2 ^ 53 : Nat) * unit 2045 := codeMagnitude_grid le_rfl (.inr (by decide))
    _ = 2 ^ (53 : Int) * 2 ^ (971 : Int) := by norm_num [unit]
    _ = 2 ^ (1024 : Int) := zpow_mul_of_add (by norm_num) (by norm_num)

/-! ## Roundings -/

/-- The number `v` is nearest to `x` in magnitude, and if another one is as near, its significand is
even. Infinity stands for the power of two after all finite magnitudes. -/
structure IsRounding (x : Rat) (v : Binary64) : Prop where
  number : v.isNaN = false
  nearest : ∀ w : Binary64, w.isNaN = false → |v.magnitude - x| ≤ |w.magnitude - x|
  even : ∀ w : Binary64, w.isNaN = false → w.code ≠ v.code →
    |v.magnitude - x| = |w.magnitude - x| → v.significand % 2 = 0

/-- Two roundings would be neighbours with even significands. -/
theorem IsRounding.not_code_lt {x : Rat} {v w : Binary64} (hv : IsRounding x v)
    (hw : IsRounding x w) : ¬ v.code < w.code := by
  intro hlt
  have hdistance : |v.magnitude - x| = |w.magnitude - x| :=
    le_antisymm (hv.nearest w hw.number) (hw.nearest v hv.number)
  have hveven := hv.even w hw.number hlt.ne' hdistance
  have hweven := hw.even v hv.number hlt.ne hdistance.symm
  rw [significand_mod_two] at hveven hweven
  -- The number after `v` comes before `w`, so it is nearer to the middle between them.
  let u : Binary64 := ⟨false, v.code + 1, Nat.lt_of_le_of_lt hlt w.code_lt⟩
  have hu : u.isNaN = false := by
    have hcode := code_le_of_number hw.number
    simp only [isNaN, u, decide_eq_false_iff_not]
    omega
  have hbelow : v.magnitude < u.magnitude := magnitude_lt_magnitude.mpr (Nat.lt_succ_self _)
  have habove : u.magnitude < w.magnitude := magnitude_lt_magnitude.mpr (by simp only [u]; omega)
  have hmiddle : v.magnitude - x = -(w.magnitude - x) :=
    (abs_eq_abs.mp hdistance).resolve_left (by linarith)
  have hnearer : |u.magnitude - x| < |v.magnitude - x| := by
    have hhalf : |v.magnitude - x| = x - v.magnitude := by
      rw [abs_sub_comm, abs_of_nonneg (by linarith)]
    rw [hhalf, abs_lt]
    constructor <;> linarith
  exact absurd (hv.nearest u hu) (not_le.mpr hnearer)

theorem IsRounding.unique {x : Rat} {v w : Binary64} (hv : IsRounding x v) (hw : IsRounding x w)
    (sign : v.negative = w.negative) : v = w := by
  have hcode : v.code = w.code :=
    Nat.le_antisymm (Nat.le_of_not_lt (hw.not_code_lt hv)) (Nat.le_of_not_lt (hv.not_code_lt hw))
  cases v
  cases w
  cases sign
  cases hcode
  rfl

/-- A number of the format is its own rounding. -/
theorem IsRounding.self {v : Binary64} (number : v.isNaN = false) : IsRounding v.magnitude v := by
  refine ⟨number, fun w _ => ?_, fun w _ hother htie => ?_⟩
  · rw [sub_self, abs_zero]
    exact abs_nonneg _
  · rw [sub_self, abs_zero] at htie
    exact absurd (magnitude_inj.mp (sub_eq_zero.mp (abs_eq_zero.mp htie.symm))) hother

/-! ## Rounding to a whole number -/

/-- The whole number is at most one half away, and it is even if it is that far away. -/
theorem roundHalfEven_spec {y : Rat} (nonneg : 0 ≤ y) : |(roundHalfEven y : Rat) - y| ≤ 1 / 2 ∧
    (|(roundHalfEven y : Rat) - y| = 1 / 2 → roundHalfEven y % 2 = 0) := by
  obtain ⟨k, hk⟩ : ∃ k : Nat, y.floor = k :=
    ⟨y.floor.toNat, (Int.toNat_of_nonneg (Rat.le_floor_iff.mpr (by simpa using nonneg))).symm⟩
  have hlow := Rat.floor_le y
  have hhigh := Rat.lt_floor_add_one y
  rw [hk] at hlow hhigh
  push_cast at hlow hhigh
  have heven : ((k : Int) % 2 == 0) = decide (k % 2 = 0) := by
    rw [Bool.eq_iff_iff, beq_iff_eq, decide_eq_true_iff]
    omega
  simp only [roundHalfEven, hk, heven, Int.toNat_natCast, Int.cast_natCast]
  split
  · next hdown =>
    simp only [Bool.or_eq_true, decide_eq_true_eq, Bool.and_eq_true, beq_iff_eq] at hdown
    have hdistance : |(k : Rat) - y| = y - k := by rw [abs_sub_comm, abs_of_nonneg (by linarith)]
    rw [hdistance]
    rcases hdown with hlt | ⟨heq, hparity⟩
    · exact ⟨hlt.le, fun heq => absurd heq hlt.ne⟩
    · exact ⟨heq.le, fun _ => hparity⟩
  · next hup =>
    simp only [Bool.or_eq_true, decide_eq_true_eq, Bool.and_eq_true, beq_iff_eq, not_or, not_and]
      at hup
    have hdistance : |((k + 1 : Nat) : Rat) - y| = 1 - (y - k) := by
      push_cast
      rw [abs_of_nonneg (by linarith)]
      ring
    rw [hdistance]
    refine ⟨by linarith, fun heq => ?_⟩
    have hparity := hup.2 (by linarith)
    omega

/-- Any other whole number is at least one half away. -/
theorem half_le_distance {y : Rat} (nonneg : 0 ≤ y) {n : Nat} (other : n ≠ roundHalfEven y) :
    1 / 2 ≤ |(n : Rat) - y| := by
  have hapart : (1 : Rat) ≤ |(n : Rat) - roundHalfEven y| := by
    have hint : (1 : Int) ≤ |(n : Int) - roundHalfEven y| := Int.one_le_abs (by omega)
    exact_mod_cast hint
  have htriangle := abs_sub_le (n : Rat) y (roundHalfEven y)
  have hspec := (roundHalfEven_spec nonneg).1
  rw [abs_sub_comm] at hspec
  linarith

theorem roundHalfEven_nearest {y : Rat} (nonneg : 0 ≤ y) (n : Nat) :
    |(roundHalfEven y : Rat) - y| ≤ |(n : Rat) - y| := by
  by_cases hn : n = roundHalfEven y
  · rw [hn]
  · exact (roundHalfEven_spec nonneg).1.trans (half_le_distance nonneg hn)

theorem roundHalfEven_even {y : Rat} (nonneg : 0 ≤ y) {n : Nat} (other : n ≠ roundHalfEven y)
    (tie : |(roundHalfEven y : Rat) - y| = |(n : Rat) - y|) : roundHalfEven y % 2 = 0 := by
  obtain ⟨hhalf, heven⟩ := roundHalfEven_spec nonneg
  exact heven (le_antisymm hhalf (tie ▸ half_le_distance nonneg other))

theorem roundHalfEven_le {y : Rat} (nonneg : 0 ≤ y) {n : Nat} (h : y ≤ n) :
    roundHalfEven y ≤ n := by
  have hnearest := roundHalfEven_nearest nonneg n
  rw [abs_of_nonneg (sub_nonneg.mpr h)] at hnearest
  have hle : (roundHalfEven y : Rat) ≤ n := by linarith [le_abs_self ((roundHalfEven y : Rat) - y)]
  exact_mod_cast hle

theorem le_roundHalfEven {y : Rat} (nonneg : 0 ≤ y) {n : Nat} (h : n ≤ y) :
    n ≤ roundHalfEven y := by
  have hnearest := roundHalfEven_nearest nonneg n
  rw [abs_sub_comm (n : Rat), abs_of_nonneg (sub_nonneg.mpr h)] at hnearest
  have hle : (n : Rat) ≤ roundHalfEven y := by linarith [neg_le_abs ((roundHalfEven y : Rat) - y)]
  exact_mod_cast hle

/-! ## Rounding to the format -/

theorem two_pow_mul_unit (a k : Nat) : 2 ^ a * unit k = 2 ^ ((a : Int) + k - 1074) := by
  rw [unit, ← zpow_natCast]
  exact zpow_mul_of_add (by norm_num) (by omega)

/-- A positive number is rounded at a place where it has 53 bits, or at the lowest one. -/
theorem exists_place {x : Rat} (pos : 0 < x) : ∃ k : Nat,
    nearestCode x = min infinityCode (k * fractionCount + roundHalfEven (x / unit k)) ∧
      x < 2 ^ 53 * unit k ∧ (k = 0 ∨ 2 ^ 52 * unit k ≤ x) := by
  obtain ⟨hlow, hhigh⟩ := floorLog2_spec pos
  obtain ⟨k, hk⟩ : ∃ k : Nat, (k : Int) = max (floorLog2 x - 52) (-1074) + 1074 :=
    ⟨(max (floorLog2 x - 52) (-1074) + 1074).toNat, Int.toNat_of_nonneg (by omega)⟩
  refine ⟨k, ?_, ?_, ?_⟩
  · simp only [nearestCode, pos.ne', if_false]
    rw [← hk, Int.toNat_natCast, unit]
    congr 5
    omega
  · rw [two_pow_mul_unit]
    exact hhigh.trans_le (zpow_le_zpow_right₀ (by norm_num) (by push_cast; omega))
  · by_cases hzero : k = 0
    · exact .inl hzero
    · rw [two_pow_mul_unit]
      refine .inr (le_trans (zpow_le_zpow_right₀ (by norm_num) ?_) hlow)
      push_cast
      omega

theorem distance_scaled {u : Rat} (pos : 0 < u) (a x : Rat) : |a * u - x| = |a - x / u| * u := by
  have hscale : a * u - x = (a - x / u) * u := by
    rw [sub_mul, div_mul_cancel₀ x pos.ne']
  rw [hscale, abs_mul, abs_of_pos pos]

/-- The nearest multiple of the unit is the nearest number: those that are no multiples lie below
the least multiple with a hidden bit, which is itself below `x`. -/
theorem isRounding_of_grid {x : Rat} {k : Nat} (nonneg : 0 ≤ x) (low : k = 0 ∨ 2 ^ 52 * unit k ≤ x)
    {v : Binary64} (number : v.isNaN = false)
    (rounded : v.magnitude = roundHalfEven (x / unit k) * unit k)
    (parity : v.significand % 2 = roundHalfEven (x / unit k) % 2) : IsRounding x v := by
  have hunit := unit_pos k
  have hscaled : 0 ≤ x / unit k := div_nonneg nonneg hunit.le
  have hmultiple : ∀ n : Nat, |v.magnitude - x| ≤ |n * unit k - x| := by
    intro n
    rw [rounded, distance_scaled hunit, distance_scaled hunit]
    exact mul_le_mul_of_nonneg_right (roundHalfEven_nearest hscaled n) hunit.le
  have hbelow : ∀ w : Binary64, k ≠ 0 → w.magnitude < 2 ^ 52 * unit k →
      |v.magnitude - x| < |w.magnitude - x| := by
    intro w hk hw
    have hleast := low.resolve_left hk
    calc |v.magnitude - x| ≤ |2 ^ 52 * unit k - x| := by exact_mod_cast hmultiple (2 ^ 52)
      _ = x - 2 ^ 52 * unit k := by rw [abs_sub_comm, abs_of_nonneg (sub_nonneg.mpr hleast)]
      _ < x - w.magnitude := by linarith
      _ ≤ |w.magnitude - x| := by rw [abs_sub_comm]; exact le_abs_self _
  refine ⟨number, fun w _ => ?_, fun w _ hother htie => ?_⟩
  · rcases magnitude_grid w k with ⟨n, hn⟩ | ⟨hk, hw⟩
    · rw [hn]
      exact hmultiple n
    · exact (hbelow w hk hw).le
  · rcases magnitude_grid w k with ⟨n, hn⟩ | ⟨hk, hw⟩
    · have hne : n ≠ roundHalfEven (x / unit k) := by
        rintro rfl
        exact hother (magnitude_inj.mp (hn.trans rounded.symm))
      rw [rounded, hn, distance_scaled hunit, distance_scaled hunit] at htie
      rw [parity]
      exact roundHalfEven_even hscaled hne (mul_right_cancel₀ hunit.ne' htie)
    · exact absurd htie (hbelow w hk hw).ne

theorem isRounding_infinity {x : Rat} (negative : Bool) (large : 2 ^ (1024 : Int) ≤ x) :
    IsRounding x (infinity negative) := by
  have hinfinity := magnitude_infinity negative
  have heven : (infinity negative).significand % 2 = 0 :=
    (significand_mod_two _).trans (by decide : infinityCode % 2 = 0)
  refine ⟨rfl, fun w hw => ?_, fun _ _ _ _ => heven⟩
  have hle : w.magnitude ≤ (infinity negative).magnitude :=
    magnitude_le_magnitude.mpr (code_le_of_number hw)
  calc |(infinity negative).magnitude - x| = x - (infinity negative).magnitude := by
        rw [abs_sub_comm, abs_of_nonneg (by linarith)]
    _ ≤ x - w.magnitude := by linarith
    _ ≤ |w.magnitude - x| := by rw [abs_sub_comm]; exact le_abs_self _

theorem isRounding_zero {x : Rat} (negative : Bool) (nonneg : 0 ≤ x) (small : 2 * x ≤ unit 0) :
    IsRounding x { zero with negative } := by
  have hzero : ({ zero with negative } : Binary64).magnitude = 0 := by
    rw [magnitude_eq]
    simp [codeMagnitude, zero, fractionCount]
  refine ⟨rfl, fun w _ => ?_, fun _ _ _ _ => by rw [significand_mod_two]; rfl⟩
  rw [hzero, zero_sub, abs_neg, abs_of_nonneg nonneg]
  rcases magnitude_grid w 0 with ⟨n, hn⟩ | ⟨hne, _⟩
  · rcases Nat.eq_zero_or_pos n with rfl | hpos
    · rw [hn, Nat.cast_zero, zero_mul, zero_sub, abs_neg, abs_of_nonneg nonneg]
    · have hone : (1 : Rat) ≤ n := by exact_mod_cast hpos
      have hleast : unit 0 ≤ n * unit 0 := le_mul_of_one_le_left (unit_pos 0).le hone
      rw [hn]
      linarith [le_abs_self (n * unit 0 - x)]
  · exact absurd rfl hne

theorem isRounding_nearest {x : Rat} (negative : Bool) (nonneg : 0 ≤ x) :
    IsRounding x (nearest negative x) := by
  rcases nonneg.eq_or_lt with rfl | hpos
  · have hzero : nearest negative 0 = { zero with negative } := by simp [nearest, nearestCode, zero]
    rw [hzero]
    exact isRounding_zero negative le_rfl (by linarith [unit_pos 0])
  obtain ⟨k, hcode, hhigh, hlow⟩ := exists_place hpos
  have hunit := unit_pos k
  have hscaled : 0 ≤ x / unit k := div_nonneg nonneg hunit.le
  have htop : roundHalfEven (x / unit k) ≤ 2 ^ 53 :=
    roundHalfEven_le hscaled (by exact_mod_cast ((div_lt_iff₀ hunit).mpr hhigh).le)
  have hbottom : k = 0 ∨ 2 ^ 52 ≤ roundHalfEven (x / unit k) :=
    hlow.imp_right fun h => le_roundHalfEven hscaled (by exact_mod_cast (le_div_iff₀ hunit).mpr h)
  have hlast : infinityCode = 2045 * fractionCount + 2 ^ 53 := rfl
  have hcount : fractionCount = 2 ^ 52 := rfl
  rcases Nat.lt_or_ge infinityCode (k * fractionCount + roundHalfEven (x / unit k)) with hover | hin
  · have hinfinity : nearest negative x = infinity negative := by
      simp only [nearest, infinity, hcode, Nat.min_eq_left hover.le]
    have hk : 2046 ≤ k := by
      rw [hcount] at hover hlast
      omega
    rw [hinfinity]
    refine isRounding_infinity negative (le_trans ?_ (hlow.resolve_left (by omega)))
    rw [two_pow_mul_unit]
    exact zpow_le_zpow_right₀ (by norm_num) (by push_cast; omega)
  · have hplaced : (nearest negative x).code = k * fractionCount + roundHalfEven (x / unit k) :=
      hcode.trans (Nat.min_eq_right hin)
    refine isRounding_of_grid nonneg hlow ?_ ?_ ?_
    · simp only [isNaN, hplaced, decide_eq_false_iff_not]
      omega
    · rw [magnitude_eq, hplaced, codeMagnitude_grid htop hbottom]
    · rw [significand_mod_two, hplaced, hcount]
      omega

/-! ## Decimals -/

/-- The length of the digits and the exponent tell the size of a decimal. -/
theorem decimal_bracket {digits : Nat} (nonzero : digits ≠ 0) (e : Int) :
    (10 : Rat) ^ ((Numeral.digits digits).length + e - 1) ≤ digits * 10 ^ e ∧
      (digits * 10 ^ e : Rat) < 10 ^ ((Numeral.digits digits).length + e - 1 + 1) := by
  have hlength : 0 < (Numeral.digits digits).length :=
    List.length_pos_iff.mpr Nat.toDigits_ne_nil
  have hlow : 10 ^ ((Numeral.digits digits).length - 1) ≤ digits := by
    by_contra hlt
    rcases Nat.eq_zero_or_pos ((Numeral.digits digits).length - 1) with hone | hmore
    · rw [hone] at hlt
      omega
    · have := (Nat.length_toDigits_le_iff (by decide) hmore).mpr (Nat.lt_of_not_le hlt)
      simp only [Numeral.digits] at hlength this
      omega
  have hhigh : digits < 10 ^ (Numeral.digits digits).length :=
    (Nat.length_toDigits_le_iff (by decide) hlength).mp le_rfl
  generalize (Numeral.digits digits).length = length at hlength hlow hhigh
  obtain ⟨k, rfl⟩ : ∃ k, length = k + 1 := ⟨length - 1, by omega⟩
  have hlow' : (10 : Rat) ^ (k : Int) ≤ digits := by
    rw [zpow_natCast]
    exact_mod_cast hlow
  have hhigh' : (digits : Rat) < 10 ^ (k + 1 : Int) := by exact_mod_cast hhigh
  constructor
  · calc (10 : Rat) ^ ((k + 1 : Nat) + e - 1) = 10 ^ (k : Int) * 10 ^ e :=
          (zpow_mul_of_add (by norm_num) (by omega)).symm
      _ ≤ digits * 10 ^ e := by gcongr
  · calc (digits : Rat) * 10 ^ e < 10 ^ (k + 1 : Int) * 10 ^ e := by gcongr
      _ = 10 ^ ((k + 1 : Nat) + e - 1 + 1) := zpow_mul_of_add (by norm_num) (by omega)

/-- Every power of two in the range of the format stays below `10 ^ 400`. -/
theorem two_pow_le_ten_pow {k : Nat} (h : k ≤ 1200) : (2 : Rat) ^ (k : Int) ≤ 10 ^ (400 : Int) := by
  calc (2 : Rat) ^ (k : Int) ≤ 2 ^ (3 * 400 : Int) :=
        zpow_le_zpow_right₀ (by norm_num) (by omega)
    _ = (2 ^ (3 : Int)) ^ (400 : Int) := zpow_mul _ _ _
    _ ≤ 10 ^ (400 : Int) := zpow_le_zpow_left₀ (by norm_num) (by norm_num) (by norm_num)

/-- A decimal with more than four hundred zeros after the point is below half the least magnitude.
-/
theorem decimal_lt_of_length {digits : Nat} (nonzero : digits ≠ 0) {e : Int}
    (short : (Numeral.digits digits).length + e < -400) :
    2 * (digits * 10 ^ e : Rat) < 2 ^ (-1074 : Int) := by
  have hpow : (10 : Rat) ^ ((Numeral.digits digits).length + e - 1 + 1) ≤ 10 ^ (-401 : Int) :=
    zpow_le_zpow_right₀ (by norm_num) (by omega)
  have hstep : (10 : Rat) ^ (1 : Int) * 10 ^ (-401 : Int) = 10 ^ (-400 : Int) :=
    zpow_mul_of_add (by norm_num) (by norm_num)
  have hpos : (0 : Rat) < 10 ^ (-401 : Int) := by positivity
  calc 2 * (digits * 10 ^ e : Rat) < 2 * 10 ^ (-401 : Int) :=
        mul_lt_mul_of_pos_left ((decimal_bracket nonzero e).2.trans_le hpow) (by norm_num)
    _ ≤ 10 ^ (-400 : Int) := by linarith
    _ ≤ 2 ^ (-1074 : Int) := by
        rw [zpow_neg, zpow_neg]
        exact inv_anti₀ (by positivity) (two_pow_le_ten_pow (k := 1074) (by decide))

/-- A decimal with more than four hundred places before the point is above all finite magnitudes. -/
theorem le_decimal_of_length {digits : Nat} (nonzero : digits ≠ 0) {e : Int}
    (long : 400 < (Numeral.digits digits).length + e) :
    (2 ^ (1024 : Int) : Rat) ≤ digits * 10 ^ e :=
  calc (2 : Rat) ^ (1024 : Int) ≤ 10 ^ (400 : Int) := two_pow_le_ten_pow (k := 1024) (by decide)
    _ ≤ 10 ^ ((Numeral.digits digits).length + e - 1) :=
        zpow_le_zpow_right₀ (by norm_num) (by omega)
    _ ≤ digits * 10 ^ e := (decimal_bracket nonzero e).1

/-- The shortcuts for far decimals round like the rest. -/
theorem isRounding_ofDecimal (negative : Bool) (digits : Nat) (e : Int) :
    IsRounding (digits * 10 ^ e) (ofDecimal negative digits e) := by
  have hnonneg : (0 : Rat) ≤ digits * 10 ^ e := by positivity
  simp only [ofDecimal]
  split_ifs with hfar hlong
  · refine isRounding_zero negative hnonneg ?_
    by_cases hzero : digits = 0
    · simp [hzero, (unit_pos 0).le]
    · have hshort : (Numeral.digits digits).length + e < -400 := by simpa [hzero] using hfar
      exact (decimal_lt_of_length hzero hshort).le
  · have hdigits : digits ≠ 0 := by
      rintro rfl
      simp at hfar
    exact isRounding_infinity negative (le_decimal_of_length hdigits hlong)
  · exact isRounding_nearest negative hnonneg

theorem negative_ofDecimal (negative : Bool) (digits : Nat) (e : Int) :
    (ofDecimal negative digits e).negative = negative := by
  simp only [ofDecimal]
  split_ifs <;> rfl

theorem IsRounding.ofDecimal_eq {v : Binary64} {digits : Nat} {e : Int}
    (h : IsRounding (digits * 10 ^ e) v) : ofDecimal v.negative digits e = v :=
  (isRounding_ofDecimal v.negative digits e).unique h (negative_ofDecimal v.negative digits e)

/-- Decimals of the same value are rounded alike. -/
theorem ofDecimal_congr (negative : Bool) {digits digits' : Nat} {e e' : Int}
    (same : (digits * 10 ^ e : Rat) = digits' * 10 ^ e') :
    ofDecimal negative digits e = ofDecimal negative digits' e' := by
  have hrounding := isRounding_ofDecimal negative digits' e'
  rw [← same] at hrounding
  simpa only [negative_ofDecimal] using hrounding.ofDecimal_eq

end PauliLowering.Binary64
