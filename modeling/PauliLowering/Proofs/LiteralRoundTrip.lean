import Mathlib.Tactic.FieldSimp
import PauliLowering.Number
import PauliLowering.Proofs.CorrectRounding
import PauliLowering.Proofs.Spelling

/-!
A finite number is read back from its literal.

* `ofDecimal_shortestDecimal`: the decimal that is written reads back, found on a grid or exact;
* `exists_positional`: positional notation has no leading zeros and keeps the value of the decimal;
* `exists_literal`: the form of a literal, which `read?_literal` reads and `literal_injective`
  needs.

The number is also the only rounding of the value that its literal shows.
-/

namespace PauliLowering

/-! ## Numerals -/

namespace Numeral

theorem isDigit_of_mem_digits {n : Nat} {c : Char} (h : c ∈ digits n) : c.isDigit = true :=
  Nat.isDigit_of_mem_toDigits (by decide) (by decide) h

theorem value_digits (n : Nat) : value (digits n) = n := Nat.ofDigitChars_ten_toDigits

theorem digits_injective {m n : Nat} (h : digits m = digits n) : m = n := by
  rw [← value_digits m, h, value_digits]

theorem value_append (ds es : List Char) :
    value (ds ++ es) = value ds * 10 ^ es.length + value es := by
  rw [value, Nat.ofDigitChars_append, Nat.ofDigitChars_eq_ofDigitChars_zero, Nat.mul_comm]
  rfl

theorem value_zeros (k : Nat) : value (List.replicate k '0') = 0 := by
  rw [value, Nat.ofDigitChars_replicate_zero, Nat.mul_zero]

theorem value_append_zeros (cs : List Char) (k : Nat) :
    value (cs ++ List.replicate k '0') = value cs * 10 ^ k := by
  rw [value_append, value_zeros, List.length_replicate, Nat.add_zero]

theorem value_zeros_append (k : Nat) (cs : List Char) :
    value (List.replicate k '0' ++ cs) = value cs := by
  rw [value_append, value_zeros, Nat.zero_mul, Nat.zero_add]

/-- The digit zero alone, or a text that does not start with it. -/
structure Plain (ds : List Char) : Prop where
  nonempty : ds ≠ []
  leading : ds.head? = some '0' → ds = ['0']

theorem head?_digits {n : Nat} (nonzero : n ≠ 0) : (digits n).head? ≠ some '0' := by
  induction n using Nat.strongRecOn with
  | ind n ih =>
    rcases Nat.lt_or_ge n 10 with hsmall | hlarge
    · rw [digits, Nat.toDigits_of_lt_base hsmall, List.head?_singleton]
      simpa [Nat.digitChar_eq_zero] using nonzero
    · have hrest := ih (n / 10) (by omega) (by omega)
      rw [digits, Nat.toDigits_of_base_le (by decide) hlarge,
        List.head?_append_of_ne_nil _ Nat.toDigits_ne_nil]
      exact hrest

theorem plain_digits_zeros {n k : Nat} (zero : n = 0 → k = 0) :
    Plain (digits n ++ List.replicate k '0') := by
  have hne : digits n ≠ [] := Nat.toDigits_ne_nil
  refine ⟨List.append_ne_nil_of_left_ne_nil hne _, ?_⟩
  intro hleading
  rw [List.head?_append_of_ne_nil _ hne] at hleading
  by_cases hzero : n = 0
  · rw [zero hzero, hzero]
    rfl
  · exact absurd hleading (head?_digits hzero)

/-- Digits that are padded to more than `k` have no more zeros in front of the last `k` than needed.
-/
theorem plain_take_padded {n k : Nat} (places : 0 < k) {padded : List Char}
    (hpadded : padded = List.replicate (k + 1 - (digits n).length) '0' ++ digits n) :
    Plain (padded.take (padded.length - k)) := by
  have hlength : padded.length = k + 1 - (digits n).length + (digits n).length := by simp [hpadded]
  rcases Nat.lt_or_ge k (digits n).length with hlong | hshort
  · have hnone : k + 1 - (digits n).length = 0 := by omega
    have hdigits : padded = digits n := by rw [hpadded, hnone, List.replicate_zero, List.nil_append]
    have hnonzero : n ≠ 0 := by
      rintro rfl
      have hone : (digits 0).length = 1 := rfl
      omega
    obtain ⟨c, cs, hcons⟩ : ∃ c cs, digits n = c :: cs :=
      List.exists_cons_of_ne_nil Nat.toDigits_ne_nil
    obtain ⟨j, hj⟩ : ∃ j, padded.length - k = j + 1 := ⟨padded.length - k - 1, by omega⟩
    have hhead := head?_digits hnonzero
    rw [hcons, List.head?_cons] at hhead
    rw [hj, hdigits, hcons, List.take_succ_cons]
    exact ⟨List.cons_ne_nil _ _, fun hleading => absurd hleading hhead⟩
  · obtain ⟨j, hj⟩ : ∃ j, k + 1 - (digits n).length = j + 1 := ⟨k - (digits n).length, by omega⟩
    have hone : padded.length - k = 1 := by omega
    rw [hone, hpadded, hj, List.replicate_succ, List.cons_append, List.take_succ_cons,
      List.take_zero]
    exact ⟨List.cons_ne_nil _ _, fun _ => rfl⟩

end Numeral

namespace Binary64

/-! ## The decimal that is written -/

theorem floor_natCast (n : Nat) : (n : Rat).floor = n := Rat.floor_intCast n

theorem exactDecimal_value (v : Binary64) :
    ((exactDecimal v).1 * 10 ^ (exactDecimal v).2 : Rat) = v.magnitude := by
  have hwhole : ∃ n : Nat, v.magnitude / 10 ^ min v.exponent 0 = n := by
    rcases Int.le_total 0 v.exponent with hexponent | hexponent
    · obtain ⟨k, hk⟩ : ∃ k : Nat, v.exponent = k := ⟨v.exponent.toNat, by omega⟩
      refine ⟨v.significand * 2 ^ k, ?_⟩
      simp [magnitude, hk]
    · obtain ⟨k, hk⟩ : ∃ k : Nat, v.exponent = -k := ⟨(-v.exponent).toNat, by omega⟩
      refine ⟨v.significand * 5 ^ k, ?_⟩
      have hten : (10 : Rat) ^ k = 2 ^ k * 5 ^ k := by
        rw [← mul_pow]
        norm_num
      rw [min_eq_left hexponent, magnitude, hk, zpow_neg, zpow_neg, zpow_natCast, zpow_natCast,
        hten]
      push_cast
      field_simp
  obtain ⟨n, hn⟩ := hwhole
  simp only [exactDecimal, hn, floor_natCast, Int.toNat_natCast]
  rw [← hn, div_mul_cancel₀ _ (zpow_ne_zero _ (by norm_num))]

theorem ofDecimal_of_onGrid? {v : Binary64} {place : Int} {digits : Nat}
    (h : onGrid? v place = some digits) : ofDecimal v.negative digits place = v := by
  simp only [onGrid?] at h
  split at h
  · next hbelow habove =>
    obtain rfl := Option.some.inj h
    split
    · exact eq_of_beq hbelow
    · exact eq_of_beq habove
  · next hbelow _ =>
    obtain rfl := Option.some.inj h
    exact eq_of_beq hbelow
  · next _ habove =>
    obtain rfl := Option.some.inj h
    exact eq_of_beq habove
  · cases h

theorem ofDecimal_of_searchGrids {v : Binary64} {count : Nat} {place : Int} {decimal : Nat × Int}
    (h : searchGrids v count place = some decimal) :
    ofDecimal v.negative decimal.1 decimal.2 = v := by
  induction count generalizing place with
  | zero => cases h
  | succ count ih =>
    simp only [searchGrids] at h
    split at h
    · next hgrid =>
      obtain rfl := Option.some.inj h
      exact ofDecimal_of_onGrid? hgrid
    · exact ih h

theorem isNaN_of_isFinite {v : Binary64} (finite : v.isFinite = true) : v.isNaN = false := by
  simp only [isFinite, isNaN, decide_eq_true_eq, decide_eq_false_iff_not] at finite ⊢
  omega

/-- The written decimal reads back, whether it was found on a grid or is the exact expansion. -/
theorem ofDecimal_shortestDecimal {v : Binary64} (finite : v.isFinite = true) :
    ofDecimal v.negative (shortestDecimal v).1 (shortestDecimal v).2 = v := by
  cases hzero : v.isZero with
  | true =>
    obtain ⟨negative, code, hcode⟩ := v
    obtain rfl : code = 0 := by simpa [isZero] using hzero
    simp [shortestDecimal, hzero, ofDecimal, zero]
  | false =>
    cases hsearch : searchGrids v 18 (floorLog10 v.magnitude + 1) with
    | some decimal => simpa [shortestDecimal, hzero, hsearch] using ofDecimal_of_searchGrids hsearch
    | none =>
      have hexact : IsRounding ((exactDecimal v).1 * 10 ^ (exactDecimal v).2) v := by
        rw [exactDecimal_value]
        exact .self (isNaN_of_isFinite finite)
      simpa [shortestDecimal, hzero, hsearch] using hexact.ofDecimal_eq

/-- Positional notation has a digit on either side of its point and keeps the value. No zero leads
but one that is right before the point. -/
theorem exists_positional {n : Nat} {e : Int} (zero : n = 0 → e = 0) : ∃ whole fraction,
    positional n e = whole ++ '.' :: fraction ∧ Numeral.Plain whole ∧ fraction ≠ [] ∧
      (∀ c ∈ whole ++ fraction, c.isDigit = true) ∧
      (Numeral.value (whole ++ fraction) * 10 ^ (-fraction.length : Int) : Rat) = n * 10 ^ e := by
  rcases Int.lt_or_le e 0 with hneg | hpos
  · obtain ⟨k, rfl⟩ : ∃ k : Nat, e = -k := ⟨(-e).toNat, by omega⟩
    let padded := List.replicate (k + 1 - (Numeral.digits n).length) '0' ++ Numeral.digits n
    have hlength : k + 1 ≤ padded.length := by
      simp only [padded, List.length_append, List.length_replicate]
      omega
    have hplaces : (padded.drop (padded.length - k)).length = k := by
      rw [List.length_drop]
      omega
    refine ⟨padded.take (padded.length - k), padded.drop (padded.length - k), ?_, ?_, ?_, ?_, ?_⟩
    · have hk : k ≠ 0 := by omega
      simp [positional, padded, hk]
    · exact Numeral.plain_take_padded (by omega) rfl
    · exact List.ne_nil_of_length_pos (by rw [hplaces]; omega)
    · rw [List.take_append_drop]
      intro c hc
      rcases List.mem_append.mp hc with hzero | hdigit
      · rw [List.eq_of_mem_replicate hzero]
        decide
      · exact Numeral.isDigit_of_mem_digits hdigit
    · rw [List.take_append_drop, hplaces, Numeral.value_zeros_append, Numeral.value_digits]
  · obtain ⟨k, rfl⟩ : ∃ k : Nat, e = k := ⟨e.toNat, by omega⟩
    refine ⟨Numeral.digits n ++ List.replicate k '0', ['0'], ?_, ?_, ?_, ?_, ?_⟩
    · simp [positional]
    · exact Numeral.plain_digits_zeros fun hzero => by simpa using zero hzero
    · exact List.cons_ne_nil _ _
    · intro c hc
      rw [List.append_assoc, ← List.replicate_succ'] at hc
      rcases List.mem_append.mp hc with hdigit | hzero
      · exact Numeral.isDigit_of_mem_digits hdigit
      · rw [List.eq_of_mem_replicate hzero]
        decide
    · rw [List.append_assoc, ← List.replicate_succ', Numeral.value_append_zeros,
        Numeral.value_digits, pow_succ]
      push_cast
      simp [mul_assoc]

/-! ## Reading a literal -/

theorem readDecimal?_point {whole fraction : List Char} (present : whole ≠ [])
    (digits : ∀ c ∈ whole ++ fraction, c.isDigit = true) :
    readDecimal? (whole ++ '.' :: fraction) =
      some (Numeral.value (whole ++ fraction), -(fraction.length : Int)) := by
  have hwhole : ∀ c ∈ whole, c.isDigit = true := fun c hc => digits c (List.mem_append_left _ hc)
  have hfraction : ∀ c ∈ fraction, c.isDigit = true := fun c hc =>
    digits c (List.mem_append_right _ hc)
  have hpoint : EndsDigits ('.' :: fraction) := by simp [EndsDigits]
  have htake := takeWhile_digits (List.all_eq_true.mpr hwhole) hpoint
  have hdrop := dropWhile_digits (List.all_eq_true.mpr hwhole) hpoint
  have htake' : fraction.takeWhile Char.isDigit = fraction :=
    List.takeWhile_eq_self_iff.mpr hfraction
  have hdrop' : fraction.dropWhile Char.isDigit = [] := List.dropWhile_eq_nil_iff.mpr hfraction
  simp [readDecimal?, htake, hdrop, htake', hdrop', present]

theorem shortestDecimal_of_zero {v : Binary64} (finite : v.isFinite = true)
    (zero : (shortestDecimal v).1 = 0) : (shortestDecimal v).2 = 0 := by
  have hvalue := ofDecimal_shortestDecimal finite
  rw [zero] at hvalue
  have hzero : v.isZero = true := by rw [← hvalue]; rfl
  simp [shortestDecimal, hzero]

/-- A literal without an exponent: a minus or nothing, plain digits, a point and more digits. -/
structure PlainLiteral (negative : Bool) (whole fraction text : List Char) : Prop where
  text_eq : text = (if negative then ['-'] else []) ++ (whole ++ '.' :: fraction)
  plain : Numeral.Plain whole
  places : fraction ≠ []
  digits : ∀ c ∈ whole ++ fraction, c.isDigit = true

/-- The literal of a number is plain, with a sign exactly for a negative number, and its digits
round to the number. -/
theorem exists_literal {v : Binary64} (finite : v.isFinite = true) : ∃ whole fraction,
    PlainLiteral v.negative whole fraction v.literal.toList ∧
      ofDecimal v.negative (Numeral.value (whole ++ fraction)) (-fraction.length) = v := by
  obtain ⟨whole, fraction, htext, hplain, hplaces, hdigits, hvalue⟩ :=
    exists_positional (shortestDecimal_of_zero finite)
  refine ⟨whole, fraction, ⟨?_, hplain, hplaces, hdigits⟩, ?_⟩
  · rw [← htext]
    cases hsign : v.negative <;> simp [literal, isNaN_of_isFinite finite, finite, hsign]
  · rw [ofDecimal_congr v.negative hvalue]
    exact ofDecimal_shortestDecimal finite

theorem read?_literal {v : Binary64} (finite : v.isFinite = true) :
    read? v.literal.toList = some v := by
  obtain ⟨whole, fraction, ⟨htext, hwhole, _, hdigits⟩, hround⟩ := exists_literal finite
  have hsplit : Numeral.splitSign v.literal.toList = (v.negative, whole ++ '.' :: fraction) := by
    rw [htext]
    cases v.negative with
    | true => rfl
    | false =>
      obtain ⟨c, rest, rfl⟩ := List.exists_cons_of_ne_nil hwhole.nonempty
      have hc : c.isDigit = true := hdigits c (by simp)
      have hplus : c ≠ '+' := fun h => by simp [h] at hc
      have hminus : c ≠ '-' := fun h => by simp [h] at hc
      simp [Numeral.splitSign, hplus, hminus]
  simp only [read?, hsplit, readDecimal?_point hwhole.nonempty hdigits, hround]

theorem literal_injective {u v : Binary64} (hu : u.isFinite = true) (hv : v.isFinite = true)
    (same : u.literal = v.literal) : u = v := by
  have hread := read?_literal hu
  rw [same, read?_literal hv] at hread
  exact (Option.some.inj hread).symm

theorem literal_chars {v : Binary64} (finite : v.isFinite = true) {c : Char}
    (h : c ∈ v.literal.toList) : c.isDigit = true ∨ c = '.' ∨ c = '-' := by
  obtain ⟨whole, fraction, ⟨htext, _, _, hdigits⟩, _⟩ := exists_literal finite
  rw [htext] at h
  rcases List.mem_append.mp h with hsign | hbody
  · cases hneg : v.negative <;> simp [hneg] at hsign
    exact .inr (.inr hsign)
  · simp only [List.mem_append, List.mem_cons] at hbody hdigits
    rcases hbody with hc | rfl | hc
    · exact .inl (hdigits c (.inl hc))
    · exact .inr (.inl rfl)
    · exact .inl (hdigits c (.inr hc))

/-! ## The rounding of a literal -/

def pointValue (whole fraction : List Char) : Rat :=
  Numeral.value whole + Numeral.value fraction / 10 ^ fraction.length

theorem pointValue_eq (whole fraction : List Char) :
    pointValue whole fraction =
      Numeral.value (whole ++ fraction) * 10 ^ (-fraction.length : Int) := by
  rw [pointValue, Numeral.value_append, zpow_neg, zpow_natCast]
  push_cast
  field_simp

/-- The literal of a finite number is plain and carries the sign of the number. Its value has the
number as the only rounding with that sign, and the number is what the literal reads as. -/
theorem literal_plain_and_exact {v : Binary64} (finite : v.isFinite = true) : ∃ whole fraction,
    PlainLiteral v.negative whole fraction v.literal.toList ∧
      (∀ w : Binary64, (w.negative = v.negative ∧ IsRounding (pointValue whole fraction) w) ↔
        w = v) ∧
      read? v.literal.toList = some v := by
  obtain ⟨whole, fraction, hliteral, hround⟩ := exists_literal finite
  have hrounding : IsRounding (pointValue whole fraction) v := by
    have hdecimal :=
      isRounding_ofDecimal v.negative (Numeral.value (whole ++ fraction)) (-fraction.length)
    rwa [hround, ← pointValue_eq] at hdecimal
  refine ⟨whole, fraction, hliteral, fun w => ⟨?_, ?_⟩, read?_literal finite⟩
  · rintro ⟨hsign, hw⟩
    exact hw.unique hrounding hsign
  · rintro rfl
    exact ⟨rfl, hrounding⟩

def tinyNegative : Binary64 := { negative := true, code := 1 }

theorem literal_plain_and_exact_tiny : tinyNegative.isFinite = true ∧ ∃ whole fraction,
    PlainLiteral true whole fraction tinyNegative.literal.toList ∧
      (∀ w : Binary64, (w.negative = true ∧ IsRounding (pointValue whole fraction) w) ↔
        w = tinyNegative) ∧
      read? tinyNegative.literal.toList = some tinyNegative :=
  ⟨rfl, literal_plain_and_exact (v := tinyNegative) rfl⟩

end Binary64

end PauliLowering
