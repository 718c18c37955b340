import PauliLowering.Hamiltonian
import PauliLowering.Proofs.LiteralRoundTrip

/-!
What a parameter field is read as.

A field is a sign, which may be left out, and a body (`Signed`). The reader goes through the digits
at the start of the body and holds the signed number of those it has passed (`readDigits_denoted`).
That number only moves away from zero, so the reading ends early exactly if all the digits together
leave the range of 128 bits (`readSigned_eq`), and the character after the digits is looked at only
if they stay inside.
-/

namespace PauliLowering

namespace Numeral

theorem value_le_append (ds es : List Char) : value ds ≤ value (ds ++ es) := by
  rw [value_append]
  have hpow : 0 < 10 ^ es.length := Nat.pow_pos (by decide)
  have hle := Nat.le_mul_of_pos_right (value ds) hpow
  omega

end Numeral

namespace Term

/-! ## Signed numbers -/

/-- The field is a sign, or none, and a body. A sign in front is never a part of the body. -/
structure Signed (field sign body : List Char) : Prop where
  split : field = sign ++ body
  sign_mem : sign ∈ signs
  unsigned : sign = [] → ∀ c ∈ body.head?, c ≠ '+' ∧ c ≠ '-'

theorem signed_plus (body : List Char) : Signed ('+' :: body) ['+'] body :=
  ⟨rfl, by simp [signs], by simp⟩

theorem signed_minus (body : List Char) : Signed ('-' :: body) ['-'] body :=
  ⟨rfl, by simp [signs], by simp⟩

theorem signed_of_head {field : List Char} (head : ∀ c ∈ field.head?, c.isDigit = true) :
    Signed field [] field := by
  refine ⟨rfl, by simp [signs], ?_⟩
  intro _ c hc
  have hdigit := head c hc
  constructor
  · rintro rfl
    cases hdigit
  · rintro rfl
    cases hdigit

theorem exists_signed (field : List Char) : ∃ sign body, Signed field sign body := by
  by_cases hplus : field.head? = some '+'
  · obtain ⟨body, rfl⟩ := List.head?_eq_some_iff.mp hplus
    exact ⟨['+'], body, signed_plus body⟩
  by_cases hminus : field.head? = some '-'
  · obtain ⟨body, rfl⟩ := List.head?_eq_some_iff.mp hminus
    exact ⟨['-'], body, signed_minus body⟩
  · refine ⟨[], field, rfl, by simp [signs], ?_⟩
    intro _ c hc
    constructor
    · rintro rfl
      exact hplus hc
    · rintro rfl
      exact hminus hc

theorem Signed.splitSign_eq {field sign body : List Char} (h : Signed field sign body) :
    Numeral.splitSign field = (sign == ['-'], body) := by
  obtain ⟨rfl, hsign, hunsigned⟩ := h
  obtain rfl | rfl | rfl : sign = [] ∨ sign = ['+'] ∨ sign = ['-'] := by simpa [signs] using hsign
  · rw [List.nil_append]
    unfold Numeral.splitSign
    split
    · exact absurd rfl (hunsigned rfl '+' rfl).1
    · exact absurd rfl (hunsigned rfl '-' rfl).2
    · rfl
  · rfl
  · rfl

def denoted (negative : Bool) (digits : List Char) : Int :=
  if negative then -(Numeral.value digits : Int) else Numeral.value digits

def highest : Int := 0x7FFFFFFFFFFFFFFFFFFFFFFFFFFFFFFF

def lowest : Int := -0x80000000000000000000000000000000

@[simp] theorem denoted_false (digits : List Char) :
    denoted false digits = Numeral.value digits := rfl

@[simp] theorem denoted_true (digits : List Char) :
    denoted true digits = -(Numeral.value digits) := rfl

/-! ## The reader of digits -/

theorem denoted_concat (negative : Bool) (ds : List Char) (c : Char) :
    denoted negative (ds ++ [c]) =
      if negative then denoted negative ds * 10 - Numeral.value [c]
      else denoted negative ds * 10 + Numeral.value [c] := by
  have hvalue := Numeral.value_append ds [c]
  rw [List.length_singleton, Nat.pow_one] at hvalue
  cases negative with
  | false => simp [hvalue]
  | true =>
    simp only [denoted_true, hvalue, if_true]
    omega

/-- More digits take a number that is too large only further up. -/
theorem highest_lt_append {negative : Bool} {ds : List Char} (h : highest < denoted negative ds)
    (es : List Char) : highest < denoted negative (ds ++ es) := by
  have hle := Numeral.value_le_append ds es
  have hpositive : 0 < highest := by decide
  cases negative with
  | false =>
    rw [denoted_false] at h ⊢
    omega
  | true =>
    rw [denoted_true] at h
    omega

/-- More digits take a number that is too small only further down. -/
theorem append_lt_lowest {negative : Bool} {ds : List Char} (h : denoted negative ds < lowest)
    (es : List Char) : denoted negative (ds ++ es) < lowest := by
  have hle := Numeral.value_le_append ds es
  have hnegative : lowest < 0 := by decide
  cases negative with
  | false =>
    rw [denoted_false] at h
    omega
  | true =>
    rw [denoted_true] at h ⊢
    omega

/-- One more digit. -/
theorem readDigits_cons (negative : Bool) (ds : List Char) {c : Char} (digit : c.isDigit = true)
    (cs : List Char) :
    readDigits negative (denoted negative ds) (c :: cs) =
      if highest < denoted negative (ds ++ [c]) then .error .above
      else if denoted negative (ds ++ [c]) < lowest then .error .below
      else readDigits negative (denoted negative (ds ++ [c])) cs := by
  simp only [readDigits, digit, denoted_concat]
  rfl

/-- From digits that stay inside the range, the reader goes on to the end of all digits. -/
theorem readDigits_denoted (negative : Bool) {ds : List Char} (low : lowest ≤ denoted negative ds)
    (high : denoted negative ds ≤ highest) (cs : List Char) :
    readDigits negative (denoted negative ds) cs =
      let v := denoted negative (ds ++ cs.takeWhile Char.isDigit)
      if highest < v then .error .above
      else if v < lowest then .error .below
      else if cs.all Char.isDigit then .ok v else .error .invalid := by
  have hhigh : ¬ highest < denoted negative ds := by omega
  have hlow : ¬ denoted negative ds < lowest := by omega
  induction cs generalizing ds with
  | nil => simp [readDigits, hhigh, hlow]
  | cons c cs ih =>
    by_cases hdigit : c.isDigit = true
    · have hdigits : ds ++ (c :: cs).takeWhile Char.isDigit =
          ds ++ [c] ++ cs.takeWhile Char.isDigit := by simp [hdigit]
      have hall : (c :: cs).all Char.isDigit = cs.all Char.isDigit := by simp [hdigit]
      rw [readDigits_cons negative ds hdigit, hdigits, hall]
      -- Once outside, the number stays outside on the same side.
      by_cases habove : highest < denoted negative (ds ++ [c])
      · simp only [habove, highest_lt_append habove, if_true]
      by_cases hbelow : denoted negative (ds ++ [c]) < lowest
      · have hend := append_lt_lowest hbelow (cs.takeWhile Char.isDigit)
        have hside : ¬ highest < denoted negative (ds ++ [c] ++ cs.takeWhile Char.isDigit) := by
          have hrange : lowest < highest := by decide
          omega
        simp only [habove, hbelow, hend, hside, if_true, if_false]
      · simp only [habove, hbelow, if_false]
        exact ih (by omega) (by omega) habove hbelow
    · have hdigits : ds ++ (c :: cs).takeWhile Char.isDigit = ds := by simp [hdigit]
      rw [hdigits]
      simp [readDigits, hdigit, hhigh, hlow]

theorem readSigned_eq {field sign body : List Char} (h : Signed field sign body) :
    readSigned field =
      let v := denoted (sign == ['-']) (body.takeWhile Char.isDigit)
      if highest < v then .error .above
      else if v < lowest then .error .below
      else if body ≠ [] ∧ body.all Char.isDigit then .ok v else .error .invalid := by
  have hstart : denoted (sign == ['-']) [] = 0 := by
    unfold denoted
    split <;> rfl
  rw [readSigned, h.splitSign_eq]
  by_cases hempty : body = []
  · simp [hempty, hstart, highest, lowest]
  · have hlow : lowest ≤ denoted (sign == ['-']) [] := by rw [hstart]; decide
    have hhigh : denoted (sign == ['-']) [] ≤ highest := by rw [hstart]; decide
    have hread := readDigits_denoted (sign == ['-']) hlow hhigh body
    rw [hstart, List.nil_append] at hread
    simp only [List.isEmpty_iff, hempty, if_false, hread, ne_eq, not_false_eq_true, true_and]

/-! ## The classification -/

section Outcome

variable {field sign body : List Char}

theorem readParameter_of_numeral (position : Nat) (h : Signed field sign body)
    (numeral : IsNumeral body) :
    readParameter position field =
      let v := denoted (sign == ['-']) (body.takeWhile Char.isDigit)
      if v < 0 then .error (.negativeParameter position (String.ofList field))
      else if Numeral.word < v then .error (.parameterOutOfBounds position (String.ofList field))
      else .ok v.toNat := by
  have hnumeral : body ≠ [] ∧ body.all Char.isDigit = true := numeral
  have hword : (Numeral.word : Int) < highest := by decide
  have hlowest : lowest < 0 := by decide
  simp only [readParameter, readSigned_eq h, if_pos hnumeral]
  generalize denoted (sign == ['-']) (body.takeWhile Char.isDigit) = v
  by_cases habove : highest < v
  · have hnonneg : ¬ v < 0 := by omega
    have hlarge : (Numeral.word : Int) < v := by omega
    simp only [habove, hnonneg, hlarge, if_true, if_false]
  by_cases hbelow : v < lowest
  · have hnegative : v < 0 := by omega
    simp only [habove, hbelow, hnegative, if_true, if_false]
  · simp only [habove, hbelow, if_false]
    split_ifs <;> first | rfl | omega

theorem readParameter_of_malformed (position : Nat) (h : Signed field sign body)
    (malformed : ¬ IsNumeral body) :
    readParameter position field =
      let v := denoted (sign == ['-']) (body.takeWhile Char.isDigit)
      if highest < v then .error (.parameterOutOfBounds position (String.ofList field))
      else if v < lowest then .error (.negativeParameter position (String.ofList field))
      else .error (.wrongFormat position (.invalidParameter (String.ofList field))) := by
  have hmalformed : ¬ (body ≠ [] ∧ body.all Char.isDigit = true) := malformed
  simp only [readParameter, readSigned_eq h, if_neg hmalformed]
  generalize denoted (sign == ['-']) (body.takeWhile Char.isDigit) = v
  split_ifs <;> rfl

end Outcome

/-- **The parameter field, classified.** Every field is a sign, or none, and a body; let `v` be the
signed number of the digits that the body starts with. A body of digits only is read as `v` if that
has 64 bits and is not negative, and is refused as negative or as out of bounds otherwise, however
long it is. Any other body is refused: for its digits if these already leave the range of 128 bits,
and as malformed if not. -/
theorem readParameter_classified (position : Nat) (field : List Char) :
    (∃ sign body, Signed field sign body) ∧
    ∀ sign body, Signed field sign body →
      let v := denoted (sign == ['-']) (body.takeWhile Char.isDigit)
      let text := String.ofList field
      (IsNumeral body →
        (0 ≤ v → v ≤ Numeral.word → readParameter position field = .ok v.toNat) ∧
        (v < 0 → readParameter position field = .error (.negativeParameter position text)) ∧
        (Numeral.word < v →
          readParameter position field = .error (.parameterOutOfBounds position text))) ∧
      (¬ IsNumeral body →
        (highest < v →
          readParameter position field = .error (.parameterOutOfBounds position text)) ∧
        (v < lowest → readParameter position field = .error (.negativeParameter position text)) ∧
        (lowest ≤ v → v ≤ highest →
          readParameter position field =
            .error (.wrongFormat position (.invalidParameter text)))) := by
  refine ⟨exists_signed field, ?_⟩
  intro sign body h v text
  have hlowest : lowest < highest := by decide
  constructor
  · intro numeral
    rw [readParameter_of_numeral position h numeral]
    refine ⟨?_, ?_, ?_⟩
    · intro hnonneg hword
      rw [if_neg (by omega), if_neg (by omega)]
    · intro hnegative
      rw [if_pos hnegative]
    · intro hlarge
      rw [if_neg (by omega), if_pos hlarge]
  · intro malformed
    rw [readParameter_of_malformed position h malformed]
    refine ⟨?_, ?_, ?_⟩
    · intro habove
      rw [if_pos habove]
    · intro hbelow
      rw [if_neg (by omega), if_pos hbelow]
    · intro hlow hhigh
      rw [if_neg (by omega), if_neg (by omega)]

/-- The digits of the largest number of 128 bits, and of the one after it, before a character that
is no digit. -/
def insideField : List Char := '1' :: "70141183460469231731687303715884105727x".toList

def outsideField : List Char := '1' :: "70141183460469231731687303715884105728x".toList

/-- A negative zero, the largest number of 64 bits after fifty zeros, and two malformed fields. -/
theorem readParameter_classified_samples :
    readParameter 3 ['-', '0'] = .ok 0 ∧
    readParameter 3 ('+' :: (List.replicate 50 '0' ++ Numeral.digits Numeral.word)) =
      .ok Numeral.word ∧
    readParameter 3 insideField =
      .error (.wrongFormat 3 (.invalidParameter (String.ofList insideField))) ∧
    readParameter 3 outsideField =
      .error (.parameterOutOfBounds 3 (String.ofList outsideField)) := by
  refine ⟨?_, ?_, ?_, ?_⟩
  · obtain ⟨hnumeral, _⟩ := (readParameter_classified 3 ['-', '0']).2 _ _ (signed_minus ['0'])
    exact (hnumeral ⟨by simp, rfl⟩).1 (by decide) (by decide)
  · obtain ⟨hnumeral, _⟩ := (readParameter_classified 3 _).2 _ _
      (signed_plus (List.replicate 50 '0' ++ Numeral.digits Numeral.word))
    have hread := (hnumeral ⟨by simp, by decide +kernel⟩).1 (by decide +kernel) (by decide +kernel)
    exact hread.trans (congrArg Except.ok (by decide +kernel))
  · obtain ⟨_, hmalformed⟩ := (readParameter_classified 3 insideField).2 _ _
      (signed_of_head (by rintro c ⟨⟩; rfl))
    exact (hmalformed fun h => absurd h.2 (by decide +kernel)).2.2
      (by decide +kernel) (by decide +kernel)
  · obtain ⟨_, hmalformed⟩ := (readParameter_classified 3 outsideField).2 _ _
      (signed_of_head (by rintro c ⟨⟩; rfl))
    exact (hmalformed fun h => absurd h.2 (by decide +kernel)).1 (by decide +kernel)

end Term

end PauliLowering
