import Mathlib.Data.List.DropRight
import PauliLowering.Number
import PauliLowering.Text

/-!
How numbers and names are spelled, and that their readers accept exactly the spellings.

A spelling is a word with blanks around it (`Padded`), and words consist of visible ASCII
characters, so cutting off the outer blanks of a text leaves the word (`padded_iff`). Names may be
written in any letter case. For the names that occur here lower-casing a text agrees with
lower-casing its ASCII letters (`lowercase_eq_iff`), although capital letters of other alphabets
have lower-case forms as well. The words of counts and of real numbers are those that
`Numeral.readUpTo?_isSome` and `Binary64.read?_isSome` name.
-/

namespace PauliLowering

/-! ## Visible characters and blanks -/

/-- The ASCII characters that are neither blank nor control characters. -/
def isVisible (c : Char) : Bool := 0x20 < c.toNat && c.toNat < 0x7F

theorem isVisible_iff {c : Char} : isVisible c = true ↔ 0x20 < c.toNat ∧ c.toNat < 0x7F := by
  simp [isVisible]

theorem not_blank_of_visible {c : Char} (h : isVisible c = true) : Text.isBlank c = false := by
  obtain ⟨hlow, hhigh⟩ := isVisible_iff.mp h
  simp only [Text.isBlank, Text.CharRanges.contains, Text.blanks, List.any_eq_false, List.mem_cons,
    List.not_mem_nil, or_false, Bool.and_eq_true, decide_eq_true_eq]
  rintro r (rfl | rfl | rfl | rfl | rfl | rfl | rfl | rfl | rfl | rfl) <;> omega

theorem isDigit_iff {c : Char} : c.isDigit = true ↔ 0x30 ≤ c.toNat ∧ c.toNat ≤ 0x39 := by
  simp [Char.isDigit, UInt32.le_iff_toNat_le]

theorem toNat_toLower (c : Char) :
    c.toLower.toNat = if 0x41 ≤ c.toNat ∧ c.toNat ≤ 0x5A then c.toNat + 32 else c.toNat := by
  have hrange : (c.val ≥ 'A'.val ∧ c.val ≤ 'Z'.val) ↔ 0x41 ≤ c.toNat ∧ c.toNat ≤ 0x5A := by
    simp [UInt32.le_iff_toNat_le]
  unfold Char.toLower
  split
  · next h =>
    have hupper := hrange.mp h
    have hsum : (c.val + ('a'.val - 'A'.val)).toNat = (c.toNat + 32) % 2 ^ 32 := UInt32.toNat_add ..
    rw [if_pos hupper]
    exact hsum.trans (Nat.mod_eq_of_lt (by omega))
  · next h => rw [if_neg (fun hc => h (hrange.mpr hc))]

/-- Numbers that are not those of characters give the null character. -/
theorem toNat_ofNat (n : Nat) :
    (Char.ofNat n).toNat = n ∨ 0xD800 ≤ n ∧ (Char.ofNat n).toNat = 0 := by
  by_cases h : n.isValidChar
  · left
    rw [Char.ofNat, dif_pos h]
    rfl
  · have hlow : 0xD800 ≤ n := by
      simp only [Nat.isValidChar] at h
      omega
    rw [Char.ofNat, dif_neg h]
    exact .inr ⟨hlow, rfl⟩

namespace Text

def Padded (word : List Char → Prop) (cs : List Char) : Prop :=
  ∃ left body right, cs = left ++ body ++ right ∧ (∀ c ∈ left ++ right, isBlank c = true) ∧
    word body

theorem dropWhile_of_visible {cs : List Char} (visible : cs.all isVisible = true) :
    cs.dropWhile isBlank = cs := by
  cases cs with
  | nil => rfl
  | cons c cs =>
    have hc : isVisible c = true := List.all_eq_true.mp visible c (List.mem_cons_self ..)
    rw [List.dropWhile_cons_of_neg]
    simp [not_blank_of_visible hc]

theorem trim_padded {left body right : List Char} (blank : ∀ c ∈ left ++ right, isBlank c = true)
    (visible : body.all isVisible = true) : trim (left ++ body ++ right) = body := by
  have hleft : ∀ c ∈ left, isBlank c = true := fun c hc => blank c (List.mem_append_left _ hc)
  have hright : ∀ c ∈ right, isBlank c = true := fun c hc => blank c (List.mem_append_right _ hc)
  rw [trim, List.append_assoc, List.dropWhile_append_of_pos hleft]
  cases body with
  | nil =>
    rw [List.nil_append, List.dropWhile_eq_nil_iff.mpr hright]
    rfl
  | cons c body =>
    have hc : isVisible c = true := List.all_eq_true.mp visible c (List.mem_cons_self ..)
    rw [List.cons_append, List.dropWhile_cons_of_neg (by simp [not_blank_of_visible hc]),
      ← List.cons_append, List.reverse_append, List.dropWhile_append_of_pos (by simpa using hright),
      dropWhile_of_visible (by rwa [List.all_reverse]), List.reverse_reverse]

theorem exists_padding (cs : List Char) :
    ∃ left right, cs = left ++ trim cs ++ right ∧ ∀ c ∈ left ++ right, isBlank c = true := by
  refine ⟨cs.takeWhile isBlank, (cs.dropWhile isBlank).rtakeWhile isBlank, ?_, ?_⟩
  · have htrim : trim cs = (cs.dropWhile isBlank).rdropWhile isBlank := rfl
    rw [htrim, List.append_assoc, List.rdropWhile_append_rtakeWhile,
      List.takeWhile_append_dropWhile]
  · intro c hc
    rcases List.mem_append.mp hc with hc | hc
    · exact List.mem_takeWhile_imp hc
    · exact List.mem_rtakeWhile_imp hc

/-- Cutting off the outer blanks of a spelling leaves its word. -/
theorem padded_iff {word : List Char → Prop} (visible : ∀ cs, word cs → cs.all isVisible = true)
    {cs : List Char} : Padded word cs ↔ word (trim cs) := by
  constructor
  · rintro ⟨left, body, right, rfl, blank, hword⟩
    rwa [trim_padded blank (visible body hword)]
  · intro hword
    obtain ⟨left, right, heq, blank⟩ := exists_padding cs
    exact ⟨left, trim cs, right, heq, blank, hword⟩

/-! ## Letter case -/

/-- The lower-case letters that are the form of no capital outside ASCII. The sign for the unit
kelvin has the form `k`. -/
def isPlain (c : Char) : Bool := 0x61 ≤ c.toNat && c.toNat ≤ 0x7A && c != 'k'

theorem isPlain_iff {c : Char} : isPlain c = true ↔ 0x61 ≤ c.toNat ∧ c.toNat ≤ 0x7A ∧ c ≠ 'k' := by
  simp [isPlain, and_assoc]

/-- Two runs of capitals have lower-case letters in ASCII. -/
theorem caseRun_cases {r : CaseRun} (h : r ∈ caseRuns) :
    (0x7A < r.first ∧ 0x80 ≤ (r.first : Int) + r.shift) ∨
      (r.first = 0x41 ∧ r.last = 0x5A ∧ r.shift = 32) ∨
      (r.first = 0x212A ∧ r.last = 0x212A ∧ r.shift = -8383) := by
  have hall : (caseRuns.all fun r =>
      (decide (0x7A < r.first) && decide (0x80 ≤ (r.first : Int) + r.shift)) ||
      (r.first == 0x41 && r.last == 0x5A && r.shift == 32) ||
      (r.first == 0x212A && r.last == 0x212A && r.shift == -8383)) = true := by decide +kernel
  simpa [or_assoc, and_assoc] using List.all_eq_true.mp hall r h

/-- The form of a character inside a run of capitals. -/
theorem ofNat_shift_eq_iff {r : CaseRun} (hr : r ∈ caseRuns) {c d : Char} (plain : isPlain d = true)
    (first : r.first ≤ c.toNat) (last : c.toNat ≤ r.last) :
    Char.ofNat ((c.toNat : Int) + r.shift).toNat = d ↔ c.toLower = d := by
  obtain ⟨hlow, hhigh, hkelvin⟩ := isPlain_iff.mp plain
  have hlower := toNat_toLower c
  have hshift := toNat_ofNat ((c.toNat : Int) + r.shift).toNat
  rw [← Char.toNat_inj, ← Char.toNat_inj]
  rcases caseRun_cases hr with ⟨hfirst, hform⟩ | ⟨hfirst, hlast, hform⟩ | ⟨hfirst, hlast, hform⟩
  · rw [if_neg (by omega)] at hlower
    omega
  · rw [if_pos (by omega)] at hlower
    omega
  · have hk : d.toNat ≠ 0x6B := fun h => hkelvin (Char.toNat_inj.mp h)
    rw [if_neg (by omega)] at hlower
    omega

/-- A character has a plain form exactly if it has it in ASCII. -/
theorem lowerLetter_eq_iff {c d : Char} (plain : isPlain d = true) :
    lowerLetter c = [d] ↔ c.toLower = d := by
  unfold lowerLetter
  split
  · next hdotted =>
    obtain rfl : c = 'İ' := by simpa using hdotted
    constructor
    · simp
    · rintro rfl
      exact absurd plain (by decide)
  · split
    · next r hfind =>
      obtain ⟨hinside, hr⟩ := And.intro (List.find?_some hfind) (List.mem_of_find?_eq_some hfind)
      simp only [Bool.and_eq_true, decide_eq_true_eq, beq_iff_eq] at hinside
      rw [List.cons.injEq, ofNat_shift_eq_iff hr plain hinside.1.1 hinside.1.2]
      simp
    · next hfind =>
      have houtside : ¬ (0x41 ≤ c.toNat ∧ c.toNat ≤ 0x5A) := by
        have hascii : (⟨0x41, 0x5A, 1, 32⟩ : CaseRun) ∈ caseRuns := List.mem_cons_self ..
        have h := List.find?_eq_none.mp hfind _ hascii
        simpa [Nat.mod_one] using h
      have hlower : c.toLower = c := by
        rw [← Char.toNat_inj, toNat_toLower, if_neg houtside]
      simp [hlower]

theorem lowerLetter_append_eq_iff {c d : Char} {rest word : List Char}
    (plain : (d :: word).all isPlain = true) :
    lowerLetter c ++ rest = d :: word ↔ c.toLower = d ∧ rest = word := by
  obtain ⟨hd, hword⟩ : isPlain d = true ∧ word.all isPlain = true := by simpa using plain
  rw [← lowerLetter_eq_iff hd]
  by_cases hdotted : c = 'İ'
  · have hform : lowerLetter c = ['i', '\u0307'] := by simp [lowerLetter, hdotted]
    rw [hform]
    constructor
    · intro h
      obtain ⟨rfl, rfl⟩ : 'i' = d ∧ '\u0307' :: rest = word := by simpa using h
      exact absurd (List.all_eq_true.mp hword _ (List.mem_cons_self ..)) (by decide)
    · simp
  · obtain ⟨form, hform⟩ : ∃ form, lowerLetter c = [form] := by
      rw [lowerLetter, if_neg (by simpa using hdotted)]
      split <;> exact ⟨_, rfl⟩
    simp [hform]

theorem lowerAfter_cons_ne_nil (before : List Char) (c : Char) (cs : List Char) :
    lowerAfter before (c :: cs) ≠ [] := by
  have hletter : lowerLetter c ≠ [] := by
    unfold lowerLetter
    split
    · simp
    · split <;> simp
  rw [lowerAfter]
  split
  · split <;> simp
  · simp [hletter]

/-- One character more, whatever stands before it. -/
theorem lowerAfter_cons_eq_iff {before cs word : List Char} {c d : Char}
    (plain : (d :: word).all isPlain = true) :
    lowerAfter before (c :: cs) = d :: word ↔
      c.toLower = d ∧ lowerAfter (c :: before) cs = word := by
  by_cases hsigma : c = 'Σ'
  · have hd : isPlain d = true := List.all_eq_true.mp plain d (List.mem_cons_self ..)
    have hother : ∀ x, isPlain x = false → x ≠ d := by
      rintro x hx rfl
      exact absurd (hx.symm.trans hd) (by decide)
    subst hsigma
    rw [lowerAfter, if_pos (beq_self_eq_true _)]
    split <;> simp [hother 'ς' rfl, hother 'σ' rfl, hother 'Σ' rfl]
  · rw [lowerAfter, if_neg (by simpa using hsigma), lowerLetter_append_eq_iff plain]

/-- **Lower-casing to plain letters.** A text has the lower-case form of a word of plain letters
exactly if it has that form in ASCII. -/
theorem lowercase_eq_iff {cs word : List Char} (plain : word.all isPlain = true) :
    lowercase cs = word ↔ cs.map Char.toLower = word := by
  suffices h : ∀ before, lowerAfter before cs = word ↔ cs.map Char.toLower = word from h []
  induction cs generalizing word with
  | nil => exact fun _ => Iff.rfl
  | cons c cs ih =>
    intro before
    cases word with
    | nil => simp [lowerAfter_cons_ne_nil]
    | cons d word =>
      have hword : word.all isPlain = true := (Bool.and_eq_true_iff.mp plain).2
      rw [lowerAfter_cons_eq_iff plain, ih hword, List.map_cons, List.cons.injEq]

/-- A text is one of the given names, in any letter case. -/
def Names (names : List String) (cs : List Char) : Prop :=
  String.ofList (cs.map Char.toLower) ∈ names

theorem isVisible_of_toLower {c : Char} (h : isVisible c.toLower = true) : isVisible c = true := by
  rw [isVisible_iff, toNat_toLower] at h
  rw [isVisible_iff]
  split at h <;> omega

theorem Names.visible {names : List String} {cs : List Char} (h : Names names cs)
    (visible : names.all (·.toList.all isVisible) = true) : cs.all isVisible = true := by
  have hname := List.all_eq_true.mp visible _ h
  rw [String.toList_ofList, List.all_map] at hname
  rw [List.all_eq_true] at hname ⊢
  exact fun c hc => isVisible_of_toLower (hname c hc)

/-- Lower-casing finds the names that consist of plain letters. -/
theorem lowercase_mem_iff {names : List String} (plain : names.all (·.toList.all isPlain) = true)
    {cs : List Char} : String.ofList (lowercase cs) ∈ names ↔ Names names cs := by
  have hname : ∀ name ∈ names, String.ofList (lowercase cs) = name ↔
      String.ofList (cs.map Char.toLower) = name := by
    intro name hmem
    rw [← String.toList_inj, ← String.toList_inj, String.toList_ofList, String.toList_ofList]
    exact lowercase_eq_iff (List.all_eq_true.mp plain name hmem)
  constructor
  · intro h
    rwa [Names, (hname _ h).mp rfl]
  · intro h
    rwa [(hname _ h).mpr rfl]

end Text

/-! ## Numerals -/

def IsNumeral (cs : List Char) : Prop := cs ≠ [] ∧ cs.all Char.isDigit = true

def signs : List (List Char) := [[], ['+'], ['-']]

theorem isVisible_of_isDigit {c : Char} (h : c.isDigit = true) : isVisible c = true := by
  rw [isDigit_iff] at h
  rw [isVisible_iff]
  omega

theorem visible_of_digits {cs : List Char} (h : cs.all Char.isDigit = true) :
    cs.all isVisible = true := by
  rw [List.all_eq_true] at h ⊢
  exact fun c hc => isVisible_of_isDigit (h c hc)

theorem visible_of_mem_signs {sign : List Char} (h : sign ∈ signs) : sign.all isVisible = true :=
  List.all_eq_true.mp (show signs.all (·.all isVisible) = true by decide) sign h

namespace Numeral

theorem read?_isSome {cs : List Char} : (read? cs).isSome ↔ IsNumeral cs := by
  simp [read?, IsNumeral]

/-- Cutting off the sign, for texts that by themselves do not start with one. -/
theorem splitSign_iff {P : List Char → Prop} (plus : ∀ cs, ¬ P ('+' :: cs))
    (minus : ∀ cs, ¬ P ('-' :: cs)) {cs : List Char} :
    P (splitSign cs).2 ↔ ∃ sign ∈ signs, ∃ body, cs = sign ++ body ∧ P body := by
  constructor
  · intro h
    unfold splitSign at h
    split at h
    · exact ⟨['+'], by simp [signs], _, rfl, h⟩
    · exact ⟨['-'], by simp [signs], _, rfl, h⟩
    · exact ⟨[], by simp [signs], _, rfl, h⟩
  · rintro ⟨sign, hsign, body, rfl, hbody⟩
    obtain rfl | rfl | rfl : sign = [] ∨ sign = ['+'] ∨ sign = ['-'] := by simpa [signs] using hsign
    · rw [List.nil_append]
      unfold splitSign
      split
      · exact absurd hbody (plus _)
      · exact absurd hbody (minus _)
      · exact hbody
    · exact hbody
    · exact hbody

/-- A count: a numeral of at most 64 bits, with a plus sign before it or none. -/
inductive CountWord : List Char → Prop
  | mk {sign ds : List Char} (hsign : sign = [] ∨ sign = ['+']) (numeral : IsNumeral ds)
      (bound : value ds ≤ word) : CountWord (sign ++ ds)

theorem CountWord.visible {cs : List Char} (h : CountWord cs) : cs.all isVisible = true := by
  obtain ⟨hsign, numeral, _⟩ := h
  rw [List.all_append, visible_of_digits numeral.2, Bool.and_true]
  rcases hsign with rfl | rfl <;> rfl

theorem filter_read?_isSome {cs : List Char} :
    ((read? cs).filter (· ≤ word)).isSome ↔ IsNumeral cs ∧ value cs ≤ word := by
  by_cases h : IsNumeral cs
  · have hread : read? cs = some (value cs) := by simp [read?, h.1, h.2]
    simp [hread, h]
  · have hread : read? cs = none := by
      rw [← Option.not_isSome_iff_eq_none, read?_isSome]
      exact h
    simp [hread, h]

theorem not_isNumeral_cons {c : Char} (h : c.isDigit = false) (cs : List Char) :
    ¬ IsNumeral (c :: cs) := by
  simp [IsNumeral, h]

theorem readUpTo?_isSome {cs : List Char} : (readUpTo? word cs).isSome ↔ CountWord cs := by
  constructor
  · intro h
    unfold readUpTo? at h
    split at h
    · obtain ⟨numeral, bound⟩ := filter_read?_isSome.mp h
      exact .mk (.inr rfl) numeral bound
    · obtain ⟨numeral, bound⟩ := filter_read?_isSome.mp h
      exact .mk (.inl rfl) numeral bound
  · rintro ⟨rfl | rfl, numeral, bound⟩
    · rw [List.nil_append]
      unfold readUpTo?
      split
      · exact absurd numeral (not_isNumeral_cons rfl _)
      · exact filter_read?_isSome.mpr ⟨numeral, bound⟩
    · exact filter_read?_isSome.mpr ⟨numeral, bound⟩

end Numeral

/-! ## Real numbers -/

namespace Binary64

inductive Mantissa : List Char → Prop
  | whole {ds : List Char} (numeral : IsNumeral ds) : Mantissa ds
  | point {ds es : List Char} (numeral : IsNumeral (ds ++ es)) : Mantissa (ds ++ '.' :: es)

/-- The power of ten after the digits, which may be left out. -/
inductive Exponent : List Char → Prop
  | absent : Exponent []
  | marked {mark : Char} {sign ds : List Char} (hmark : mark = 'e' ∨ mark = 'E')
      (hsign : sign ∈ signs) (numeral : IsNumeral ds) : Exponent (mark :: (sign ++ ds))

/-- A number without a sign: a decimal, or a name of infinity or of no number. -/
inductive Unsigned : List Char → Prop
  | decimal {digits exponent : List Char} (mantissa : Mantissa digits) (power : Exponent exponent) :
      Unsigned (digits ++ exponent)
  | named {name : List Char} (names : Text.Names ["inf", "infinity", "nan"] name) : Unsigned name

/-- A real number: a sign, which may be left out, and a number without one. -/
inductive RealWord : List Char → Prop
  | mk {sign body : List Char} (hsign : sign ∈ signs) (unsigned : Unsigned body) :
      RealWord (sign ++ body)

theorem Mantissa.visible {cs : List Char} (h : Mantissa cs) : cs.all isVisible = true := by
  cases h with
  | whole numeral => exact visible_of_digits numeral.2
  | point numeral =>
    have hpoint : isVisible '.' = true := rfl
    simpa [hpoint] using visible_of_digits numeral.2

theorem Exponent.visible {cs : List Char} (h : Exponent cs) : cs.all isVisible = true := by
  cases h with
  | absent => rfl
  | marked hmark hsign numeral =>
    rw [List.all_cons, List.all_append, visible_of_mem_signs hsign, visible_of_digits numeral.2]
    rcases hmark with rfl | rfl <;> rfl

theorem RealWord.visible {cs : List Char} (h : RealWord cs) : cs.all isVisible = true := by
  obtain ⟨hsign, unsigned⟩ := h
  rw [List.all_append, visible_of_mem_signs hsign, Bool.true_and]
  cases unsigned with
  | decimal mantissa power => rw [List.all_append, mantissa.visible, power.visible, Bool.and_true]
  | named names => exact names.visible (by decide)

/-- A text that goes on after a run of digits, and not with another digit. -/
def EndsDigits (rest : List Char) : Prop := ∀ c ∈ rest.head?, c.isDigit = false

theorem takeWhile_digits {ds rest : List Char} (digits : ds.all Char.isDigit = true)
    (ends : EndsDigits rest) : (ds ++ rest).takeWhile Char.isDigit = ds := by
  rw [List.takeWhile_append_of_pos (List.all_eq_true.mp digits)]
  cases rest with
  | nil => simp
  | cons c rest => simp [ends c rfl]

theorem dropWhile_digits {ds rest : List Char} (digits : ds.all Char.isDigit = true)
    (ends : EndsDigits rest) : (ds ++ rest).dropWhile Char.isDigit = rest := by
  rw [List.dropWhile_append_of_pos (List.all_eq_true.mp digits)]
  cases rest with
  | nil => rfl
  | cons c rest => simp [ends c rfl]

theorem exists_digits (cs : List Char) :
    ∃ ds rest, cs = ds ++ rest ∧ ds.all Char.isDigit = true ∧ EndsDigits rest := by
  refine ⟨cs.takeWhile Char.isDigit, cs.dropWhile Char.isDigit, ?_, List.all_takeWhile, ?_⟩
  · rw [List.takeWhile_append_dropWhile]
  · intro c hc
    have := List.head?_dropWhile_not Char.isDigit cs
    simp_all

theorem readExponent?_isSome {cs : List Char} :
    (readExponent? cs).isSome ↔ ∃ sign ∈ signs, ∃ ds, cs = sign ++ ds ∧ IsNumeral ds := by
  rw [← Numeral.splitSign_iff (Numeral.not_isNumeral_cons rfl) (Numeral.not_isNumeral_cons rfl),
    ← Numeral.read?_isSome]
  unfold readExponent?
  obtain ⟨negative, digits⟩ := Numeral.splitSign cs
  cases hread : Numeral.read? digits <;> simp [hread]

theorem Exponent.endsDigits {cs : List Char} (h : Exponent cs) : EndsDigits cs := by
  cases h with
  | absent => simp [EndsDigits]
  | marked hmark => rcases hmark with rfl | rfl <;> simp [EndsDigits]

theorem Exponent.ne_point {cs : List Char} (h : Exponent ('.' :: cs)) : False := by
  generalize htext : '.' :: cs = text at h
  cases h with
  | absent => cases htext
  | marked hmark => rcases hmark with rfl | rfl <;> cases htext

/-- The value of what follows the digits. -/
theorem exponent_isSome {rest : List Char} :
    (match rest with
      | [] => some 0
      | mark :: more => if mark == 'e' || mark == 'E' then readExponent? more else none).isSome ↔
      Exponent rest := by
  cases rest with
  | nil => simpa using Exponent.absent
  | cons mark more =>
    by_cases hmark : mark = 'e' ∨ mark = 'E'
    · simp only [Bool.or_eq_true, beq_iff_eq, hmark, if_true, readExponent?_isSome]
      constructor
      · rintro ⟨sign, hsign, ds, rfl, numeral⟩
        exact .marked hmark hsign numeral
      · rintro (_ | ⟨_, hsign, numeral⟩)
        exact ⟨_, hsign, _, rfl, numeral⟩
    · have hrefused : ¬ Exponent (mark :: more) := by
        rintro (_ | ⟨hmark', _, _⟩)
        exact hmark hmark'
      simpa [hmark] using hrefused

theorem readDecimal?_whole_isSome {ds rest : List Char} (digits : ds.all Char.isDigit = true)
    (ends : EndsDigits rest) (unpointed : ∀ more, rest ≠ '.' :: more) :
    (readDecimal? (ds ++ rest)).isSome ↔ ds ≠ [] ∧ Exponent rest := by
  simp only [readDecimal?, takeWhile_digits digits ends, dropWhile_digits digits ends]
  by_cases hempty : ds = []
  · simp [hempty]
  · simp only [List.append_nil, List.isEmpty_iff, hempty, if_false, Option.isSome_map]
    exact exponent_isSome.trans (and_iff_right hempty).symm

theorem readDecimal?_point_isSome {ds es rest : List Char}
    (digits : (ds ++ es).all Char.isDigit = true) (ends : EndsDigits rest) :
    (readDecimal? (ds ++ '.' :: (es ++ rest))).isSome ↔ ds ++ es ≠ [] ∧ Exponent rest := by
  have hpoint : EndsDigits ('.' :: (es ++ rest)) := by simp [EndsDigits]
  obtain ⟨hds, hes⟩ : ds.all Char.isDigit = true ∧ es.all Char.isDigit = true := by
    simpa using digits
  simp only [readDecimal?, takeWhile_digits hds hpoint, dropWhile_digits hds hpoint,
    takeWhile_digits hes ends, dropWhile_digits hes ends]
  by_cases hempty : ds ++ es = []
  · simp [hempty]
  · simp only [List.isEmpty_iff, hempty, if_false, Option.isSome_map]
    exact exponent_isSome.trans (and_iff_right hempty).symm

theorem readDecimal?_isSome {cs : List Char} :
    (readDecimal? cs).isSome ↔
      ∃ digits exponent, cs = digits ++ exponent ∧ Mantissa digits ∧ Exponent exponent := by
  constructor
  · intro h
    obtain ⟨ds, rest, rfl, hds, ends⟩ := exists_digits cs
    by_cases hpoint : ∃ more, rest = '.' :: more
    · obtain ⟨more, rfl⟩ := hpoint
      obtain ⟨es, rest, rfl, hes, ends'⟩ := exists_digits more
      have hdigits : (ds ++ es).all Char.isDigit = true := by rw [List.all_append, hds, hes]; rfl
      obtain ⟨present, power⟩ := (readDecimal?_point_isSome hdigits ends').mp h
      exact ⟨ds ++ '.' :: es, rest, by simp, .point ⟨present, hdigits⟩, power⟩
    · obtain ⟨present, power⟩ :=
        (readDecimal?_whole_isSome hds ends (fun more hmore => hpoint ⟨more, hmore⟩)).mp h
      exact ⟨ds, rest, rfl, .whole ⟨present, hds⟩, power⟩
  · rintro ⟨_, exponent, rfl, mantissa, power⟩
    cases mantissa with
    | whole numeral =>
      have hunpointed : ∀ more, exponent ≠ '.' :: more := by
        rintro more rfl
        exact power.ne_point
      exact (readDecimal?_whole_isSome numeral.2 power.endsDigits hunpointed).mpr ⟨numeral.1, power⟩
    | point numeral =>
      rw [List.append_assoc, List.cons_append]
      exact (readDecimal?_point_isSome numeral.2 power.endsDigits).mpr ⟨numeral.1, power⟩

theorem readWord?_isSome {negative : Bool} {cs : List Char} :
    (readWord? negative cs).isSome ↔ Text.Names ["inf", "infinity", "nan"] cs := by
  unfold readWord?
  split <;> simp_all [Text.Names]

theorem unsigned_iff {cs : List Char} (negative : Bool) :
    Unsigned cs ↔ (readDecimal? cs).isSome ∨ (readWord? negative cs).isSome := by
  rw [readDecimal?_isSome, readWord?_isSome]
  constructor
  · rintro (⟨mantissa, power⟩ | names)
    · exact .inl ⟨_, _, rfl, mantissa, power⟩
    · exact .inr names
  · rintro (⟨_, _, rfl, mantissa, power⟩ | names)
    · exact .decimal mantissa power
    · exact .named names

theorem not_unsigned {c : Char} (sign : c = '+' ∨ c = '-') (cs : List Char) :
    ¬ Unsigned (c :: cs) := by
  rw [unsigned_iff false, readWord?_isSome]
  rcases sign with rfl | rfl <;> simp [readDecimal?, Text.Names, ← String.toList_inj]

/-- **The texts of real numbers.** -/
theorem read?_isSome {cs : List Char} : (read? cs).isSome ↔ RealWord cs := by
  have hread : (read? cs).isSome ↔ Unsigned (Numeral.splitSign cs).2 := by
    rw [unsigned_iff (Numeral.splitSign cs).1, read?]
    obtain ⟨negative, body⟩ := Numeral.splitSign cs
    cases hdecimal : readDecimal? body <;> simp [hdecimal]
  rw [hread, Numeral.splitSign_iff (not_unsigned (.inl rfl)) (not_unsigned (.inr rfl))]
  constructor
  · rintro ⟨sign, hsign, body, rfl, unsigned⟩
    exact ⟨hsign, unsigned⟩
  · rintro ⟨hsign, unsigned⟩
    exact ⟨_, hsign, _, rfl, unsigned⟩

end Binary64

end PauliLowering
