import PauliLowering.Proofs.ParameterField
import PauliLowering.Proofs.TermLines

/-!
Terms written down in any layout are read back.

A blank keeps the fields on its two sides apart (`Text.fields_append_blank`), so only the runs
between blanks count. A line that ends with a line feed is read without it, and perhaps without a
carriage return (`Text.lines_ended`), which is a blank. So a text in any layout has the same fields
line by line (`gives_render`), and they are read as the terms it was written from
(`Hamiltonian.pushLines_of_gives`).
-/

namespace PauliLowering

/-! ## Fields and lines -/

namespace Text

theorem fields_cons_blank {c : Char} (blank : isBlank c = true) (cs : List Char) :
    fields (c :: cs) = fields cs := by
  rw [fields.eq_def]
  exact if_pos blank

theorem fields_cons_end {c d : Char} (hc : isBlank c = false) (hd : isBlank d = true)
    (cs : List Char) : fields (c :: d :: cs) = [c] :: fields cs := by
  rw [fields.eq_def]
  simp only [hc, fields_cons_blank hd]
  cases fields cs <;> simp [hd]

theorem fields_cons_inside {c d : Char} (hc : isBlank c = false) (hd : isBlank d = false)
    {cs f : List Char} {fs : List (List Char)} (h : fields (d :: cs) = f :: fs) :
    fields (c :: d :: cs) = (c :: f) :: fs := by
  rw [fields.eq_def]
  simp only [hc, h, hd]
  rfl

theorem exists_fields_cons {c : Char} (hc : isBlank c = false) (cs : List Char) :
    ∃ f fs, fields (c :: cs) = f :: fs := by
  rw [fields.eq_def]
  simp only [hc]
  cases cs with
  | nil => exact ⟨_, _, rfl⟩
  | cons d cs =>
    cases hd : isBlank d <;> cases fields (d :: cs) <;> simp [hd]

/-- A blank keeps the fields before it and after it apart. -/
theorem fields_append_blank (xs : List Char) {c : Char} (blank : isBlank c = true)
    (ys : List Char) : fields (xs ++ c :: ys) = fields xs ++ fields ys := by
  induction xs with
  | nil => exact fields_cons_blank blank ys
  | cons d xs ih =>
    cases hd : isBlank d with
    | true => rw [List.cons_append, fields_cons_blank hd, fields_cons_blank hd, ih]
    | false =>
      cases xs with
      | nil => simp [fields_cons_end hd blank, fields, hd]
      | cons e xs =>
        cases he : isBlank e with
        | true =>
          rw [List.cons_append, fields_cons_blank he, fields_cons_blank he] at ih
          rw [List.cons_append, List.cons_append, fields_cons_end hd he, fields_cons_end hd he, ih]
          rfl
        | false =>
          obtain ⟨f, fs, hfields⟩ := exists_fields_cons he xs
          rw [hfields] at ih
          rw [fields_cons_inside hd he hfields]
          exact fields_cons_inside hd he ih

theorem fields_word {w : List Char} (nonempty : w ≠ []) (unblank : ∀ c ∈ w, isBlank c = false) :
    fields w = [w] := by
  induction w with
  | nil => exact absurd rfl nonempty
  | cons c w ih =>
    obtain ⟨hc, hw⟩ := List.forall_mem_cons.mp unblank
    cases w with
    | nil => simp [fields, hc]
    | cons d w => exact fields_cons_inside hc (hw d List.mem_cons_self) (ih (by simp) hw)

theorem lines_cons_cons {c d : Char} (hc : c ≠ '\n') (hd : d ≠ '\n') {cs l : List Char}
    {ls : List (List Char)} (h : lines (d :: cs) = l :: ls) :
    lines (c :: d :: cs) = (c :: l) :: ls := by
  rw [lines, h]
  · exact hc
  · intro rest _ heq
    exact hd (List.cons.inj heq).1

/-- The line that a line feed ends. -/
theorem lines_ended {l : List Char} (feedless : '\n' ∉ l) :
    ∃ line, lines (l ++ ['\n']) = [line] ∧ (l = line ∨ l = line ++ ['\r']) := by
  induction l with
  | nil => exact ⟨[], rfl, .inl rfl⟩
  | cons c l ih =>
    obtain ⟨hc, hl⟩ : c ≠ '\n' ∧ '\n' ∉ l := by simpa [eq_comm] using feedless
    obtain ⟨line, hlines, hline⟩ := ih hl
    cases l with
    | nil =>
      by_cases hreturn : c = '\r'
      · exact ⟨[], by rw [hreturn]; rfl, .inr (by simp [hreturn])⟩
      · refine ⟨[c], ?_, .inl rfl⟩
        simp [lines, hreturn]
    | cons d l =>
      have hd : d ≠ '\n' := fun h => hl (by simp [h])
      refine ⟨c :: line, lines_cons_cons hc hd hlines, ?_⟩
      rcases hline with rfl | hline
      · exact .inl rfl
      · exact .inr (by rw [hline]; rfl)

theorem lines_of_feedless {l : List Char} (nonempty : l ≠ []) (feedless : '\n' ∉ l) :
    lines l = [l] := by
  induction l with
  | nil => exact absurd rfl nonempty
  | cons c l ih =>
    obtain ⟨hc, hl⟩ : c ≠ '\n' ∧ '\n' ∉ l := by simpa [eq_comm] using feedless
    cases l with
    | nil => simp [lines]
    | cons d l =>
      have hd : d ≠ '\n' := fun h => hl (by simp [h])
      exact lines_cons_cons hc hd (ih (by simp) hl)

theorem fields_blanks_append {ws : List Char} (blank : ∀ c ∈ ws, isBlank c = true)
    (cs : List Char) : fields (ws ++ cs) = fields cs := by
  induction ws with
  | nil => rfl
  | cons c ws ih =>
    obtain ⟨hc, hws⟩ := List.forall_mem_cons.mp blank
    rw [List.cons_append, fields_cons_blank hc, ih hws]

/-- A word ends at the first blank. -/
theorem fields_word_append {w rest : List Char} (nonempty : w ≠ [])
    (unblank : ∀ c ∈ w, isBlank c = false) (ends : ∀ c ∈ rest.head?, isBlank c = true) :
    fields (w ++ rest) = w :: fields rest := by
  cases rest with
  | nil => rw [List.append_nil, fields_word nonempty unblank, fields]
  | cons c rest =>
    have hc : isBlank c = true := ends c rfl
    rw [fields_append_blank w hc, fields_word nonempty unblank, fields_cons_blank hc]
    rfl

/-- A word and the blanks after it. -/
theorem fields_word_gap_append {w gap : List Char} (nonempty : w ≠ [])
    (unblank : ∀ c ∈ w, isBlank c = false) (blank : ∀ c ∈ gap, isBlank c = true) (wide : gap ≠ [])
    (cs : List Char) : fields (w ++ (gap ++ cs)) = w :: fields cs := by
  rw [fields_word_append nonempty unblank, fields_blanks_append blank]
  intro c hc
  rw [List.head?_append_of_ne_nil _ wide] at hc
  exact blank c (List.mem_of_mem_head? hc)

theorem fields_return (cs : List Char) : fields (cs ++ ['\r']) = fields cs := by
  rw [fields_append_blank cs (by decide), fields, List.append_nil]

theorem unblank_of_all {w : List Char} (h : w.all (fun c => !isBlank c) = true) :
    ∀ c ∈ w, isBlank c = false := by
  simpa using h

theorem feed_notMem {w : List Char} (unblank : ∀ c ∈ w, isBlank c = false) : '\n' ∉ w := by
  intro h
  exact absurd (unblank '\n' h) (by decide)

end Text

/-! ## Written terms and their layout -/

/-- A term as it is written down. The parameter 0 stands for the position. -/
structure WrittenTerm where
  symbols : String
  coefficient : String
  value : Binary64
  parameter : Nat
  symbols_nonempty : symbols ≠ ""
  symbols_unblank : ∀ c ∈ symbols.toList, Text.isBlank c = false
  coefficient_reads : Binary64.read? coefficient.toList = some value
  value_finite : value.isFinite = true
  value_nonzero : value.isZero = false
  parameter_le : parameter ≤ Numeral.word

/-- What stands around the fields of a line: blanks before the first one and between them, and after
the last one nothing, or a blank and any text. A line feed ends the line, with a carriage return
before it or none. -/
structure Spacing where
  before : List Char
  firstGap : List Char
  secondGap : List Char
  after : List Char
  carriageReturn : Bool
  blank : ∀ c ∈ before ++ firstGap ++ secondGap, Text.isBlank c = true
  firstGap_nonempty : firstGap ≠ []
  secondGap_nonempty : secondGap ≠ []
  after_blank : ∀ c ∈ after.head?, Text.isBlank c = true
  feedless : '\n' ∉ before ++ firstGap ++ secondGap ++ after

namespace Spacing

def ending (s : Spacing) : List Char := if s.carriageReturn then ['\r', '\n'] else ['\n']

end Spacing

namespace WrittenTerm

def line (w : WrittenTerm) (s : Spacing) : List Char :=
  s.before ++ (w.symbols.toList ++ (s.firstGap ++ (w.coefficient.toList ++
    (s.secondGap ++ (Numeral.digits w.parameter ++ s.after)))))

def term (w : WrittenTerm) (i : Nat) : Term where
  position := i + 1
  symbols := w.symbols
  coefficient := w.value
  parameter := if w.parameter = 0 then i + 1 else w.parameter
  position_pos := Nat.succ_pos i
  symbols_nonempty := w.symbols_nonempty
  coefficient_finite := w.value_finite
  coefficient_nonzero := w.value_nonzero
  parameter_pos := by split <;> omega

end WrittenTerm

/-- Terms line by line, each in its own spacing. The ending of the last line may be left out. -/
def render (final : Bool) : List (WrittenTerm × Spacing) → List Char
  | [] => []
  | [(w, s)] => w.line s ++ if final then s.ending else []
  | (w, s) :: p :: rest => w.line s ++ s.ending ++ render final (p :: rest)

/-- The fields of a line start with those of a written term. -/
def WrittenTerm.Gives (w : WrittenTerm) (line : List Char) : Prop :=
  ∃ more, Text.fields line =
    w.symbols.toList :: w.coefficient.toList :: Numeral.digits w.parameter :: more

/-! ## Lines of written terms -/

namespace WrittenTerm

variable (w : WrittenTerm) (s : Spacing)

theorem symbols_toList_nonempty : w.symbols.toList ≠ [] := by
  simpa using w.symbols_nonempty

theorem coefficient_word : Binary64.RealWord w.coefficient.toList :=
  Binary64.read?_isSome.mp (by rw [w.coefficient_reads]; rfl)

theorem coefficient_unblank : ∀ c ∈ w.coefficient.toList, Text.isBlank c = false := by
  intro c hc
  exact not_blank_of_visible (List.all_eq_true.mp w.coefficient_word.visible c hc)

theorem coefficient_nonempty : w.coefficient.toList ≠ [] := by
  intro hnil
  have hreads := w.coefficient_reads
  rw [hnil] at hreads
  cases hreads

theorem parameter_nonempty : Numeral.digits w.parameter ≠ [] := Nat.toDigits_ne_nil

theorem parameter_unblank : ∀ c ∈ Numeral.digits w.parameter, Text.isBlank c = false := by
  intro c hc
  exact not_blank_of_visible (isVisible_of_isDigit (Numeral.isDigit_of_mem_digits hc))

theorem fields_line : Text.fields (w.line s) =
    w.symbols.toList :: w.coefficient.toList :: Numeral.digits w.parameter ::
      Text.fields s.after := by
  obtain ⟨hbefore, hfirst, hsecond⟩ : (∀ c ∈ s.before, Text.isBlank c = true) ∧
      (∀ c ∈ s.firstGap, Text.isBlank c = true) ∧ ∀ c ∈ s.secondGap, Text.isBlank c = true := by
    simpa [or_imp, forall_and] using s.blank
  rw [line, Text.fields_blanks_append hbefore,
    Text.fields_word_gap_append w.symbols_toList_nonempty w.symbols_unblank hfirst
      s.firstGap_nonempty,
    Text.fields_word_gap_append w.coefficient_nonempty w.coefficient_unblank hsecond
      s.secondGap_nonempty,
    Text.fields_word_append w.parameter_nonempty w.parameter_unblank s.after_blank]

theorem feed_notMem_line : '\n' ∉ w.line s := by
  have hspacing := s.feedless
  simp only [List.mem_append, not_or] at hspacing
  simp only [line, List.mem_append, not_or]
  exact ⟨hspacing.1.1.1, Text.feed_notMem w.symbols_unblank, hspacing.1.1.2,
    Text.feed_notMem w.coefficient_unblank, hspacing.1.2, Text.feed_notMem w.parameter_unblank,
    hspacing.2⟩

theorem line_nonempty : w.line s ≠ [] := by
  simp [line, w.symbols_nonempty]

theorem gives_line : w.Gives (w.line s) := ⟨_, w.fields_line s⟩

/-- The ending takes away nothing but a carriage return, which belongs to no field. -/
theorem exists_ended_line : ∃ line, Text.lines (w.line s ++ s.ending) = [line] ∧ w.Gives line := by
  obtain ⟨l, hl, hfeed, hfields⟩ : ∃ l, w.line s ++ s.ending = l ++ ['\n'] ∧ '\n' ∉ l ∧
      Text.fields l = Text.fields (w.line s) := by
    cases hending : s.carriageReturn with
    | false => exact ⟨w.line s, by simp [Spacing.ending, hending], w.feed_notMem_line s, rfl⟩
    | true =>
      refine ⟨w.line s ++ ['\r'], by simp [Spacing.ending, hending], ?_, Text.fields_return _⟩
      simp [w.feed_notMem_line s]
  obtain ⟨line, hlines, hline⟩ := Text.lines_ended hfeed
  refine ⟨line, by rw [hl, hlines], Text.fields s.after, ?_⟩
  rw [← w.fields_line s, ← hfields]
  rcases hline with rfl | rfl
  · rfl
  · rw [Text.fields_return]

end WrittenTerm

theorem gives_render (final : Bool) (written : List (WrittenTerm × Spacing)) :
    List.Forall₂ (fun p line => WrittenTerm.Gives p.1 line) written
      (Text.lines (render final written)) := by
  fun_induction render final written with
  | case1 => exact .nil
  | case2 w s =>
    cases final with
    | false =>
      simp only [Bool.false_eq_true, if_false, List.append_nil]
      rw [Text.lines_of_feedless (w.line_nonempty s) (w.feed_notMem_line s)]
      exact .cons (w.gives_line s) .nil
    | true =>
      obtain ⟨line, hlines, hgives⟩ := w.exists_ended_line s
      simp only [if_true, hlines]
      exact .cons hgives .nil
  | case3 w s p rest ih =>
    obtain ⟨line, hlines, hgives⟩ := w.exists_ended_line s
    have hlast : (w.line s ++ s.ending).getLast? = some '\n' := by
      cases hending : s.carriageReturn <;> simp [Spacing.ending, hending]
    rw [Text.lines_append hlast, hlines]
    exact .cons hgives ih

/-! ## Reading written terms -/

theorem Term.readParameter_digits (position : Nat) {n : Nat} (bound : n ≤ Numeral.word) :
    readParameter position (Numeral.digits n) = .ok n := by
  have hdigits : (Numeral.digits n).all Char.isDigit = true :=
    List.all_eq_true.mpr fun _ => Numeral.isDigit_of_mem_digits
  have hsigned : Signed (Numeral.digits n) [] (Numeral.digits n) :=
    signed_of_head fun _ hc => Numeral.isDigit_of_mem_digits (List.mem_of_mem_head? hc)
  have hvalue : denoted ([] == ['-']) ((Numeral.digits n).takeWhile Char.isDigit) = n := by
    rw [List.takeWhile_eq_self_iff.mpr (List.all_eq_true.mp hdigits)]
    simp [denoted, Numeral.value_digits]
  rw [readParameter_of_numeral position hsigned ⟨Nat.toDigits_ne_nil, hdigits⟩]
  simp only [hvalue]
  rw [if_neg (by omega), if_neg (by omega), Int.toNat_natCast]

theorem WrittenTerm.Gives.read_eq {w : WrittenTerm} {line : List Char} (h : w.Gives line)
    (i : Nat) : Term.read (i + 1) line = .ok (w.term i) := by
  obtain ⟨more, hfields⟩ := h
  have hfinite : ¬ w.value.isFinite = false := by simp [w.value_finite]
  have hnonzero : ¬ w.value.isZero = true := by simp [w.value_nonzero]
  simp only [Term.read, hfields, w.coefficient_reads, Term.readParameter_digits _ w.parameter_le]
  show Term.make (i + 1) (String.ofList w.symbols.toList) w.value w.parameter = .ok (w.term i)
  rw [String.ofList_toList, Term.make, dif_neg (Nat.succ_ne_zero i), dif_neg w.symbols_nonempty,
    dif_neg hfinite, dif_neg hnonzero]
  rfl

namespace Hamiltonian

/-- A term with as many symbols as the register has qubits is pushed, and so is the first one. -/
theorem push_of_fits {h : Hamiltonian} {t : Term}
    (register : h.terms ≠ [] → h.numQubits = t.numSymbols) :
    h.push t = .ok ⟨t.numSymbols, h.terms ++ [t]⟩ := by
  unfold push
  split_ifs with hempty hlength
  · rw [List.isEmpty_iff.mp hempty]
    rfl
  · have hne : h.terms ≠ [] := fun hnil => hempty (by simp [hnil])
    exact absurd (register hne).symm hlength
  · rw [← Decidable.not_not.mp hlength]

/-- Lines that give terms of one width are pushed one after the other. -/
theorem pushLines_of_gives {written : List (WrittenTerm × Spacing)} {lines : List (List Char)}
    {width : Nat} (gives : List.Forall₂ (fun p line => WrittenTerm.Gives p.1 line) written lines)
    (uniform : ∀ p ∈ written, p.1.symbols.length = width) (i : Nat) {h : Hamiltonian}
    (register : h.terms ≠ [] → h.numQubits = width) :
    h.pushLines (i + 1) lines = .ok ⟨if written.isEmpty then h.numQubits else width,
      h.terms ++ written.mapIdx fun j p => p.1.term (i + j)⟩ := by
  induction gives generalizing i h with
  | nil => simp [pushLines]
  | @cons p line written lines hgives _ ih =>
    obtain ⟨hwidth, huniform⟩ := List.forall_mem_cons.mp uniform
    have hsymbols : (p.1.term i).numSymbols = width := hwidth
    have hpush := push_of_fits (t := p.1.term i) fun hne => (register hne).trans hsymbols.symm
    rw [hsymbols] at hpush
    have hrest := ih huniform (i + 1) (h := ⟨width, h.terms ++ [p.1.term i]⟩) fun _ => rfl
    rw [pushLines, hgives.read_eq i]
    simp only [bind, Except.bind, hpush, hrest]
    simp [Nat.add_assoc, Nat.add_comm 1]

/-- **Terms in any layout are read back.** Terms of one width are written down line by line, each
line with blanks of its own before the first field and between the fields, any text after a blank at
its end, and either ending, which the last line may lack. The text is read as these terms in their
order, with the positions 1, 2 and so on, and with the position in place of a parameter 0. -/
theorem read_render (written : List (WrittenTerm × Spacing)) (width : Nat)
    (uniform : ∀ p ∈ written, p.1.symbols.length = width) (final : Bool) :
    read (String.ofList (render final written)) =
      .ok ⟨if written.isEmpty then 0 else width, written.mapIdx fun i p => p.1.term i⟩ := by
  have hregister : empty.terms ≠ [] → empty.numQubits = width := fun hne => absurd rfl hne
  have hpushed := pushLines_of_gives (gives_render final written) uniform 0 hregister
  rw [read, String.toList_ofList, hpushed]
  simp [empty]

end Hamiltonian

theorem Binary64.isFinite_half : half.isFinite = true := by decide

theorem Binary64.isZero_half : half.isZero = false := by decide

def writtenXY : WrittenTerm where
  symbols := "XY"
  coefficient := "0.5"
  value := .half
  parameter := 0
  symbols_nonempty := by decide
  symbols_unblank := Text.unblank_of_all (by decide)
  coefficient_reads := by decide +kernel
  value_finite := Binary64.isFinite_half
  value_nonzero := Binary64.isZero_half
  parameter_le := Nat.zero_le _

def writtenZe : WrittenTerm where
  symbols := "Zé"
  coefficient := "5e-1"
  value := .half
  parameter := 7
  symbols_nonempty := by decide
  symbols_unblank := Text.unblank_of_all (by decide)
  coefficient_reads := by decide +kernel
  value_finite := Binary64.isFinite_half
  value_nonzero := Binary64.isZero_half
  parameter_le := by decide

/-- An ideographic space in front, a carriage return between the fields, and words at the end. -/
def wideSpacing : Spacing where
  before := ['\u3000']
  firstGap := ['\t']
  secondGap := ['\r', ' ']
  after := [' ', '8', ' ', 'x']
  carriageReturn := true
  blank := List.all_eq_true.mp (by decide)
  firstGap_nonempty := List.cons_ne_nil _ _
  secondGap_nonempty := List.cons_ne_nil _ _
  after_blank := by
    rintro c ⟨⟩
    decide
  feedless := by decide

/-- A carriage return at the end that is a part of the line. -/
def narrowSpacing : Spacing where
  before := []
  firstGap := [' ']
  secondGap := ['\u0085']
  after := ['\r']
  carriageReturn := false
  blank := List.all_eq_true.mp (by decide)
  firstGap_nonempty := List.cons_ne_nil _ _
  secondGap_nonempty := List.cons_ne_nil _ _
  after_blank := by
    rintro c ⟨⟩
    decide
  feedless := by decide

/-- The second line has no ending. -/
theorem Hamiltonian.read_render_unended :
    read "\u3000XY\t0.5\r 0 8 x\r\nZé 5e-1\u00857\r" =
        .ok ⟨2, [writtenXY.term 0, writtenZe.term 1]⟩ ∧
      (writtenXY.term 0).parameter = 1 ∧ (writtenZe.term 1).parameter = 7 := by
  refine ⟨?_, rfl, rfl⟩
  have htext : String.ofList
      (render false [(writtenXY, wideSpacing), (writtenZe, narrowSpacing)]) =
        "\u3000XY\t0.5\r 0 8 x\r\nZé 5e-1\u00857\r" := by decide +kernel
  rw [← htext, read_render _ 2 (by decide)]
  rfl

end PauliLowering
