import Mathlib.Data.List.DropRight
import PauliLowering.Proofs.TermLines

/-!
Which terms and which texts are lowered.

The pivot of a Pauli string is the column of its last symbol other than the identity
(`pivot?_ofSymbols`). From this each way in which lowering a term can end is known from its symbols
alone (`Term.lower_ending`). The terms of a text have positions of their own and symbols that fit
the register, so only the symbols decide whether a text that was read is lowered
(`not_possible_iff_lowerable`).
-/

namespace PauliLowering

/-! ## Symbols -/

def pauliLetters : List Char := ['I', 'X', 'Y', 'Z']

theorem mem_pauliLetters_iff {c : Char} : c ∈ pauliLetters ↔ ∃ p, Pauli.ofSymbol? c = some p := by
  simp only [Support.ofSymbol?_eq_some_iff]
  constructor
  · intro hc
    simp only [pauliLetters, List.mem_cons, List.not_mem_nil, or_false] at hc
    rcases hc with rfl | rfl | rfl | rfl
    · exact ⟨.I, rfl⟩
    · exact ⟨.X, rfl⟩
    · exact ⟨.Y, rfl⟩
    · exact ⟨.Z, rfl⟩
  · rintro ⟨p, rfl⟩
    cases p <;> decide

/-- The column of the last symbol other than the identity, 0 if there is none. -/
def lastColumn (symbols : List Char) : Nat := (symbols.rdropWhile (· == 'I')).length

theorem lastColumn_le (symbols : List Char) : lastColumn symbols ≤ symbols.length :=
  (List.rdropWhile_prefix _ symbols).length_le

theorem lastColumn_eq_zero_iff {symbols : List Char} :
    lastColumn symbols = 0 ↔ ∀ c ∈ symbols, c = 'I' := by
  rw [lastColumn, List.length_eq_zero_iff, List.rdropWhile_eq_nil_iff]
  simp

theorem lastColumn_concat (symbols : List Char) (c : Char) :
    lastColumn (symbols ++ [c]) = if c = 'I' then lastColumn symbols else symbols.length + 1 := by
  rw [lastColumn, List.rdropWhile_concat]
  by_cases hc : c = 'I'
  · simp [hc, lastColumn]
  · simp [hc]

theorem lt_lastColumn {symbols : List Char} {i : Nat} {c : Char} (hc : symbols[i]? = some c)
    (hne : c ≠ 'I') : i < lastColumn symbols := by
  induction symbols using List.reverseRecOn with
  | nil => simp at hc
  | append_singleton symbols d ih =>
    have hi : i < (symbols ++ [d]).length := (List.getElem?_eq_some_iff.mp hc).1
    rw [List.length_append, List.length_singleton] at hi
    rw [lastColumn_concat]
    split
    · next hd =>
      rcases Nat.lt_succ_iff_lt_or_eq.mp hi with hlt | rfl
      · exact ih (by rwa [List.getElem?_append_left hlt] at hc)
      · rw [List.getElem?_concat_length] at hc
        exact absurd ((Option.some.inj hc).symm.trans hd) hne
    · exact hi

theorem exists_lastColumn {symbols : List Char} (hpos : 0 < lastColumn symbols) :
    ∃ c, symbols[lastColumn symbols - 1]? = some c ∧ c ≠ 'I' := by
  induction symbols using List.reverseRecOn with
  | nil => simp [lastColumn] at hpos
  | append_singleton symbols d ih =>
    rw [lastColumn_concat] at hpos ⊢
    split
    · next hd =>
      rw [if_pos hd] at hpos
      obtain ⟨c, hc, hne⟩ := ih hpos
      have hlt : lastColumn symbols - 1 < symbols.length := (List.getElem?_eq_some_iff.mp hc).1
      exact ⟨c, by rwa [List.getElem?_append_left hlt], hne⟩
    · next hd => exact ⟨d, by simp, hd⟩

namespace Support

/-- The pivot of a Pauli string is its last column that is not the identity. -/
theorem pivot?_ofSymbols {position : Nat} {symbols : String} {s : Support}
    (h : ofSymbols position symbols = .ok s) :
    s.pivot? =
      if lastColumn symbols.toList = 0 then none else some (lastColumn symbols.toList) := by
  have hwf := (Made.ofSymbols h).wellFormed
  have hbelow : ∀ b, ∀ c ∈ s.group b, 0 < c ∧ c ≤ lastColumn symbols.toList := by
    intro b c hc
    obtain ⟨hpos, hbasis⟩ := (mem_group_ofSymbols h b c).mp hc
    have hlt := lt_lastColumn (symbolBasis?_eq_some_iff.mp hbasis) (symbol_ne_identity b)
    omega
  split
  · next hzero =>
    cases hpivot : s.pivot? with
    | none => rfl
    | some m =>
      obtain ⟨⟨b, hm⟩, _⟩ := (pivot?_eq_some_iff hwf).mp hpivot
      have := hbelow b m hm
      omega
  · next hzero =>
    obtain ⟨c, hc, hne⟩ := exists_lastColumn (Nat.pos_of_ne_zero hzero)
    obtain ⟨p, hp⟩ := exists_ofSymbol?_of_ofSymbolsFrom h c (List.mem_of_getElem? hc)
    refine (pivot?_eq_some_iff hwf).mpr ⟨?_, fun b c hc => (hbelow b c hc).2⟩
    obtain ⟨b, rfl⟩ := exists_basis_of_ne hp hne
    exact ⟨b, (mem_group_ofSymbols h b _).mpr
      ⟨Nat.pos_of_ne_zero hzero, symbolBasis?_eq_some_iff.mpr hc⟩⟩

theorem getD_pivot?_ofSymbols {position : Nat} {symbols : String} {s : Support}
    (h : ofSymbols position symbols = .ok s) : s.pivot?.getD 0 = lastColumn symbols.toList := by
  rw [pivot?_ofSymbols h]
  split
  · next hzero => rw [hzero, Option.getD_none]
  · rw [Option.getD_some]

/-- The first symbol that writes no operator is what a string is refused for. -/
theorem ofSymbolsFrom_eq_error {position column : Nat} {cs : List Char} {e : TermError}
    (h : ofSymbolsFrom position column cs = .error e) :
    ∃ front c back, cs = front ++ c :: back ∧ (∀ d ∈ front, d ∈ pauliLetters) ∧
      c ∉ pauliLetters ∧ e = .unsupportedSymbol position c (column + front.length) := by
  induction cs generalizing column with
  | nil => cases h
  | cons c cs ih =>
    rw [ofSymbolsFrom] at h
    cases hp : Pauli.ofSymbol? c with
    | none =>
      simp only [hp, Except.error.injEq] at h
      refine ⟨[], c, cs, rfl, by simp, ?_, h.symm⟩
      simp [mem_pauliLetters_iff, hp]
    | some p =>
      cases hrest : ofSymbolsFrom position (column + 1) cs with
      | ok s => simp [hp, hrest, Except.map] at h
      | error e' =>
        obtain rfl : e' = e := by simpa [hp, hrest, Except.map] using h
        obtain ⟨front, d, back, rfl, hfront, hd, rfl⟩ := ih hrest
        refine ⟨c :: front, d, back, rfl, ?_, hd, ?_⟩
        · exact List.forall_mem_cons.mpr ⟨mem_pauliLetters_iff.mpr ⟨p, hp⟩, hfront⟩
        · rw [List.length_cons, Nat.add_assoc, Nat.add_comm 1]

end Support

/-! ## Terms -/

namespace Term

/-- The ways in which lowering a term in a register of `numQubits` can end. -/
inductive Ending (numQubits : Nat) (t : Term) : Except TermError String → Prop
  | unsupported {front back : List Char} {c : Char} (split : t.symbols.toList = front ++ c :: back)
      (before : ∀ d ∈ front, d ∈ pauliLetters) (foreign : c ∉ pauliLetters) :
      Ending numQubits t (.error (.unsupportedSymbol t.position c (front.length + 1)))
  | empty (letters : ∀ d ∈ t.symbols.toList, d ∈ pauliLetters)
      (idle : lastColumn t.symbols.toList = 0) :
      Ending numQubits t (.error (.emptyOperator t.position))
  | outside (letters : ∀ d ∈ t.symbols.toList, d ∈ pauliLetters)
      (active : 0 < lastColumn t.symbols.toList)
      (far : numQubits < lastColumn t.symbols.toList ∨ 0x100000000 < lastColumn t.symbols.toList) :
      Ending numQubits t
        (.error (.qubitOutOfRange t.position (lastColumn t.symbols.toList) numQubits))
  | lowered {block : String} (letters : ∀ d ∈ t.symbols.toList, d ∈ pauliLetters)
      (active : 0 < lastColumn t.symbols.toList)
      (register : lastColumn t.symbols.toList ≤ numQubits)
      (index : lastColumn t.symbols.toList ≤ 0x100000000) : Ending numQubits t (.ok block)

theorem lower_ending (numQubits : Nat) (multiplier : Binary64) (t : Term) :
    t.Ending numQubits (t.lower numQubits multiplier) := by
  cases hs : Support.ofSymbols t.position t.symbols with
  | error e =>
    obtain ⟨front, c, back, hsplit, hfront, hc, rfl⟩ := Support.ofSymbolsFrom_eq_error hs
    have hlower : t.lower numQubits multiplier =
        .error (.unsupportedSymbol t.position c (1 + front.length)) := by
      rw [lower, circuit, support, hs]
      rfl
    rw [hlower, Nat.add_comm]
    exact .unsupported hsplit hfront hc
  | ok s =>
    have hletters : ∀ d ∈ t.symbols.toList, d ∈ pauliLetters := fun d hd =>
      mem_pauliLetters_iff.mpr (Support.exists_ofSymbol?_of_ofSymbolsFrom hs d hd)
    have hlower : t.lower numQubits multiplier =
        (Circuit.synthesize t s numQubits multiplier).map Circuit.block := by
      rw [lower, circuit, support, hs]
      rfl
    have hpivot := Support.pivot?_ofSymbols hs
    rw [hlower]
    by_cases hidle : lastColumn t.symbols.toList = 0
    · rw [if_pos hidle] at hpivot
      simp only [Circuit.synthesize, hpivot]
      exact .empty hletters hidle
    rw [if_neg hidle] at hpivot
    have hactive := Nat.pos_of_ne_zero hidle
    by_cases hregister : numQubits < lastColumn t.symbols.toList
    · simp only [Circuit.synthesize, hpivot, if_pos hregister]
      exact .outside hletters hactive (.inl hregister)
    by_cases hindex : 0x100000000 < lastColumn t.symbols.toList
    · have hqubit : Qubit.ofColumn? (lastColumn t.symbols.toList) = none := by
        rw [Qubit.ofColumn?, dif_neg]
        omega
      simp only [Circuit.synthesize, hpivot, if_neg hregister, hqubit]
      exact .outside hletters hactive (.inr hindex)
    · obtain ⟨c, hc⟩ := Circuit.synthesize_isOk t (Support.Made.ofSymbols hs).wellFormed hpivot
        (Nat.le_of_not_lt hregister) (Nat.le_of_not_lt hindex) multiplier
      rw [hc]
      exact .lowered hletters hactive (Nat.le_of_not_lt hregister) (Nat.le_of_not_lt hindex)

end Term

/-- A Pauli string that acts on some qubit, and on none past the last one that has an index. -/
structure Lowerable (symbols : List Char) : Prop where
  letters : ∀ c ∈ symbols, c ∈ pauliLetters
  active : ∃ c ∈ symbols, c ≠ 'I'
  index : lastColumn symbols ≤ 0x100000000

theorem lowerable_iff_all (symbols : List Char) :
    Lowerable symbols ↔ symbols.all pauliLetters.contains ∧ symbols.any (· != 'I') ∧
      lastColumn symbols ≤ 0x100000000 := by
  simp only [List.all_eq_true, List.contains_iff_mem, List.any_eq_true, bne_iff_ne]
  exact ⟨fun h => ⟨h.letters, h.active, h.index⟩, fun h => ⟨h.1, h.2.1, h.2.2⟩⟩

-- Through `all` and `any`: the bounded quantifiers could also be decided over all of `Char`.
instance (symbols : List Char) : Decidable (Lowerable symbols) :=
  decidable_of_iff' _ (lowerable_iff_all symbols)

theorem exists_active_iff {symbols : List Char} :
    (∃ c ∈ symbols, c ≠ 'I') ↔ 0 < lastColumn symbols := by
  rw [Nat.pos_iff_ne_zero, ne_eq, lastColumn_eq_zero_iff]
  simp

theorem Term.lastColumn_le_of_uniform {numQubits : Nat} {t : Term}
    (uniform : t.numSymbols = numQubits) : lastColumn t.symbols.toList ≤ numQubits := by
  rw [← uniform, numSymbols, ← String.length_toList]
  exact lastColumn_le _

/-- In a register with a qubit for each symbol the symbols alone decide. -/
theorem Term.lower_isOk_iff {numQubits : Nat} {t : Term} (uniform : t.numSymbols = numQubits)
    (multiplier : Binary64) :
    (∃ block, t.lower numQubits multiplier = .ok block) ↔ Lowerable t.symbols.toList := by
  have hregister := lastColumn_le_of_uniform uniform
  have hending := t.lower_ending numQubits multiplier
  generalize t.lower numQubits multiplier = result at hending ⊢
  cases hending with
  | unsupported split before foreign =>
    refine ⟨fun ⟨_, h⟩ => (nomatch h), fun h => absurd (h.letters _ ?_) foreign⟩
    rw [split]
    exact List.mem_append_right _ List.mem_cons_self
  | empty letters idle =>
    refine ⟨fun ⟨_, h⟩ => (nomatch h), fun h => ?_⟩
    have hactive := exists_active_iff.mp h.active
    omega
  | outside letters active far =>
    refine ⟨fun ⟨_, h⟩ => (nomatch h), fun h => ?_⟩
    have hindex := h.index
    omega
  | lowered letters active register index =>
    exact ⟨fun _ => ⟨letters, exists_active_iff.mpr active, index⟩, fun _ => ⟨_, rfl⟩⟩

/-! ## Texts -/

section Texts

variable {text : String} {h : Hamiltonian}

/-- The terms of a text have the first fields of its lines as symbols. -/
theorem forall_lines_iff (readable : Hamiltonian.read text = .ok h) (P : List Char → Prop) :
    (∀ line ∈ Text.lines text.toList, ∃ symbols ∈ (Text.fields line).head?, P symbols) ↔
      ∀ t ∈ h.terms, P t.symbols.toList := by
  have hread := Hamiltonian.read_eq_ok readable
  constructor
  · intro hlines t ht
    obtain ⟨i, line, hline, hterm⟩ := Term.exists_line_of_mem hread ht
    obtain ⟨symbols, hsymbols, hP⟩ := hlines line (List.mem_of_getElem? hline)
    have hfield := (Term.read_eq_ok hterm).2
    obtain rfl := Option.some.inj (hsymbols.symm.trans hfield)
    exact hP
  · intro hterms line hline
    obtain ⟨t, ht, p, hterm⟩ := Term.exists_term_of_mem hread hline
    exact ⟨t.symbols.toList, (Term.read_eq_ok hterm).2, hterms t ht⟩

theorem not_possible_iff_lowerable (readable : Hamiltonian.read text = .ok h)
    (multiplier : Binary64) :
    (∀ e, ¬ PossibleError (Term.lower h.numQubits multiplier) h.terms e) ↔
      ∀ line ∈ Text.lines text.toList, ∃ symbols ∈ (Text.fields line).head?, Lowerable symbols := by
  obtain ⟨_, hnumbered⟩ := Numbered.read readable
  rw [not_possible_iff, and_iff_left (nodup_positions hnumbered.ascending),
    forall_lines_iff readable]
  exact forall₂_congr fun t ht => Term.lower_isOk_iff (hnumbered.uniform t ht) multiplier

theorem column_of_possible_outOfRange (readable : Hamiltonian.read text = .ok h)
    {multiplier : Binary64} {position column numQubits : Nat}
    (possible : PossibleError (Term.lower h.numQubits multiplier) h.terms
      (.term (.qubitOutOfRange position column numQubits))) :
    0x100000000 < column ∧ ∃ i line, position = i + 1 ∧ (Text.lines text.toList)[i]? = some line ∧
      ∃ symbols ∈ (Text.fields line).head?, lastColumn symbols = column := by
  obtain ⟨_, hnumbered⟩ := Numbered.read readable
  cases possible with
  | @term t _ mem failed =>
    have hending := t.lower_ending h.numQubits multiplier
    rw [failed] at hending
    cases hending with
    | outside letters active far =>
      have hregister := Term.lastColumn_le_of_uniform (hnumbered.uniform t mem)
      obtain ⟨i, line, hline, hterm⟩ :=
        Term.exists_line_of_mem (Hamiltonian.read_eq_ok readable) mem
      obtain ⟨hposition, hfield⟩ := Term.read_eq_ok hterm
      exact ⟨by omega, i, line, by omega, hline, _, hfield, rfl⟩

end Texts

/-- **Which texts are lowered.** A text that was read is lowered to a program, in either execution
mode and under any schedule, exactly if the first field of every line is a Pauli string of the four
letters with some symbol other than the identity, the last of them at column 2^32 or before. A
shared position is never the error, and a qubit is out of range only on a line whose last such
column lies beyond 2^32. -/
theorem text_lowered_iff {text : String} {h : Hamiltonian}
    (readable : Hamiltonian.read text = .ok h) {settings : Settings}
    (valid : settings.validate = .ok ()) {o : Except LoweringError String}
    (outcome : h.Outcome settings o) :
    ((∃ program, o = .ok program) ↔
      ∀ line ∈ Text.lines text.toList, ∃ symbols ∈ (Text.fields line).head?, Lowerable symbols) ∧
    (∀ position, o ≠ .error (.duplicatePosition position)) ∧
    ∀ position column numQubits, o = .error (.term (.qubitOutOfRange position column numQubits)) →
      0x100000000 < column ∧ ∃ i line, position = i + 1 ∧ (Text.lines text.toList)[i]? = some line ∧
        ∃ symbols ∈ (Text.fields line).head?, lastColumn symbols = column := by
  refine ⟨?_, ?_, ?_⟩
  · rw [← not_possible_iff_lowerable readable settings.angleMultiplier]
    exact outcome.isOk_iff valid
  · intro position herror
    obtain ⟨_, hnumbered⟩ := Numbered.read readable
    exact not_possible_duplicate (nodup_positions hnumbered.ascending) position
      (outcome.possible_of_error valid herror)
  · intro position column numQubits herror
    exact column_of_possible_outOfRange readable (outcome.possible_of_error valid herror)

theorem text_lowered_iff_two :
    (∃ h, Hamiltonian.read "ZIX 0.5 0\nIYI -2 1\n" = .ok h ∧
      ∃ program, h.program {} = .ok program) ∧
      ∃ h, Hamiltonian.read "ZIX 0.5 0\nIII -2 1\n" = .ok h ∧
        ¬ ∃ program, h.program { execution := .sequential } = .ok program := by
  obtain ⟨h, hread⟩ : ∃ h, Hamiltonian.read "ZIX 0.5 0\nIYI -2 1\n" = .ok h :=
    exists_ok_of_toOption (by decide +kernel)
  obtain ⟨h', hread'⟩ : ∃ h, Hamiltonian.read "ZIX 0.5 0\nIII -2 1\n" = .ok h :=
    exists_ok_of_toOption (by decide +kernel)
  refine ⟨⟨h, hread, ?_⟩, h', hread', ?_⟩
  · exact (text_lowered_iff hread rfl .direct).1.mpr (by decide +kernel)
  · intro hprogram
    exact absurd ((text_lowered_iff hread' rfl .direct).1.mp hprogram) (by decide +kernel)

end PauliLowering
