import PauliLowering.Proofs.LoweringDomain

/-!
What lowering one term gives.

`Term.refusal?` reads from the symbols and the size of the register what a term is refused for: a
foreign symbol, then no operator at all, then a last column outside. Lowering gives this error, or a
block (`Ending.eq_error_iff`). Identities at the end of the string and a larger register change
neither the support (`ofSymbolsFrom_append_identities`) nor the circuit (`synthesize_of_register`).
-/

namespace PauliLowering

/-! ## Refusals -/

/-- The first symbol that writes no Pauli operator, with its column. -/
def firstForeign? (symbols : List Char) : Option (Char × Nat) :=
  (symbols.zipIdx 1).find? fun entry => !pauliLetters.contains entry.1

theorem firstForeign?_of_letters {symbols : List Char}
    (letters : ∀ c ∈ symbols, c ∈ pauliLetters) : firstForeign? symbols = none := by
  rw [firstForeign?, List.find?_eq_none]
  rintro ⟨c, column⟩ hmem
  simpa using letters c (List.fst_mem_of_mem_zipIdx hmem)

theorem firstForeign?_of_split {front back : List Char} {c : Char}
    (before : ∀ d ∈ front, d ∈ pauliLetters) (foreign : c ∉ pauliLetters) :
    firstForeign? (front ++ c :: back) = some (c, front.length + 1) := by
  have hfront := firstForeign?_of_letters before
  rw [firstForeign?] at hfront ⊢
  rw [List.zipIdx_append, List.find?_append, hfront, Option.none_or, List.zipIdx_cons,
    List.find?_cons_of_pos (by simpa using foreign), Nat.add_comm]

theorem all_identity_iff {symbols : List Char} :
    symbols.all (· == 'I') = true ↔ lastColumn symbols = 0 := by
  rw [lastColumn_eq_zero_iff, List.all_eq_true]
  simp only [beq_iff_eq]

namespace Term

/-- What a term is refused for in a register of `numQubits`: the first foreign symbol, else that
every symbol is the identity, else that the last other symbol has no qubit in the register. -/
def refusal? (numQubits : Nat) (t : Term) : Option TermError :=
  let symbols := t.symbols.toList
  let last := lastColumn symbols
  match firstForeign? symbols with
  | some (c, column) => some (.unsupportedSymbol t.position c column)
  | none =>
    if symbols.all (· == 'I') then some (.emptyOperator t.position)
    else if numQubits < last ∨ 0x100000000 < last then
      some (.qubitOutOfRange t.position last numQubits)
    else none

theorem position_of_refusal? {numQubits : Nat} {t : Term} {e : TermError}
    (h : t.refusal? numQubits = some e) : e.position = t.position := by
  unfold refusal? at h
  simp only at h
  split at h
  · obtain rfl := Option.some.inj h
    rfl
  · split_ifs at h
    all_goals
      obtain rfl := Option.some.inj h
      rfl

/-- However lowering ends, the refusal tells its error. -/
theorem Ending.eq_error_iff {numQubits : Nat} {t : Term} {result : Except TermError String}
    (h : t.Ending numQubits result) : ∀ e, result = .error e ↔ t.refusal? numQubits = some e := by
  intro e
  cases h with
  | unsupported split before foreign =>
    simp only [Term.refusal?, split, firstForeign?_of_split before foreign, Except.error.injEq,
      Option.some.injEq]
  | empty letters idle =>
    simp only [Term.refusal?, firstForeign?_of_letters letters, if_pos (all_identity_iff.mpr idle),
      Except.error.injEq, Option.some.injEq]
  | outside letters active far =>
    have hactive := mt all_identity_iff.mp (Nat.ne_of_gt active)
    simp only [Term.refusal?, firstForeign?_of_letters letters, if_neg hactive, if_pos far,
      Except.error.injEq, Option.some.injEq]
  | lowered letters active register index =>
    have hactive := mt all_identity_iff.mp (Nat.ne_of_gt active)
    have hinside : ¬ (numQubits < lastColumn t.symbols.toList ∨
        0x100000000 < lastColumn t.symbols.toList) := by omega
    simp only [Term.refusal?, firstForeign?_of_letters letters, if_neg hactive, if_neg hinside,
      reduceCtorEq]

end Term

/-- **The outcome of lowering a term.** A term is refused for its first foreign symbol, with the
column counted in characters; else, if every symbol is the identity, as empty; else, if its last
other symbol lies outside the register or past column 2^32, for that column. Otherwise there is a
block. The errors name the term's position, and once the pivot has a qubit no other column is out of
range. -/
theorem Term.lower_refused_iff (numQubits : Nat) (multiplier : Binary64) (t : Term) :
    (∀ e, t.lower numQubits multiplier = .error e ↔ t.refusal? numQubits = some e) ∧
    ((∃ block, t.lower numQubits multiplier = .ok block) ↔ t.refusal? numQubits = none) ∧
    (∀ e, t.lower numQubits multiplier = .error e → e.position = t.position) ∧
    ∀ s column pivot, t.support = .ok s → s.pivot? = some column →
      Qubit.ofColumn? column = some pivot → ∀ outside, ∃ ls, Circuit.legs outside s = .ok ls := by
  have herror := (t.lower_ending numQubits multiplier).eq_error_iff
  refine ⟨herror, ?_, ?_, ?_⟩
  · rw [← not_iff_not, ← exists_error_iff, ← ne_eq, Option.ne_none_iff_exists']
    exact exists_congr herror
  · intro e he
    exact position_of_refusal? ((herror e).mp he)
  · intro s column pivot hs hpivot hqubit outside
    obtain rfl := Qubit.ofColumn?_eq_some.mp hqubit
    exact Circuit.exists_legs_of_pivot outside (Support.Made.ofSymbols hs).wellFormed hpivot

def foreignTerm : Term := .first "XéqZ" (by decide)

def reachingTerm : Term := .first "IYIZII" (by decide)

/-- A symbol of several bytes is one column, and it is found before the last column is looked at.
The identities at the end need no qubit. -/
theorem Term.lower_refused_iff_samples :
    foreignTerm.lower 2 .half = .error (.unsupportedSymbol 1 'é' 2) ∧
      reachingTerm.lower 3 .half = .error (.qubitOutOfRange 1 4 3) ∧
      (∃ block, reachingTerm.lower 4 .half = .ok block) ∧
      ∃ ls, Circuit.legs (.emptyOperator 1) ⟨[], [2], [4]⟩ = .ok ls := by
  obtain ⟨hforeign, _⟩ := lower_refused_iff 2 .half foreignTerm
  obtain ⟨houtside, _⟩ := lower_refused_iff 3 .half reachingTerm
  obtain ⟨_, hblock, _, hlegs⟩ := lower_refused_iff 4 .half reachingTerm
  refine ⟨(hforeign _).mpr (by decide +kernel), (houtside _).mpr (by decide +kernel),
    hblock.mpr (by decide +kernel), ?_⟩
  exact hlegs ⟨[], [2], [4]⟩ 4 ⟨3, by decide⟩ rfl rfl rfl (.emptyOperator 1)

/-! ## Identities at the end of a string -/

namespace Support

theorem ofSymbolsFrom_identities (position column k : Nat) :
    ofSymbolsFrom position column (List.replicate k 'I') = .ok {} := by
  induction k generalizing column with
  | zero => rfl
  | succ k ih =>
    have hletter : Pauli.ofSymbol? 'I' = some .I := rfl
    simp only [List.replicate_succ, ofSymbolsFrom, hletter, ih, Except.map, cons]

theorem ofSymbolsFrom_append_identities (position column : Nat) (cs : List Char) (k : Nat) :
    ofSymbolsFrom position column (cs ++ List.replicate k 'I') =
      ofSymbolsFrom position column cs := by
  induction cs generalizing column with
  | nil => exact ofSymbolsFrom_identities position column k
  | cons c cs ih => simp only [List.cons_append, ofSymbolsFrom, ih]

end Support

namespace Circuit

variable {t u : Term} {s : Support} {numQubits : Nat} {multiplier : Binary64} {c : Circuit}

/-- The circuit of a term is the one of every term with the same support and the same other fields,
in every register that holds the pivot. -/
theorem synthesize_of_register (h : synthesize t s numQubits multiplier = .ok c)
    (hposition : u.position = t.position) (hcoefficient : u.coefficient = t.coefficient)
    (hparameter : u.parameter = t.parameter) {register : Nat}
    (hregister : c.pivot.column ≤ register) : synthesize u s register multiplier = .ok c := by
  obtain ⟨hpivot, _, hplace, ls, hls, hinstructions⟩ := synthesize_eq_ok h
  rw [synthesize_of_legs hpivot hregister hls, hposition, hcoefficient, hparameter, ← hplace,
    ← hinstructions]

end Circuit

namespace Term

/-- The checks of the other fields do not look at the symbols. -/
theorem make_symbols {position parameter : Nat} {symbols symbols' : String} {coefficient : Binary64}
    {t : Term} (h : make position symbols coefficient parameter = .ok t)
    (nonempty : symbols' ≠ "") :
    make position symbols' coefficient parameter =
      .ok { t with symbols := symbols', symbols_nonempty := nonempty } := by
  have hsymbols : symbols ≠ "" := (make_eq_ok h).2 ▸ t.symbols_nonempty
  simp only [make, hsymbols, nonempty, ↓reduceDIte] at h ⊢
  split_ifs at h ⊢
  all_goals
    obtain rfl := Except.ok.inj h
    rfl

/-- **Identities at the end of a string, and the size of the register, leave no trace.** If a term
is lowered to a block, then so is the term with `k` more identities at its end, in every register
that reaches to the last symbol other than the identity. -/
theorem lower_padded {position parameter : Nat} {symbols : String}
    {coefficient multiplier : Binary64} {n m : Nat} {block : String}
    (lowered : (make position symbols coefficient parameter >>= lower n multiplier) = .ok block)
    (register : lastColumn symbols.toList ≤ m) (k : Nat) :
    (make position (symbols ++ String.ofList (List.replicate k 'I')) coefficient parameter >>=
      lower m multiplier) = .ok block := by
  obtain ⟨t, hmake, hlower⟩ := bind_eq_ok.mp lowered
  obtain ⟨c, hcircuit, rfl⟩ := lower_eq_ok.mp hlower
  obtain ⟨s, hs, hc⟩ := bind_eq_ok.mp hcircuit
  obtain ⟨_, rfl⟩ := make_eq_ok hmake
  have hnonempty : t.symbols ++ String.ofList (List.replicate k 'I') ≠ "" := by
    simp [t.symbols_nonempty]
  have hpadded : Support.ofSymbols t.position (t.symbols ++ String.ofList (List.replicate k 'I')) =
      .ok s := by
    rw [Support.ofSymbols, String.toList_append, String.toList_ofList,
      Support.ofSymbolsFrom_append_identities]
    exact hs
  have hpivot : lastColumn t.symbols.toList = c.pivot.column := by
    rw [← Support.getD_pivot?_ofSymbols hs, (Circuit.synthesize_eq_ok hc).1, Option.getD_some]
  refine bind_eq_ok.mpr ⟨_, make_symbols hmake hnonempty, lower_eq_ok.mpr ⟨c, ?_, rfl⟩⟩
  refine bind_eq_ok.mpr ⟨s, hpadded, ?_⟩
  exact Circuit.synthesize_of_register hc rfl rfl rfl (hpivot ▸ register)

/-- The parameter 0 stands for the position, and the larger register is longer than the padded
string. -/
theorem lower_padded_xiz : ∃ block,
    (make 3 "XIZ" .half 0 >>= lower 3 .half) = .ok block ∧
      (make 3 "XIZII" .half 0 >>= lower 7 .half) = .ok block := by
  obtain ⟨block, hblock⟩ : ∃ block, (make 3 "XIZ" .half 0 >>= lower 3 .half) = .ok block :=
    exists_ok_of_toOption (by decide +kernel)
  exact ⟨block, hblock, lower_padded hblock (by decide +kernel) 2⟩

end Term

end PauliLowering
