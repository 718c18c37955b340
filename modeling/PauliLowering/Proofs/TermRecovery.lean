import PauliLowering.Proofs.BlockText
import PauliLowering.Proofs.TermSemantics

/-!
The circuit of a term determines the term.

The instructions after the central rotation bring Z on the pivot back to the term's string, up to a
sign (`letter_eq_of_instructions`), so two terms with the same instructions have the same symbols
(`symbols_eq_of_instructions`). Coefficient, parameter and multiplier stand in the rotation itself
(`Term.eq_of_circuit`).
-/

namespace PauliLowering

/-! ## Letters do not depend on the phase -/

theorem conjugate_letter_congr (i : Instruction) {s t : PauliString} (same : s.letter = t.letter) :
    (i.conjugate s).map PauliString.letter = (i.conjugate t).map PauliString.letter := by
  obtain ⟨phase, letter⟩ := s
  obtain ⟨phase', letter'⟩ := t
  obtain rfl : letter = letter' := same
  unfold Instruction.conjugate
  split
  · split <;> rfl
  · simp [Function.comp_def]
  · rfl

theorem PauliString.through_letter_congr (is : List Instruction) {s t : PauliString}
    (same : s.letter = t.letter) : (s.through is).map letter = (t.through is).map letter := by
  induction is generalizing s t with
  | nil => simp [same]
  | cons i is ih =>
    have hstep := conjugate_letter_congr i same
    cases hs : i.conjugate s with
    | none =>
      have ht : i.conjugate t = none := by simpa [hs] using hstep.symm
      simp [through, hs, ht]
    | some r =>
      obtain ⟨u, ht, hletter⟩ : ∃ u, i.conjugate t = some u ∧ u.letter = r.letter := by
        simpa [hs] using hstep.symm
      simpa [through, hs, ht] using ih hletter.symm

/-! ## Symbols -/

namespace Support

/-- A column beyond the last qubit is an identity if the pivot is a qubit. -/
theorem symbolBasis?_of_ge {position : Nat} {symbols : String} {s : Support} {q : Qubit}
    (hs : ofSymbols position symbols = .ok s) (hpivot : s.pivot? = some q.column) {i : Nat}
    (hi : 0x100000000 ≤ i) : symbolBasis? symbols.toList i = none := by
  cases hbasis : symbolBasis? symbols.toList i with
  | none => rfl
  | some b =>
    have hmem : i + 1 ∈ s.group b := (mem_group_ofSymbols hs b (i + 1)).mpr ⟨by omega, hbasis⟩
    have hle := ((pivot?_eq_some_iff (Made.ofSymbols hs).wellFormed).mp hpivot).2 b (i + 1) hmem
    have hlt := q.index_lt
    simp only [Qubit.column] at hle
    omega

theorem symbolBasis?_eq_of_letter {position position' : Nat} {symbols symbols' : String}
    {s s' : Support} (hs : ofSymbols position symbols = .ok s)
    (hs' : ofSymbols position' symbols' = .ok s') {q q' : Qubit} (hpivot : s.pivot? = some q.column)
    (hpivot' : s'.pivot? = some q'.column) (same : s.letter = s'.letter) (i : Nat) :
    symbolBasis? symbols.toList i = symbolBasis? symbols'.toList i := by
  rcases Nat.lt_or_ge i 0x100000000 with hlt | hge
  · have hletter := congrFun same ⟨i, hlt⟩
    simp only [letter, Qubit.column, basisOf?_ofSymbols hs, basisOf?_ofSymbols hs'] at hletter
    cases hb : symbolBasis? symbols.toList i with
    | none =>
      cases hb' : symbolBasis? symbols'.toList i with
      | none => rfl
      | some b' => cases b' <;> simp [hb, hb', Basis.pauli] at hletter
    | some b =>
      cases hb' : symbolBasis? symbols'.toList i with
      | none => cases b <;> simp [hb, hb', Basis.pauli] at hletter
      | some b' => cases b <;> cases b' <;> simp [hb, hb', Basis.pauli] at hletter ⊢
  · rw [symbolBasis?_of_ge hs hpivot hge, symbolBasis?_of_ge hs' hpivot' hge]

end Support

/-! ## Terms -/

section Recovery

variable {t u : Term} {numQubits : Nat} {multiplier multiplier' : Binary64} {c d : Circuit}

theorem Term.circuit_eq_ok (h : t.circuit numQubits multiplier = .ok c) :
    ∃ s, Support.ofSymbols t.position t.symbols = .ok s ∧ s.WellFormed ∧
      Circuit.synthesize t s numQubits multiplier = .ok c := by
  obtain ⟨s, hs, hc⟩ := bind_eq_ok.mp h
  exact ⟨s, hs, (Support.Made.ofSymbols hs).wellFormed, hc⟩

/-- The rotations at the center agree, and with them all that they hold. -/
theorem center_eq_of_instructions {s s' : Support} (hwf : s.WellFormed) (hwf' : s'.WellFormed)
    (hc : Circuit.synthesize t s numQubits multiplier = .ok c)
    (hd : Circuit.synthesize u s' numQubits multiplier' = .ok d)
    (same : c.instructions = d.instructions) :
    Instruction.rz (.term multiplier t.coefficient t.parameter) c.pivot =
      .rz (.term multiplier' u.coefficient u.parameter) d.pivot := by
  obtain ⟨_, _, _, _, _, hsplit⟩ := Circuit.exists_sides hwf hc
  obtain ⟨_, _, _, _, _, hsplit'⟩ := Circuit.exists_sides hwf' hd
  have hbefore : c.before = d.before := by rw [Circuit.before, Circuit.before, same]
  rw [hsplit, hsplit', hbefore] at same
  exact (List.cons.inj (List.append_cancel_left same)).1

theorem letter_eq_of_instructions {s s' : Support} (hwf : s.WellFormed) (hwf' : s'.WellFormed)
    (hc : Circuit.synthesize t s numQubits multiplier = .ok c)
    (hd : Circuit.synthesize u s' numQubits multiplier' = .ok d)
    (same : c.instructions = d.instructions) : s.letter = s'.letter := by
  have hpivot : c.pivot = d.pivot := by
    simpa [Instruction.rz]
      using (Instruction.mk.inj (center_eq_of_instructions hwf hwf' hc hd same)).2
  have hafter : c.after = d.after := by rw [Circuit.after, Circuit.after, same]
  -- Both strings come back from Z on the pivot, which the two circuits share up to its sign.
  have hback : (PauliString.single (s.x.length + s.y.length) c.pivot .Z).through c.after =
      some s.string := by
    simpa [Circuit.through_before hwf hc] using Circuit.through_before_after hwf hc s.string
  have hback' : (PauliString.single (s'.x.length + s'.y.length) d.pivot .Z).through d.after =
      some s'.string := by
    simpa [Circuit.through_before hwf' hd] using Circuit.through_before_after hwf' hd s'.string
  have hletters := PauliString.through_letter_congr c.after
    (s := .single (s.x.length + s.y.length) c.pivot .Z)
    (t := .single (s'.x.length + s'.y.length) d.pivot .Z) (by rw [hpivot]; rfl)
  rw [hback, hafter, hback'] at hletters
  exact Option.some.inj hletters

theorem symbols_eq_of_instructions (hc : t.circuit numQubits multiplier = .ok c)
    (hd : u.circuit numQubits multiplier' = .ok d) (hlength : t.numSymbols = u.numSymbols)
    (same : c.instructions = d.instructions) : t.symbols = u.symbols := by
  obtain ⟨s, hs, hwf, hsynth⟩ := Term.circuit_eq_ok hc
  obtain ⟨s', hs', hwf', hsynth'⟩ := Term.circuit_eq_ok hd
  have hletter := letter_eq_of_instructions hwf hwf' hsynth hsynth' same
  apply String.toList_inj.mp
  refine Support.symbols_eq_of_basis (Support.exists_ofSymbol?_of_ofSymbolsFrom hs)
    (Support.exists_ofSymbol?_of_ofSymbolsFrom hs') ?_ ?_
  · rw [String.length_toList, String.length_toList]
    exact hlength
  · exact Support.symbolBasis?_eq_of_letter hs hs' (Circuit.synthesize_eq_ok hsynth).1
      (Circuit.synthesize_eq_ok hsynth').1 hletter

/-- Terms with as many symbols whose circuits have the same position and the same instructions are
equal, and so are the multipliers. -/
theorem Term.eq_of_circuit (hc : t.circuit numQubits multiplier = .ok c)
    (hd : u.circuit numQubits multiplier' = .ok d) (hlength : t.numSymbols = u.numSymbols)
    (hposition : c.position = d.position) (same : c.instructions = d.instructions) :
    t = u ∧ multiplier = multiplier' := by
  have hsymbols := symbols_eq_of_instructions hc hd hlength same
  obtain ⟨s, _, hwf, hsynth⟩ := Term.circuit_eq_ok hc
  obtain ⟨s', _, hwf', hsynth'⟩ := Term.circuit_eq_ok hd
  have hcenter := center_eq_of_instructions hwf hwf' hsynth hsynth' same
  simp only [Instruction.rz, Instruction.mk.injEq, Gate.rz.injEq, Angle.term.injEq] at hcenter
  obtain ⟨⟨hmultiplier, hcoefficient, hparameter⟩, _⟩ := hcenter
  have hpositions : t.position = u.position := by
    rw [← (Circuit.synthesize_eq_ok hsynth).2.2.1, ← (Circuit.synthesize_eq_ok hsynth').2.2.1,
      hposition]
  exact ⟨Term.ext hpositions hsymbols hcoefficient hparameter, hmultiplier⟩

/-- The numbers in the circuit of a term are the multiplier and the coefficient. -/
theorem Term.circuit_finite (hc : t.circuit numQubits multiplier = .ok c)
    (finite : multiplier.isFinite = true) : c.Finite := by
  obtain ⟨s, _, hwf, hsynth⟩ := Term.circuit_eq_ok hc
  obtain ⟨own, ladder, _, hinstructions⟩ := Circuit.exists_layout hwf hsynth
  have henter : ∀ l : Leg, ∀ i ∈ l.enter, i.gate.Finite := by
    rintro ⟨basis, q⟩ i hi a ha
    cases basis <;> simp [Leg.enter] at hi <;> subst hi <;> cases ha <;> trivial
  have hleave : ∀ l : Leg, ∀ i ∈ l.leave, i.gate.Finite := by
    rintro ⟨basis, q⟩ i hi a ha
    cases basis <;> simp [Leg.leave] at hi <;> subst hi <;> cases ha <;> trivial
  have hcx : ∀ p q, (Instruction.cx p q).gate.Finite := by
    intro p q a ha
    cases ha
  have hcenter :
      ∀ q, (Instruction.rz (.term multiplier t.coefficient t.parameter) q).gate.Finite := by
    intro q a ha
    obtain rfl := Option.some.inj ha
    exact ⟨finite, t.coefficient_finite⟩
  intro i hi
  rw [hinstructions] at hi
  simp only [Circuit.climb, Circuit.descend, List.mem_append, List.mem_cons, List.mem_flatMap,
    List.mem_reverse, List.not_mem_nil, or_false] at hi
  rcases hi with (hi | ⟨l, _, hi | rfl⟩) | rfl | ⟨l, _, rfl | hi⟩ | hi
  · exact henter own i hi
  · exact henter l i hi
  · exact hcx _ _
  · exact hcenter _
  · exact hcx _ _
  · exact hleave l i hi
  · exact hleave own i hi

end Recovery

end PauliLowering
