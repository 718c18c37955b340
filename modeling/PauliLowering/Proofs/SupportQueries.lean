import Mathlib.Data.Finset.Card
import PauliLowering.Proofs.SupportInvariant

/-!
What the queries of a support answer.

The invariant of supports makes the three groups a partition of the columns acted on,
`Support.acted`. So the queries, which look at the ends and the lengths of the groups only, answer
for this set (`WellFormed.queries`). For the support of a Pauli string the basis of a column is the
one of the symbol in its place (`writes_ofSymbols`).
-/

namespace PauliLowering.Support

variable {s : Support}

/-! ## The columns acted on -/

def acted (s : Support) : Finset Nat := s.x.toFinset ∪ s.y.toFinset ∪ s.z.toFinset

theorem mem_acted {c : Nat} : c ∈ s.acted ↔ ∃ b, c ∈ s.group b := by
  simp only [acted, Finset.mem_union, List.mem_toFinset]
  constructor
  · rintro ((hc | hc) | hc)
    · exact ⟨.X, hc⟩
    · exact ⟨.Y, hc⟩
    · exact ⟨.Z, hc⟩
  · rintro ⟨_ | _ | _, hc⟩
    · exact .inl (.inl hc)
    · exact .inl (.inr hc)
    · exact .inr hc

theorem acted_eq_columns : s.acted = (s.columns.map Prod.snd).toFinset := by
  ext c
  simp [mem_acted, mem_columns]

/-- No column is counted twice. -/
theorem size_eq_card (h : s.WellFormed) : s.size = s.acted.card := by
  rw [acted_eq_columns, List.toFinset_card_of_nodup (nodup_columns h), List.length_map,
    length_columns]

/-! ## The queries -/

/-- The queries of a support answer for the columns acted on. -/
structure Queries (s : Support) : Prop where
  pivot : ∀ m, s.pivot? = some m ↔ m ∈ s.acted ∧ ∀ c ∈ s.acted, c ≤ m
  noPivot : s.pivot? = none ↔ s.acted = ∅
  identity : s.isIdentity = true ↔ s.acted = ∅
  size : s.size = s.acted.card
  basis : ∀ c b, s.basisOf? c = some b ↔ c ∈ s.group b

theorem pivot?_eq_none_iff (h : s.WellFormed) : s.pivot? = none ↔ s.acted = ∅ := by
  rw [Finset.eq_empty_iff_forall_notMem]
  constructor
  · intro hnone c hc
    obtain ⟨b, hb⟩ := mem_acted.mp hc
    obtain ⟨m, hm⟩ := exists_pivot? hb
    simp [hnone] at hm
  · intro hempty
    cases hpivot : s.pivot? with
    | none => rfl
    | some m => exact absurd (mem_acted.mpr ((pivot?_eq_some_iff h).mp hpivot).1) (hempty m)

theorem WellFormed.queries (h : s.WellFormed) : s.Queries where
  pivot m := by
    rw [pivot?_eq_some_iff h, mem_acted]
    simp only [mem_acted, forall_exists_index]
    exact and_congr_right fun _ => forall_comm
  noPivot := pivot?_eq_none_iff h
  identity := by rw [isIdentity, beq_iff_eq, size_eq_card h, Finset.card_eq_zero]
  size := size_eq_card h
  basis _ _ := basisOf?_eq_some_iff h

/-! ## Supports of Pauli strings -/

/-- The bases of a support are those that the symbols of a string write, each in its own column. -/
structure Writes (symbols : String) (s : Support) : Prop where
  symbol : ∀ i < symbols.length, ∃ p : Pauli,
    symbols.toList[i]? = some p.symbol ∧ s.basisOf? (i + 1) = p.basis?
  zero : s.basisOf? 0 = none
  beyond : ∀ c, symbols.length < c → s.basisOf? c = none

theorem writes_ofSymbols {position : Nat} {symbols : String}
    (h : ofSymbols position symbols = .ok s) : Writes symbols s where
  symbol i hi := by
    rw [← String.length_toList] at hi
    obtain ⟨p, hp⟩ := exists_ofSymbol?_of_ofSymbolsFrom h _ (List.getElem_mem hi)
    refine ⟨p, ?_, ?_⟩
    · rw [List.getElem?_eq_getElem hi, ofSymbol?_eq_some_iff.mp hp]
    · rw [basisOf?_ofSymbols h, symbolBasis?, List.getElem?_eq_getElem hi, Option.bind_some, hp,
        Option.bind_some]
  zero := basisOf?_zero (Made.ofSymbols h).wellFormed
  beyond c hc := by
    obtain ⟨i, rfl⟩ := Nat.exists_eq_succ_of_ne_zero (Nat.ne_of_gt (Nat.zero_lt_of_lt hc))
    rw [← String.length_toList] at hc
    rw [basisOf?_ofSymbols h, symbolBasis?, List.getElem?_eq_none (Nat.le_of_lt_succ hc)]
    rfl

/-- **The invariant of supports, and what their queries mean.** In every support that a Pauli string
or a list of groups gives, the groups ascend strictly from 1 on and share no column. So the pivot is
the largest column acted on, the size is the number of these columns, and the basis of a column is
the group that it is in. In the support of a Pauli string this is the basis that the symbol in the
column writes. -/
theorem made_queries (made : s.Made) : s.WellFormed ∧ s.Queries ∧
    ∀ position symbols, ofSymbols position symbols = .ok s → Writes symbols s := by
  have hwf := made.wellFormed
  refine ⟨hwf, hwf.queries, ?_⟩
  intro position symbols h
  exact writes_ofSymbols h

/-- Groups that are not listed in the order of the bases, and a string with an identity inside. -/
theorem made_queries_zx_ziyx :
    (WellFormed ⟨[3], [], [2, 5]⟩ ∧ Queries ⟨[3], [], [2, 5]⟩) ∧ Writes "ZIYX" ⟨[4], [3], [1]⟩ := by
  have hgroups : ofGroups 4 [(.Z, [2, 5]), (.X, [3])] = .ok ⟨[3], [], [2, 5]⟩ := rfl
  have hsymbols : ofSymbols 1 "ZIYX" = .ok ⟨[4], [3], [1]⟩ := rfl
  obtain ⟨hwf, hqueries, _⟩ := made_queries (.ofGroups hgroups)
  exact ⟨⟨hwf, hqueries⟩, (made_queries (.ofSymbols hsymbols)).2.2 1 "ZIYX" hsymbols⟩

end PauliLowering.Support
