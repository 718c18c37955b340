import PauliLowering.Proofs.Interleaving

/-!
A program lists the blocks of its terms in ascending order of position.

`Hamiltonian.Outcome` is what lowering to a program can end with, in either execution mode and under
any schedule of the workers. All terms being lowered at positions of their own is what rules out
every error (`not_possible_iff`). The order of the terms has no part in this: an outcome is a
program exactly if that lists the blocks by position (`Outcome.eq_ok_iff`).
-/

namespace PauliLowering

/-! ## Blocks in the order of their terms -/

theorem Blocks.values_eq (blocks : Blocks) : blocks.values = blocks.toList.map Prod.snd := by
  have hvalues : blocks.values = blocks.foldr (fun _ block rest => block :: rest) [] := rfl
  rw [hvalues, Std.TreeMap.foldr_eq_foldr_toList, List.map_eq_foldr]

/-- Each term with its circuit in a register of `numQubits`. -/
structure Lowers (numQubits : Nat) (multiplier : Binary64) (terms : List Term)
    (lowered : List (Term × Circuit)) : Prop where
  terms_eq : lowered.map Prod.fst = terms
  circuit : ∀ p ∈ lowered, p.1.circuit numQubits multiplier = .ok p.2

theorem exists_lowers {numQubits : Nat} {multiplier : Binary64} {terms : List Term}
    (h : ∀ t ∈ terms, ∃ c, t.circuit numQubits multiplier = .ok c) :
    ∃ lowered, Lowers numQubits multiplier terms lowered := by
  induction terms with
  | nil => exact ⟨[], rfl, by simp⟩
  | cons t ts ih =>
    obtain ⟨c, hc⟩ := h t List.mem_cons_self
    obtain ⟨lowered, hterms, hcircuit⟩ := ih fun u hu => h u (List.mem_cons_of_mem _ hu)
    exact ⟨(t, c) :: lowered, by simp [hterms], List.forall_mem_cons.mpr ⟨hc, hcircuit⟩⟩

section Lowers

variable {numQubits : Nat} {multiplier : Binary64} {terms : List Term}
  {lowered : List (Term × Circuit)}

/-- The blocks of terms in ascending order of position come out in the order of the terms. -/
theorem Lowers.values_eq (h : Lowers numQubits multiplier terms lowered)
    (ascending : terms.Pairwise fun t u => t.position < u.position) {blocks : Blocks}
    (exact : blocks.Exact (Term.lower numQubits multiplier) terms) :
    blocks.values = lowered.map fun p => p.2.block := by
  have hlist : blocks.toList = lowered.map fun p => (p.1.position, p.2.block) := by
    refine eq_of_ascending blocks.ascending_toList ?_ ?_
    · rw [← h.terms_eq, List.pairwise_map] at ascending
      rw [List.pairwise_map]
      exact ascending
    · rintro ⟨position, block⟩
      rw [Std.TreeMap.mem_toList_iff_getElem?_eq_some, exact position block, ← h.terms_eq]
      constructor
      · rintro ⟨t, ht, rfl, hblock⟩
        obtain ⟨p, hp, rfl⟩ := List.mem_map.mp ht
        rw [Term.lower, h.circuit p hp] at hblock
        exact List.mem_map.mpr ⟨p, hp, by rw [← Except.ok.inj hblock]⟩
      · intro hmem
        obtain ⟨p, hp, heq⟩ := List.mem_map.mp hmem
        obtain ⟨rfl, rfl⟩ := Prod.mk.inj heq
        refine ⟨p.1, List.mem_map_of_mem hp, rfl, ?_⟩
        rw [Term.lower, h.circuit p hp]
        rfl
  rw [Blocks.values_eq, hlist, List.map_map]
  rfl

end Lowers

/-! ## Terms that can be lowered together -/

theorem Term.lower_eq_ok {numQubits : Nat} {multiplier : Binary64} {t : Term} {block : String} :
    t.lower numQubits multiplier = .ok block ↔
      ∃ c, t.circuit numQubits multiplier = .ok c ∧ c.block = block := by
  rw [Term.lower]
  cases t.circuit numQubits multiplier <;> simp [Except.map]

theorem nodup_positions {terms : List Term}
    (ascending : terms.Pairwise fun t u => t.position < u.position) :
    (terms.map Term.position).Nodup := by
  rw [List.Nodup, List.pairwise_map]
  exact ascending.imp Nat.ne_of_lt

theorem not_possible_duplicate {lower : Term → Except TermError String} {terms : List Term}
    (distinct : (terms.map Term.position).Nodup) (position : Nat) :
    ¬ PossibleError lower terms (.duplicatePosition position) := by
  rintro (_ | shared)
  have hmono : (terms.countP fun t => t.position == position && (lower t).isOk) ≤
      (terms.map Term.position).count position := by
    rw [List.count, List.countP_map]
    exact List.countP_mono_left fun t _ ht => (Bool.and_eq_true_iff.mp ht).1
  have hone := List.nodup_iff_count_le_one.mp distinct position
  omega

/-- No error is possible exactly if every term is lowered and no two terms share a position. -/
theorem not_possible_iff {lower : Term → Except TermError String} {terms : List Term} :
    (∀ e, ¬ PossibleError lower terms e) ↔
      (∀ t ∈ terms, ∃ block, lower t = .ok block) ∧ (terms.map Term.position).Nodup := by
  constructor
  · intro hnone
    have hlowered : ∀ t ∈ terms, ∃ block, lower t = .ok block := by
      intro t ht
      cases hl : lower t with
      | ok block => exact ⟨block, rfl⟩
      | error e => exact absurd (.term ht hl) (hnone (.term e))
    refine ⟨hlowered, List.nodup_iff_count_le_one.mpr ?_⟩
    intro position
    have hcount : (terms.map Term.position).count position =
        terms.countP fun t => t.position == position && (lower t).isOk := by
      rw [List.count, List.countP_map]
      refine List.countP_congr fun t ht => ?_
      obtain ⟨block, hblock⟩ := hlowered t ht
      simp [hblock, Except.isOk, Except.toBool]
    have hfew : ¬ 2 ≤ (terms.map Term.position).count position := by
      rw [hcount]
      exact fun hshared => hnone _ (.duplicate hshared)
    omega
  · rintro ⟨hlowered, hdistinct⟩ e he
    cases he with
    | @term t e mem failed =>
      obtain ⟨block, hblock⟩ := hlowered t mem
      rw [hblock] at failed
      cases failed
    | duplicate shared => exact not_possible_duplicate hdistinct _ (.duplicate shared)

/-- Terms at positions of their own can be put in ascending order. -/
theorem exists_ascending {terms : List Term} (distinct : (terms.map Term.position).Nodup) :
    ∃ sorted : List Term, sorted.Perm terms ∧
      sorted.Pairwise fun t u => t.position < u.position := by
  let sorted := terms.mergeSort fun t u => t.position ≤ u.position
  have hperm : sorted.Perm terms := List.mergeSort_perm _ _
  have hsorted : sorted.Pairwise fun t u => decide (t.position ≤ u.position) = true := by
    refine List.pairwise_mergeSort ?_ ?_ terms
    · intro t u v htu huv
      rw [decide_eq_true_eq] at htu huv ⊢
      exact Nat.le_trans htu huv
    · intro t u
      rw [Bool.or_eq_true, decide_eq_true_eq, decide_eq_true_eq]
      exact Nat.le_total t.position u.position
  have hdistinct : sorted.Pairwise fun t u => t.position ≠ u.position :=
    List.pairwise_map.mp ((hperm.map Term.position).nodup_iff.mpr distinct)
  refine ⟨sorted, hperm, hsorted.imp₂ (fun t u hle hne => ?_) hdistinct⟩
  exact Nat.lt_of_le_of_ne (of_decide_eq_true hle) hne

/-- The terms in ascending order of position, each of them once and with its circuit. -/
structure Ordered (numQubits : Nat) (multiplier : Binary64) (terms : List Term)
    (lowered : List (Term × Circuit)) : Prop where
  perm : (lowered.map Prod.fst).Perm terms
  ascending : (lowered.map Prod.fst).Pairwise fun t u => t.position < u.position
  circuit : ∀ p ∈ lowered, p.1.circuit numQubits multiplier = .ok p.2

section Ordered

variable {numQubits : Nat} {multiplier : Binary64} {terms : List Term}
  {lowered : List (Term × Circuit)}

theorem Ordered.not_possible (h : Ordered numQubits multiplier terms lowered) :
    ∀ e, ¬ PossibleError (Term.lower numQubits multiplier) terms e := by
  refine not_possible_iff.mpr ⟨?_, ?_⟩
  · intro t ht
    obtain ⟨p, hp, rfl⟩ := List.mem_map.mp (h.perm.mem_iff.mpr ht)
    exact ⟨_, Term.lower_eq_ok.mpr ⟨p.2, h.circuit p hp, rfl⟩⟩
  · exact (h.perm.map Term.position).nodup_iff.mp (nodup_positions h.ascending)

theorem Ordered.values_eq (h : Ordered numQubits multiplier terms lowered) {blocks : Blocks}
    (exact : blocks.Exact (Term.lower numQubits multiplier) terms) :
    blocks.values = lowered.map fun p => p.2.block := by
  have hlowers : Lowers numQubits multiplier (lowered.map Prod.fst) lowered := ⟨rfl, h.circuit⟩
  refine hlowers.values_eq h.ascending ?_
  intro position block
  simp only [exact position block, h.perm.mem_iff]

theorem exists_ordered
    (hnone : ∀ e, ¬ PossibleError (Term.lower numQubits multiplier) terms e) :
    ∃ lowered, Ordered numQubits multiplier terms lowered := by
  obtain ⟨hlowered, hdistinct⟩ := not_possible_iff.mp hnone
  obtain ⟨sorted, hperm, hascending⟩ := exists_ascending hdistinct
  have hcircuit : ∀ t ∈ sorted, ∃ c, t.circuit numQubits multiplier = .ok c := by
    intro t ht
    obtain ⟨block, hblock⟩ := hlowered t (hperm.mem_iff.mp ht)
    obtain ⟨c, hc, _⟩ := Term.lower_eq_ok.mp hblock
    exact ⟨c, hc⟩
  obtain ⟨lowered, rfl, hlower⟩ := exists_lowers hcircuit
  exact ⟨lowered, hperm, hascending, hlower⟩

end Ordered

/-! ## Outcomes -/

theorem exists_ok_of_toOption {ε α : Type} {x : Except ε α} (h : x.toOption.isSome = true) :
    ∃ a, x = .ok a := by
  cases x with
  | ok a => exact ⟨a, rfl⟩
  | error e => cases h

namespace Hamiltonian

/-- What lowering a Hamiltonian to a program can end with: what `program` gives in the execution
mode of the settings, or the program of the blocks that some schedule of the workers ends with. -/
inductive Outcome (settings : Settings) (h : Hamiltonian) : Except LoweringError String → Prop
  | direct : Outcome settings h (h.program settings)
  | scheduled {p : Pool} (ends : h.EndsIn settings p) :
      Outcome settings h (p.store.finish.map (h.assemble settings))

variable {settings : Settings} {h : Hamiltonian} {o : Except LoweringError String}

theorem Outcome.allOrNothing (outcome : h.Outcome settings o) (valid : settings.validate = .ok ()) :
    ∃ result, AllOrNothing (Term.lower h.numQubits settings.angleMultiplier) h.terms result ∧
      o = result.map (h.assemble settings) := by
  cases outcome with
  | direct =>
    refine ⟨h.lower settings, h.lower_outcome settings valid, ?_⟩
    rw [program]
    cases h.lower settings <;> rfl
  | scheduled ends => exact ⟨_, ends.outcome, rfl⟩

theorem Outcome.possible_of_error (outcome : h.Outcome settings o)
    (valid : settings.validate = .ok ()) {e : LoweringError} (error : o = .error e) :
    PossibleError (Term.lower h.numQubits settings.angleMultiplier) h.terms e := by
  obtain ⟨result, hall, rfl⟩ := outcome.allOrNothing valid
  cases result with
  | ok blocks => cases error
  | error e' =>
    obtain rfl := Except.error.inj error
    exact hall.possible_of_error rfl

theorem Outcome.isOk_iff (outcome : h.Outcome settings o) (valid : settings.validate = .ok ()) :
    (∃ text, o = .ok text) ↔
      ∀ e, ¬ PossibleError (Term.lower h.numQubits settings.angleMultiplier) h.terms e := by
  obtain ⟨result, hall, rfl⟩ := outcome.allOrNothing valid
  constructor
  · rintro ⟨text, hok⟩
    cases result with
    | ok blocks => exact hall.not_possible rfl
    | error e => cases hok
  · intro hnone
    obtain ⟨blocks, rfl, _⟩ := hall.all hnone
    exact ⟨_, rfl⟩

/-- An outcome is a program exactly if it lists the blocks of the terms in ascending order of
position. -/
theorem Outcome.eq_ok_iff (outcome : h.Outcome settings o) (valid : settings.validate = .ok ())
    {text : String} : o = .ok text ↔
      ∃ lowered, Ordered h.numQubits settings.angleMultiplier h.terms lowered ∧
        text = settings.dialect.header h.numQubits ++
          String.join (lowered.map fun p => p.2.block) := by
  obtain ⟨result, hall, rfl⟩ := outcome.allOrNothing valid
  constructor
  · intro hok
    cases hresult : result with
    | error e =>
      rw [hresult] at hok
      cases hok
    | ok blocks =>
      have hnone := hall.not_possible hresult
      obtain ⟨_, hblocks, hexact⟩ := hall.all hnone
      obtain rfl := Except.ok.inj (hresult.symm.trans hblocks)
      obtain ⟨lowered, hordered⟩ := exists_ordered hnone
      rw [hresult] at hok
      refine ⟨lowered, hordered, ?_⟩
      rw [← Except.ok.inj hok, assemble, hordered.values_eq hexact, Dialect.program]
  · rintro ⟨lowered, hordered, rfl⟩
    obtain ⟨blocks, rfl, hexact⟩ := hall.all hordered.not_possible
    rw [Except.map, assemble, hordered.values_eq hexact, Dialect.program]

/-- Terms in ascending order of position are listed as they stand. -/
theorem Outcome.eq_ok_iff_of_ascending (outcome : h.Outcome settings o)
    (valid : settings.validate = .ok ())
    (ascending : h.terms.Pairwise fun t u => t.position < u.position) {text : String} :
    o = .ok text ↔ ∃ lowered, Lowers h.numQubits settings.angleMultiplier h.terms lowered ∧
      text = settings.dialect.header h.numQubits ++
        String.join (lowered.map fun p => p.2.block) := by
  rw [outcome.eq_ok_iff valid]
  constructor
  · rintro ⟨lowered, hordered, htext⟩
    have hterms : lowered.map Prod.fst = h.terms :=
      hordered.perm.eq_of_pairwise (fun _ _ _ _ hlt hgt => absurd hlt (Nat.lt_asymm hgt))
        hordered.ascending ascending
    exact ⟨lowered, ⟨hterms, hordered.circuit⟩, htext⟩
  · rintro ⟨lowered, hlowers, htext⟩
    refine ⟨lowered, ⟨?_, ?_, hlowers.circuit⟩, htext⟩
    · rw [hlowers.terms_eq]
    · rw [hlowers.terms_eq]
      exact ascending

end Hamiltonian

/-- **Positions, not the order of the terms, make the order of a program.** Under valid settings,
terms and the same terms in another order come to the same program or both to none, however they are
lowered. The program is the header and the blocks of the terms in ascending order of position, each
block once. -/
theorem program_order_independent {settings : Settings} (valid : settings.validate = .ok ())
    (numQubits : Nat) {terms permuted : List Term} (perm : terms.Perm permuted)
    {o o' : Except LoweringError String}
    (outcome : (Hamiltonian.withRegister numQubits terms).Outcome settings o)
    (outcome' : (Hamiltonian.withRegister numQubits permuted).Outcome settings o') (text : String) :
    (o = .ok text ↔ o' = .ok text) ∧
    (o = .ok text ↔ ∃ lowered, Ordered numQubits settings.angleMultiplier terms lowered ∧
      text = settings.dialect.header numQubits ++
        String.join (lowered.map fun p => p.2.block)) := by
  have hordered : ∀ lowered, Ordered numQubits settings.angleMultiplier terms lowered ↔
      Ordered numQubits settings.angleMultiplier permuted lowered := by
    intro lowered
    constructor
    · exact fun h => ⟨h.perm.trans perm, h.ascending, h.circuit⟩
    · exact fun h => ⟨h.perm.trans perm.symm, h.ascending, h.circuit⟩
  refine ⟨?_, outcome.eq_ok_iff valid⟩
  rw [outcome.eq_ok_iff valid, outcome'.eq_ok_iff valid]
  simp only [Hamiltonian.withRegister, hordered]

def laterTerm : Term :=
  { Term.first "YX" (by decide) with position := 3, position_pos := Nat.succ_pos 2 }

def earlierTerm : Term := .first "ZI" (by decide)

def swappedProgram : String :=
  "OPENQASM 2.0;\ninclude \"qelib1.inc\";\nqreg q[2];\ncreg c[2];\n" ++
  "\n// New operator from line 1\nrz(0.5*0.5*$[1]) q[0];\n" ++
  "\n// New operator from line 3\nry(pi/2) q[1];\nrx(-pi/2) q[0];\ncx q[0], q[1];\n" ++
  "rz(0.5*0.5*$[1]) q[1];\ncx q[0], q[1];\nrx(pi/2) q[0];\nry(-pi/2) q[1];\n"

theorem program_order_independent_swapped :
    Settings.validate {} = .ok () ∧ [laterTerm, earlierTerm].Perm [earlierTerm, laterTerm] ∧
      (Hamiltonian.withRegister 2 [laterTerm, earlierTerm]).program {} = .ok swappedProgram ∧
      (Hamiltonian.withRegister 2 [earlierTerm, laterTerm]).program {} = .ok swappedProgram := by
  have hvalid : Settings.validate {} = .ok () := rfl
  have hperm : [laterTerm, earlierTerm].Perm [earlierTerm, laterTerm] := List.Perm.swap _ _ _
  have hwritten : (Hamiltonian.withRegister 2 [laterTerm, earlierTerm]).program {} =
      .ok swappedProgram := toOption_eq_some.mp (by decide +kernel)
  have hsame := (program_order_independent hvalid 2 hperm .direct .direct swappedProgram).1
  exact ⟨hvalid, hperm, hwritten, hsame.mp hwritten⟩

end PauliLowering
