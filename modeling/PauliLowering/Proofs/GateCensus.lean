import PauliLowering.Proofs.TermSemantics

/-!
How many gates of each kind the circuit of a term has, and on which qubits.

Apart from their order the instructions are the central rotation, the two changes of basis of every
leg, and two `cx` for every leg of the ladder (`instructions_perm`). The legs hold each column of
the support once, so the numbers and the qubits of the gates are those of the support.
-/

namespace PauliLowering

def Instruction.controls (q : Qubit) (i : Instruction) : Bool :=
  i.isEntangling && i.qubits.head? == some q

/-! ## The gates of a leg -/

namespace Leg

def turns (l : Leg) : List Instruction := l.enter ++ l.leave

def gates (pivot : Qubit) (l : Leg) : List Instruction :=
  l.turns ++ [.cx l.qubit pivot, .cx l.qubit pivot]

theorem length_turns (l : Leg) : l.turns.length = 2 * l.basis.flips := by
  obtain ⟨basis, q⟩ := l
  cases basis <;> rfl

theorem of_mem_turns {l : Leg} {i : Instruction} (h : i ∈ l.turns) :
    i.qubits = [l.qubit] ∧ i.isEntangling = false := by
  obtain ⟨basis, q⟩ := l
  cases basis with
  | X =>
    obtain rfl | rfl : i = .ry .halfPi q ∨ i = .ry .negHalfPi q := by
      simpa [turns, enter, leave] using h
    · exact ⟨rfl, rfl⟩
    · exact ⟨rfl, rfl⟩
  | Y =>
    obtain rfl | rfl : i = .rx .negHalfPi q ∨ i = .rx .halfPi q := by
      simpa [turns, enter, leave] using h
    · exact ⟨rfl, rfl⟩
    · exact ⟨rfl, rfl⟩
  | Z => simp [turns, enter, leave] at h

end Leg

namespace Circuit

variable {s : Support} {pivot : Qubit} {own : Leg} {ladder : List Leg}

/-! ## The gates of a ladder -/

theorem ladder_perm (pivot : Qubit) (ladder : List Leg) :
    (climb pivot ladder ++ descend pivot ladder).Perm (ladder.flatMap (Leg.gates pivot)) := by
  induction ladder with
  | nil => exact List.Perm.nil
  | cons l ladder ih =>
    have hsplit : climb pivot (l :: ladder) ++ descend pivot (l :: ladder) =
        climb pivot ladder ++
          ((l.enter ++ [.cx l.qubit pivot] ++ ([.cx l.qubit pivot] ++ l.leave)) ++
            descend pivot ladder) := by
      simp [climb, descend]
    have hleg : (l.enter ++ [.cx l.qubit pivot] ++ ([.cx l.qubit pivot] ++ l.leave) :
        List Instruction).Perm (l.gates pivot) := by
      rw [Leg.gates, Leg.turns, List.append_assoc, List.append_assoc]
      refine List.Perm.append_left l.enter ?_
      show ([.cx l.qubit pivot, .cx l.qubit pivot] ++ l.leave : List Instruction).Perm _
      exact List.perm_append_comm
    rw [hsplit, List.flatMap_cons]
    exact (List.perm_append_comm_assoc _ _ _).trans (hleg.append ih)

theorem length_gates (pivot : Qubit) (ladder : List Leg) :
    (ladder.flatMap (Leg.gates pivot)).length =
      2 * ladder.length + 2 * (ladder.map (·.basis.flips)).sum := by
  induction ladder with
  | nil => rfl
  | cons l ladder ih =>
    simp only [List.flatMap_cons, List.length_append, ih, Leg.gates, l.length_turns,
      List.length_cons, List.length_nil, List.map_cons, List.sum_cons]
    omega

/-- What is never true of a change of basis is counted twice for each leg. -/
theorem countP_gates {p : Instruction → Bool} (turns : ∀ l : Leg, ∀ i ∈ l.turns, p i = false)
    (pivot : Qubit) (ladder : List Leg) :
    (ladder.flatMap (Leg.gates pivot)).countP p =
      2 * ladder.countP fun l => p (.cx l.qubit pivot) := by
  induction ladder with
  | nil => rfl
  | cons l ladder ih =>
    have hturns : l.turns.countP p = 0 := by
      rw [List.countP_eq_zero]
      simpa using turns l
    simp only [List.flatMap_cons, List.countP_append, ih, Leg.gates, hturns, List.countP_cons,
      List.countP_nil]
    split <;> omega

/-! ## The gates of a circuit -/

/-- The instructions of a circuit with the given legs, apart from their order. -/
theorem instructions_perm {c : Circuit} {center : Instruction}
    (h : c.instructions = (own.enter ++ climb pivot ladder) ++
      center :: (descend pivot ladder ++ own.leave)) :
    c.instructions.Perm (center :: (own.turns ++ ladder.flatMap (Leg.gates pivot))) := by
  have hsides : ((own.enter ++ climb pivot ladder) ++ (descend pivot ladder ++ own.leave)).Perm
      (own.turns ++ ladder.flatMap (Leg.gates pivot)) := by
    rw [Leg.turns, List.append_assoc, List.append_assoc, ← List.append_assoc (climb pivot ladder)]
    refine List.Perm.append_left own.enter ?_
    exact List.perm_append_comm.trans ((ladder_perm pivot ladder).append_left own.leave)
  rw [h]
  exact List.perm_middle.trans (hsides.cons center)

section Counts

variable {c : Circuit} {center : Instruction}
  (hperm : c.instructions.Perm (center :: (own.turns ++ ladder.flatMap (Leg.gates pivot))))

include hperm

theorem mem_instructions_iff {i : Instruction} : i ∈ c.instructions ↔
    i = center ∨ (∃ l ∈ own :: ladder, i ∈ l.turns) ∨ ∃ l ∈ ladder, i = .cx l.qubit pivot := by
  rw [hperm.mem_iff]
  simp only [List.mem_cons, List.mem_append, List.mem_flatMap, Leg.gates, List.not_mem_nil,
    or_false, or_self]
  constructor
  · rintro (hi | hi | ⟨l, hl, hi | hi⟩)
    · exact Or.inl hi
    · exact Or.inr (Or.inl ⟨own, Or.inl rfl, hi⟩)
    · exact Or.inr (Or.inl ⟨l, Or.inr hl, hi⟩)
    · exact Or.inr (Or.inr ⟨l, hl, hi⟩)
  · rintro (hi | ⟨l, rfl | hl, hi⟩ | ⟨l, hl, hi⟩)
    · exact Or.inl hi
    · exact Or.inr (Or.inl hi)
    · exact Or.inr (Or.inr ⟨l, hl, Or.inl hi⟩)
    · exact Or.inr (Or.inr ⟨l, hl, Or.inr hi⟩)

theorem countP_instructions {p : Instruction → Bool} (hcenter : p center = false)
    (turns : ∀ l : Leg, ∀ i ∈ l.turns, p i = false) :
    c.instructions.countP p = 2 * ladder.countP fun l => p (.cx l.qubit pivot) := by
  have hown : own.turns.countP p = 0 := by
    rw [List.countP_eq_zero]
    simpa using turns own
  rw [hperm.countP_eq, List.countP_cons_of_neg (by simp [hcenter]), List.countP_append, hown,
    countP_gates turns, Nat.zero_add]

theorem touches_iff (hcenter : center.qubits = [pivot]) (hown : own.qubit = pivot) {q : Qubit} :
    c.touches q ↔ ∃ l ∈ own :: ladder, l.qubit = q := by
  simp only [touches, List.any_eq_true, List.contains_iff_mem, mem_instructions_iff hperm]
  constructor
  · rintro ⟨i, rfl | ⟨l, hl, hi⟩ | ⟨l, hl, rfl⟩, hq⟩
    · rw [hcenter, List.mem_singleton] at hq
      exact ⟨own, List.mem_cons_self .., hown.trans hq.symm⟩
    · rw [(Leg.of_mem_turns hi).1, List.mem_singleton] at hq
      exact ⟨l, hl, hq.symm⟩
    · obtain rfl | rfl : q = l.qubit ∨ q = pivot := by simpa [Instruction.cx] using hq
      · exact ⟨l, List.mem_cons_of_mem _ hl, rfl⟩
      · exact ⟨own, List.mem_cons_self .., hown⟩
  · rintro ⟨l, hl, rfl⟩
    rcases List.mem_cons.mp hl with rfl | hl
    · exact ⟨center, Or.inl rfl, by simp [hcenter, hown]⟩
    · exact ⟨.cx l.qubit pivot, Or.inr (Or.inr ⟨l, hl, rfl⟩), by simp [Instruction.cx]⟩

end Counts

/-! ## The legs of a support -/

theorem Layout.length_ladder (h : Layout s pivot own ladder) : ladder.length = s.size - 1 := by
  have hlength := h.perm.length_eq
  rw [Support.length_columns, List.length_map, List.length_cons] at hlength
  omega

/-- A qubit of the support other than the pivot has one leg in the ladder. -/
theorem Layout.countP_controls (hwf : s.WellFormed) (h : Layout s pivot own ladder) {q : Qubit}
    {b : Basis} (hq : q.column ∈ s.group b) (hne : q ≠ pivot) :
    ladder.countP (fun l => (Instruction.cx l.qubit pivot).controls q) = 1 := by
  have hnodup : (ladder.map Leg.qubit).Nodup := (List.nodup_cons.mp (h.nodup hwf)).2
  have hleg : Leg.mk b q ∈ own :: ladder := h.mem_iff.mpr hq
  have hmem : q ∈ ladder.map Leg.qubit := by
    rcases List.mem_cons.mp hleg with hown | hladder
    · exact absurd ((congrArg Leg.qubit hown).trans h.own_qubit) hne
    · exact List.mem_map_of_mem hladder
  have hcount := List.count_eq_one_of_mem hnodup hmem
  rw [List.count, List.countP_map] at hcount
  rw [← hcount]
  refine List.countP_congr fun l _ => ?_
  simp [Instruction.controls, Instruction.cx, Instruction.isEntangling]

theorem Layout.mem_qubits_iff (h : Layout s pivot own ladder) {q : Qubit} :
    (∃ l ∈ own :: ladder, l.qubit = q) ↔ ∃ b, q.column ∈ s.group b := by
  constructor
  · rintro ⟨l, hl, rfl⟩
    exact ⟨l.basis, h.mem_iff.mp hl⟩
  · rintro ⟨b, hb⟩
    exact ⟨⟨b, q⟩, h.mem_iff.mpr hb, rfl⟩

/-! ## The census -/

/-- The number of the gates of each kind in a circuit, and the qubits that they act on. -/
structure Census (s : Support) (numQubits : Nat) (center : Instruction) (c : Circuit) : Prop where
  /-- There is one rotation about the term's angle, and it is on the pivot. -/
  rotation : c.instructions.filter Instruction.isRz = [center] ∧ center.qubits = [c.pivot]
  numEntangling : c.numEntangling = 2 * (s.size - 1)
  size : c.size = 1 + 2 * (s.size - 1) + 2 * (s.x.length + s.y.length)
  /-- A `cx` leads from another qubit to the pivot. -/
  entangling : ∀ i ∈ c.instructions, i.isEntangling → ∃ q, q ≠ c.pivot ∧ i = .cx q c.pivot
  /-- Each qubit of the support but the pivot controls two `cx`. -/
  controls : ∀ q b, q.column ∈ s.group b → q ≠ c.pivot →
    c.instructions.countP (Instruction.controls q) = 2
  touches : ∀ q, c.touches q ↔ ∃ b, q.column ∈ s.group b
  inRegister : ∀ i ∈ c.instructions, ∀ q ∈ i.qubits, q.index < numQubits

variable {t : Term} {numQubits : Nat} {multiplier : Binary64} {c : Circuit}

theorem filter_isRz (hwf : s.WellFormed) (h : synthesize t s numQubits multiplier = .ok c) :
    c.instructions.filter Instruction.isRz =
      [.rz (.term multiplier t.coefficient t.parameter) c.pivot] := by
  obtain ⟨_, _, _, _, _, hsplit⟩ := exists_sides hwf h
  have hsides := not_isRz_sides hwf h
  have hbefore : c.before.filter Instruction.isRz = [] := by
    rw [List.filter_eq_nil_iff]
    intro i hi
    simp [hsides i (List.mem_append_left _ hi)]
  have hafter : c.after.filter Instruction.isRz = [] := by
    rw [List.filter_eq_nil_iff]
    intro i hi
    simp [hsides i (List.mem_append_right _ hi)]
  rw [hsplit, List.filter_append, hbefore, List.filter_cons_of_pos rfl, hafter]
  rfl

/-- **Census of a term's circuit.** It has one rotation about the term's angle, two `cx` onto the
pivot for each other qubit of the support, and two changes of basis for each X and Y. It acts on the
qubits of the support and on no others, all of them in the register. -/
theorem synthesize_census (hs : s.Made) (h : synthesize t s numQubits multiplier = .ok c) :
    s.pivot? = some c.pivot.column ∧
      Census s numQubits (.rz (.term multiplier t.coefficient t.parameter) c.pivot) c := by
  have hwf := hs.wellFormed
  obtain ⟨hpivot, hregister, _⟩ := synthesize_eq_ok h
  obtain ⟨own, ladder, hlayout, hinstructions⟩ := exists_layout hwf h
  have hperm := instructions_perm hinstructions
  have hladder := hlayout.length_ladder
  have htouches : ∀ q, c.touches q ↔ ∃ b, q.column ∈ s.group b := fun q =>
    (touches_iff hperm rfl hlayout.own_qubit).trans hlayout.mem_qubits_iff
  refine ⟨hpivot, ⟨filter_isRz hwf h, rfl⟩, ?_, ?_, ?_, ?_, htouches, ?_⟩
  · have hcount := countP_instructions hperm (p := Instruction.isEntangling) rfl
      fun l i hi => (Leg.of_mem_turns hi).2
    have hall : ladder.countP (fun l => (Instruction.cx l.qubit c.pivot).isEntangling) =
        ladder.length := List.countP_eq_length.mpr fun l _ => rfl
    rw [numEntangling, hcount, hall, hladder]
  · have hflips := hlayout.sum_flips
    rw [size, hperm.length_eq, List.length_cons, List.length_append, length_gates, own.length_turns]
    omega
  · intro i hi hentangling
    rcases (mem_instructions_iff hperm).mp hi with rfl | ⟨l, _, hl⟩ | ⟨l, hl, rfl⟩
    · cases hentangling
    · simp [(Leg.of_mem_turns hl).2] at hentangling
    · exact ⟨l.qubit, hlayout.ne_pivot hwf l hl, rfl⟩
  · intro q b hq hne
    rw [countP_instructions hperm rfl, hlayout.countP_controls hwf hq hne]
    intro l i hi
    simp [Instruction.controls, (Leg.of_mem_turns hi).2]
  · intro i hi q hq
    obtain ⟨b, hb⟩ := (htouches q).mp
      (List.any_eq_true.mpr ⟨i, hi, List.contains_iff_mem.mpr hq⟩)
    have hle : q.column ≤ c.pivot.column := ((Support.pivot?_eq_some_iff hwf).mp hpivot).2 b _ hb
    rw [Qubit.column] at hle
    omega

def yxzTerm : Term := .first "IYXIZ" (by decide)

/-- Y, X and Z between identities: two `cx` each for Y and X, and nothing on the identities. -/
theorem synthesize_census_yxz :
    ∃ c, synthesize yxzTerm ⟨[3], [2], [5]⟩ 6 .half = .ok c ∧ c.pivot.index = 4 ∧
      Census ⟨[3], [2], [5]⟩ 6 (.rz (.term .half .half 1) c.pivot) c := by
  have hread : Support.ofSymbols 1 "IYXIZ" = .ok ⟨[3], [2], [5]⟩ := rfl
  have hcircuit : ∃ c, synthesize yxzTerm ⟨[3], [2], [5]⟩ 6 .half = .ok c ∧ c.pivot.index = 4 :=
    ⟨_, rfl, rfl⟩
  obtain ⟨c, hc, hpivot⟩ := hcircuit
  exact ⟨c, hc, hpivot, (synthesize_census (.ofSymbols hread) hc).2⟩

end Circuit

end PauliLowering
