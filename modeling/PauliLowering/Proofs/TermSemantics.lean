import PauliLowering.Lowering
import PauliLowering.Proofs.PauliAction
import PauliLowering.Proofs.TermCircuit

/-!
What the circuit of a term does to Pauli strings.

The instructions before the central rotation take the string of the term to Z on the pivot, with a
sign for each X and Y in it (`through_before`), and those after the rotation undo them on every
string (`through_before_after`). So the block of a term rotates about the term's own string, and a
string with an odd number of X and Y is rotated the other way round than one with an even number.
-/

namespace PauliLowering

open Circuit

/-! ## Strings and parts of a circuit -/

def Support.letter (s : Support) (q : Qubit) : Pauli :=
  ((s.basisOf? q.column).map Basis.pauli).getD .I

def Support.string (s : Support) : PauliString := .signed 0 s.letter

/-- The Pauli string that symbols write, the first of them on the first qubit. -/
def PauliString.ofSymbols (symbols : String) : PauliString :=
  .signed 0 fun q => (symbols.toList[q.index]?.bind Pauli.ofSymbol?).getD .I

def Instruction.isRz (i : Instruction) : Bool :=
  match i.gate with
  | .rz _ => true
  | _ => false

def Circuit.before (c : Circuit) : List Instruction := c.instructions.takeWhile (!·.isRz)

def Circuit.after (c : Circuit) : List Instruction := (c.instructions.dropWhile (!·.isRz)).tail

/-- One for the bases whose change to Z brings a sign. -/
def Basis.flips : Basis → Nat
  | .X | .Y => 1
  | .Z => 0

/-! ## Undoing -/

/-- The second list of instructions takes every string back through the first. -/
def Undone (first second : List Instruction) : Prop :=
  ∀ s : PauliString, (s.through first).bind (·.through second) = some s

theorem Undone.nil : Undone [] [] := fun _ => rfl

theorem Undone.nest {a b c d : List Instruction} (outer : Undone a d) (inner : Undone b c) :
    Undone (a ++ b) (c ++ d) := by
  intro s
  rw [PauliString.through_append]
  cases ha : s.through a with
  | none =>
    have hs := outer s
    simp [ha] at hs
  | some r =>
    have hr := inner r
    have hs := outer s
    rw [ha, Option.bind_some] at hs
    cases hb : r.through b with
    | none => simp [hb] at hr
    | some q =>
      rw [hb, Option.bind_some] at hr
      rw [Option.bind_some, hb, Option.bind_some, PauliString.through_append, hr, Option.bind_some,
        hs]

theorem undone_cx {c t : Qubit} (hne : c ≠ t) : Undone [.cx c t] [.cx c t] := by
  intro s
  have hinvolutive : ∀ a b : Pauli, cxImage (cxImage a b).2.1 (cxImage a b).2.2 =
      (-(cxImage a b).1, a, b) := by
    intro a b
    cases a <;> cases b <;> rfl
  rw [PauliString.through_singleton, conjugate_cx hne, Option.bind_some,
    PauliString.through_singleton, conjugate_cx hne, Option.some.injEq]
  simp only [Function.update_self, Function.update_of_ne hne, hinvolutive]
  apply PauliString.ext
  · simp
  · funext q
    by_cases hq : q = t
    · subst hq; simp
    · by_cases hq' : q = c
      · subst hq'; simp [hne]
      · simp [hq, hq']

theorem undone_turn {g h : Gate} (q : Qubit)
    (hturn : ∀ p, ∃ image, g.turn? p = some image ∧ h.turn? image.2 = some (-image.1, p)) :
    Undone [⟨g, [q]⟩] [⟨h, [q]⟩] := by
  intro s
  obtain ⟨image, hg, hh⟩ := hturn (s.letter q)
  rw [PauliString.through_singleton, conjugate_rotation, hg, Option.map_some, Option.bind_some,
    PauliString.through_singleton, conjugate_rotation]
  simp [hh]

theorem undone_leg (l : Leg) : Undone l.enter l.leave := by
  obtain ⟨basis, q⟩ := l
  cases basis with
  | Z => exact Undone.nil
  | X => exact undone_turn q fun p => by cases p <;> exact ⟨_, rfl, rfl⟩
  | Y => exact undone_turn q fun p => by cases p <;> exact ⟨_, rfl, rfl⟩

theorem undone_ladder {pivot : Qubit} {ladder : List Leg} (h : ∀ l ∈ ladder, l.qubit ≠ pivot) :
    Undone (climb pivot ladder) (descend pivot ladder) := by
  induction ladder with
  | nil => exact Undone.nil
  | cons l ladder ih =>
    have hladder := ih fun k hk => h k (List.mem_cons_of_mem _ hk)
    have hrung : Undone (l.enter ++ [.cx l.qubit pivot]) ([.cx l.qubit pivot] ++ l.leave) :=
      (undone_leg l).nest (undone_cx (h l (List.mem_cons_self ..)))
    simpa [climb, descend] using hladder.nest hrung

/-! ## The string of the term -/

theorem through_enter {l : Leg} {s : PauliString} (h : s.letter l.qubit = l.basis.pauli) :
    s.through l.enter =
      some ⟨s.phase + 2 * l.basis.flips, Function.update s.letter l.qubit .Z⟩ := by
  obtain ⟨basis, q⟩ := l
  simp only at h
  cases basis with
  | Z =>
    rw [Leg.enter, PauliString.through_nil, Option.some.injEq]
    apply PauliString.ext
    · simp [Basis.flips]
    · exact (Function.update_eq_self_iff.mpr h.symm).symm
  | X =>
    simp [Leg.enter, Instruction.ry, conjugate_rotation, h, Basis.pauli, Gate.turn?, Basis.flips]
  | Y =>
    simp [Leg.enter, Instruction.rx, conjugate_rotation, h, Basis.pauli, Gate.turn?, Basis.flips]

/-- A leg of the ladder loses its operator to the pivot. -/
theorem through_rung {l : Leg} {pivot : Qubit} {s : PauliString} (hne : l.qubit ≠ pivot)
    (hpivot : s.letter pivot = .Z) (h : s.letter l.qubit = l.basis.pauli) :
    s.through (l.enter ++ [.cx l.qubit pivot]) =
      some ⟨s.phase + 2 * l.basis.flips, Function.update s.letter l.qubit .I⟩ := by
  rw [PauliString.through_append, through_enter h, Option.bind_some, PauliString.through_singleton,
    conjugate_cx hne, Option.some.injEq]
  simp only [Function.update_self, Function.update_of_ne hne.symm, hpivot]
  apply PauliString.ext
  · simp [show (cxImage .Z .Z).1 = 0 from rfl]
  · funext q
    by_cases hq : q = pivot
    · subst hq
      simp [hne.symm, hpivot, show (cxImage .Z .Z).2.2 = .Z from rfl]
    · simp [hq, show (cxImage .Z .Z).2.1 = .I from rfl]

theorem through_climb {pivot : Qubit} {ladder : List Leg} {s : PauliString}
    (hpivot : s.letter pivot = .Z) (hne : ∀ l ∈ ladder, l.qubit ≠ pivot)
    (hdistinct : (ladder.map Leg.qubit).Nodup)
    (hletter : ∀ l ∈ ladder, s.letter l.qubit = l.basis.pauli) :
    s.through (climb pivot ladder) = some ⟨s.phase + 2 * ((ladder.map (·.basis.flips)).sum : Nat),
      fun q => if q ∈ ladder.map Leg.qubit then .I else s.letter q⟩ := by
  induction ladder with
  | nil => simp [climb]
  | cons l ladder ih =>
    obtain ⟨hfresh, hrest⟩ := List.nodup_cons.mp hdistinct
    have hladder := ih (fun k hk => hne k (List.mem_cons_of_mem _ hk)) hrest
      fun k hk => hletter k (List.mem_cons_of_mem _ hk)
    have hclimb : climb pivot (l :: ladder) =
        climb pivot ladder ++ (l.enter ++ [.cx l.qubit pivot]) := by simp [climb]
    have hpivotFresh : pivot ∉ ladder.map Leg.qubit := by
      intro hmem
      obtain ⟨k, hk, heq⟩ := List.mem_map.mp hmem
      exact hne k (List.mem_cons_of_mem _ hk) heq
    rw [hclimb, PauliString.through_append, hladder, Option.bind_some,
      through_rung (hne l (List.mem_cons_self ..)) (by simp [hpivotFresh, hpivot])
        (by simp [hfresh, hletter l (List.mem_cons_self ..)]), Option.some.injEq]
    apply PauliString.ext
    · simp only [List.map_cons, List.sum_cons, Nat.cast_add]
      ring
    · funext q
      by_cases hq : q = l.qubit
      · simp [hq]
      · simp [hq]

theorem sum_flips_columns (s : Support) :
    (s.columns.map (·.1.flips)).sum = s.x.length + s.y.length := by
  simp [Support.columns, Basis.all, Support.group, Basis.flips, Function.comp_def]

namespace Circuit

variable {s : Support} {pivot : Qubit} {own : Leg} {ladder : List Leg}

theorem Layout.sum_flips (h : Layout s pivot own ladder) :
    own.basis.flips + (ladder.map (·.basis.flips)).sum = s.x.length + s.y.length := by
  have hsum := (h.perm.map (·.1.flips)).sum_eq
  rw [sum_flips_columns] at hsum
  simpa [Leg.entry, Function.comp_def] using hsum

theorem Layout.ne_pivot (hwf : s.WellFormed) (h : Layout s pivot own ladder) :
    ∀ l ∈ ladder, l.qubit ≠ pivot := by
  intro l hl hpivot
  have hfresh := (List.nodup_cons.mp (h.nodup hwf)).1
  rw [h.own_qubit, ← hpivot] at hfresh
  exact hfresh (List.mem_map_of_mem hl)

theorem Layout.letter_eq (hwf : s.WellFormed) (h : Layout s pivot own ladder) {l : Leg}
    (hl : l ∈ own :: ladder) : s.letter l.qubit = l.basis.pauli := by
  rw [Support.letter, (Support.basisOf?_eq_some_iff hwf).mpr (h.mem_iff.mp hl)]
  rfl

theorem Layout.letter_eq_identity (hwf : s.WellFormed) (h : Layout s pivot own ladder) {q : Qubit}
    (hq : q ∉ (own :: ladder).map Leg.qubit) : s.letter q = .I := by
  unfold Support.letter
  cases hb : s.basisOf? q.column with
  | none => rfl
  | some b =>
    have hmem : Leg.mk b q ∈ own :: ladder :=
      h.mem_iff.mpr ((Support.basisOf?_eq_some_iff hwf).mp hb)
    exact absurd (List.mem_map_of_mem hmem) hq

/-- The way up to the center gathers the string of the support on the pivot. -/
theorem Layout.through (hwf : s.WellFormed) (h : Layout s pivot own ladder) :
    s.string.through (own.enter ++ climb pivot ladder) =
      some (.single (s.x.length + s.y.length) pivot .Z) := by
  obtain ⟨hfresh, hdistinct⟩ := List.nodup_cons.mp (h.nodup hwf)
  have hpivot := h.own_qubit
  have hne := h.ne_pivot hwf
  rw [PauliString.through_append, through_enter (h.letter_eq hwf (List.mem_cons_self ..)),
    Option.bind_some, through_climb (by simp [hpivot]) hne hdistinct, Option.some.injEq]
  · apply PauliString.ext
    · simp only [Support.string, PauliString.single, PauliString.signed, ← h.sum_flips,
        Nat.cast_add]
      ring
    · funext q
      simp only [Support.string, PauliString.single, PauliString.signed, hpivot]
      by_cases hq : q ∈ ladder.map Leg.qubit
      · have hqpivot : q ≠ pivot := by
          rw [← hpivot]
          exact fun heq => hfresh (heq ▸ hq)
        rw [if_pos hq, Function.update_of_ne hqpivot]
      · rw [if_neg hq]
        by_cases hqpivot : q = pivot
        · rw [hqpivot, Function.update_self, Function.update_self]
        · have hI := h.letter_eq_identity hwf (q := q) (by simp_all)
          rw [Function.update_of_ne hqpivot, Function.update_of_ne hqpivot, hI]
  · intro l hl
    have hl' := h.letter_eq hwf (List.mem_cons_of_mem _ hl)
    simp [hpivot, hne l hl, Support.string, PauliString.signed, hl']

theorem Layout.undone (hwf : s.WellFormed) (h : Layout s pivot own ladder) :
    Undone (own.enter ++ climb pivot ladder) (descend pivot ladder ++ own.leave) :=
  (undone_leg own).nest (undone_ladder (h.ne_pivot hwf))

/-! ## The two sides of the central rotation -/

theorem isRz_enter {l : Leg} {i : Instruction} (h : i ∈ l.enter) : i.isRz = false := by
  obtain ⟨basis, q⟩ := l
  cases basis <;> simp [Leg.enter] at h <;> subst h <;> rfl

theorem isRz_leave {l : Leg} {i : Instruction} (h : i ∈ l.leave) : i.isRz = false := by
  obtain ⟨basis, q⟩ := l
  cases basis <;> simp [Leg.leave] at h <;> subst h <;> rfl

theorem isRz_up {i : Instruction} (h : i ∈ own.enter ++ climb pivot ladder) : i.isRz = false := by
  simp only [climb, List.mem_append, List.mem_flatMap, List.mem_reverse, List.mem_singleton] at h
  rcases h with h | ⟨l, _, h | rfl⟩
  · exact isRz_enter h
  · exact isRz_enter h
  · rfl

theorem isRz_down {i : Instruction} (h : i ∈ descend pivot ladder ++ own.leave) :
    i.isRz = false := by
  simp only [descend, List.mem_append, List.mem_flatMap, List.mem_cons] at h
  rcases h with ⟨l, _, rfl | h⟩ | h
  · rfl
  · exact isRz_leave h
  · exact isRz_leave h

theorem before_eq {c : Circuit} {up down : List Instruction} {center : Instruction}
    (hup : ∀ i ∈ up, i.isRz = false) (hcenter : center.isRz = true)
    (h : c.instructions = up ++ center :: down) : c.before = up ∧ c.after = down := by
  have hall : ∀ i ∈ up, (!i.isRz) = true := by simpa using hup
  constructor
  · rw [before, h, List.takeWhile_append_of_pos hall,
      List.takeWhile_cons_of_neg (by simp [hcenter]), List.append_nil]
  · rw [after, h, List.dropWhile_append_of_pos hall, List.dropWhile_cons_of_neg (by simp [hcenter]),
      List.tail_cons]

variable {t : Term} {numQubits : Nat} {multiplier : Binary64} {c : Circuit}

theorem exists_sides (hwf : s.WellFormed) (h : synthesize t s numQubits multiplier = .ok c) :
    ∃ own ladder, Layout s c.pivot own ladder ∧
      c.before = own.enter ++ climb c.pivot ladder ∧ c.after = descend c.pivot ladder ++ own.leave ∧
      c.instructions =
        c.before ++ .rz (.term multiplier t.coefficient t.parameter) c.pivot :: c.after := by
  obtain ⟨own, ladder, hlayout, hinstructions⟩ := exists_layout hwf h
  obtain ⟨hbefore, hafter⟩ := before_eq (fun i hi => isRz_up hi) rfl hinstructions
  exact ⟨own, ladder, hlayout, hbefore, hafter, by rw [hbefore, hafter, hinstructions]⟩

theorem through_before (hwf : s.WellFormed) (h : synthesize t s numQubits multiplier = .ok c) :
    s.string.through c.before = some (.single (s.x.length + s.y.length) c.pivot .Z) := by
  obtain ⟨own, ladder, hlayout, hbefore, _⟩ := exists_sides hwf h
  rw [hbefore]
  exact hlayout.through hwf

theorem through_before_after (hwf : s.WellFormed)
    (h : synthesize t s numQubits multiplier = .ok c) : Undone c.before c.after := by
  obtain ⟨own, ladder, hlayout, hbefore, hafter, _⟩ := exists_sides hwf h
  rw [hbefore, hafter]
  exact hlayout.undone hwf

theorem not_isRz_sides (hwf : s.WellFormed) (h : synthesize t s numQubits multiplier = .ok c) :
    ∀ i ∈ c.before ++ c.after, i.isRz = false := by
  obtain ⟨own, ladder, _, hbefore, hafter, _⟩ := exists_sides hwf h
  rw [hbefore, hafter]
  intro i hi
  rcases List.mem_append.mp hi with hi | hi
  · exact isRz_up hi
  · exact isRz_down hi

/-- **Meaning of a term's circuit.** Around the one central rotation, on the pivot, the instructions
before it take the encoded string to Z on the pivot with a sign for each X and each Y, and those
after it bring every string back. Each of them acts multiplicatively. -/
theorem synthesize_conjugates_to_pivot (hs : s.Made)
    (h : synthesize t s numQubits multiplier = .ok c) :
    s.pivot? = some c.pivot.column ∧
    c.instructions =
      c.before ++ .rz (.term multiplier t.coefficient t.parameter) c.pivot :: c.after ∧
    (∀ i ∈ c.before ++ c.after, i.isRz = false ∧ ∀ q r q' r', i.conjugate q = some q' →
      i.conjugate r = some r' → i.conjugate (q * r) = some (q' * r')) ∧
    s.string.through c.before = some (.single (s.x.length + s.y.length) c.pivot .Z) ∧
    ∀ q : PauliString, (q.through c.before).bind (·.through c.after) = some q := by
  have hwf := hs.wellFormed
  obtain ⟨_, _, _, _, _, hsplit⟩ := exists_sides hwf h
  refine ⟨(synthesize_eq_ok h).1, hsplit, ?_, through_before hwf h, through_before_after hwf h⟩
  intro i hi
  exact ⟨not_isRz_sides hwf h i hi, fun _ _ _ _ hq hr => conjugate_mul hq hr⟩

def xzyTerm : Term := .first "XZY" (by decide)

theorem synthesize_conjugates_to_pivot_xzy :
    ∃ c, synthesize xzyTerm ⟨[1], [3], [2]⟩ 3 .half = .ok c ∧ c.pivot.index = 2 ∧
      (Support.string ⟨[1], [3], [2]⟩).through c.before = some (.single 2 c.pivot .Z) ∧
      ∀ q : PauliString, (q.through c.before).bind (·.through c.after) = some q := by
  have hread : Support.ofSymbols 1 "XZY" = .ok ⟨[1], [3], [2]⟩ := rfl
  have hcircuit : ∃ c, synthesize xzyTerm ⟨[1], [3], [2]⟩ 3 .half = .ok c ∧ c.pivot.index = 2 :=
    ⟨_, rfl, rfl⟩
  obtain ⟨c, hc, hpivot⟩ := hcircuit
  exact ⟨c, hc, hpivot, (synthesize_conjugates_to_pivot (.ofSymbols hread) hc).2.2.2⟩

end Circuit

/-! ## The sign of a written string -/

end PauliLowering
