import PauliLowering.Proofs.TermSemantics

/-!
The circuit of a term as a block that is wrapped again and again.

`nestedBlock` starts with the central rotation and wraps it in one column of the support after the
other. The circuit that is put together from two sides is the same block (`nestedBlock_eq`). Every
wrapping puts an instruction in front and its inverse behind (`Balanced.wrap`), so the circuit reads
backwards as it reads forwards with each gate inverted (`Balanced.getElem?_mirrors`).
-/

namespace PauliLowering

/-! ## Inverse instructions -/

def Angle.opposite? : Angle → Option Angle
  | halfPi => some negHalfPi
  | negHalfPi => some halfPi
  | term .. => none

def Gate.inverse? : Gate → Option Gate
  | rx angle => angle.opposite?.map rx
  | ry angle => angle.opposite?.map ry
  | rz angle => angle.opposite?.map rz
  | cx => some cx

/-- The two instructions act on the same qubits with mutually inverse gates, and each takes every
Pauli string back through the other. -/
structure Instruction.Mirrors (a b : Instruction) : Prop where
  qubits : a.qubits = b.qubits
  inverse : a.gate.inverse? = some b.gate
  inverse_back : b.gate.inverse? = some a.gate
  undone : Undone [a] [b]
  undone_back : Undone [b] [a]

theorem Instruction.mirrors_cx {c t : Qubit} (hne : c ≠ t) : (cx c t).Mirrors (cx c t) :=
  ⟨rfl, rfl, rfl, undone_cx hne, undone_cx hne⟩

namespace Circuit

/-! ## Wrapping -/

/-- The block with the change of basis of a leg and its `cx` on either side. -/
def wrap (pivot : Qubit) (block : List Instruction) (l : Leg) : List Instruction :=
  l.enter ++ [.cx l.qubit pivot] ++ block ++ [.cx l.qubit pivot] ++ l.leave

/-- The block wrapped in a column that acts in the basis `b`. The pivot is passed over. -/
def wrapColumn (pivot : Qubit) (b : Basis) (block : List Instruction) (column : Nat) :
    Option (List Instruction) :=
  if column = pivot.column then some block
  else (Qubit.ofColumn? column).map fun q => wrap pivot block ⟨b, q⟩

/-- The center wrapped in the columns of X, then of Y, then of Z, and last in the change of basis of
the pivot. There is none if a column has no qubit. -/
def nestedBlock (s : Support) (pivot : Qubit) (center : Instruction) :
    Option (List Instruction) := do
  let block ←
    Basis.all.foldlM (fun block b => (s.group b).foldlM (wrapColumn pivot b) block) [center]
  let own := Leg.mk (← s.basisOf? pivot.column) pivot
  return own.enter ++ block ++ own.leave

theorem foldl_wrap (pivot : Qubit) (ladder : List Leg) (block : List Instruction) :
    ladder.foldl (wrap pivot) block = climb pivot ladder ++ block ++ descend pivot ladder := by
  induction ladder generalizing block with
  | nil => simp [climb, descend]
  | cons l ladder ih =>
    rw [List.foldl_cons, ih]
    simp [wrap, climb, descend]

theorem foldlM_wrapColumn (pivot : Qubit) (ls : List Leg) (block : List Instruction) :
    (ls.map Leg.entry).foldlM (fun block e => wrapColumn pivot e.1 block e.2) block =
      some ((ls.filter (·.qubit != pivot)).foldl (wrap pivot) block) := by
  induction ls generalizing block with
  | nil => rfl
  | cons l ls ih =>
    rw [List.map_cons, List.foldlM_cons]
    by_cases hl : l.qubit = pivot
    · have hskip : wrapColumn pivot l.entry.1 block l.entry.2 = some block := by
        simp [wrapColumn, Leg.entry, hl]
      rw [hskip, List.filter_cons_of_neg (by simp [hl])]
      exact ih block
    · have hcolumn : l.qubit.column ≠ pivot.column := fun h => hl (Qubit.column_injective h)
      have hwrap : wrapColumn pivot l.entry.1 block l.entry.2 = some (wrap pivot block l) := by
        simp [wrapColumn, Leg.entry, hcolumn, Qubit.ofColumn?_eq_some.mpr rfl]
      rw [hwrap, List.filter_cons_of_pos (by simp [hl])]
      exact ih (wrap pivot block l)

theorem foldlM_groups (s : Support) (pivot : Qubit) (block : List Instruction) :
    Basis.all.foldlM (fun block b => (s.group b).foldlM (wrapColumn pivot b) block) block =
      s.columns.foldlM (fun block e => wrapColumn pivot e.1 block e.2) block := by
  simp [Support.columns, Basis.all, List.foldlM_append, List.foldlM_map]

variable {s : Support} {t : Term} {numQubits : Nat} {multiplier : Binary64} {c : Circuit}

/-- The circuit of a term is its nested block. -/
theorem nestedBlock_eq (hwf : s.WellFormed) (h : synthesize t s numQubits multiplier = .ok c) :
    nestedBlock s c.pivot (.rz (.term multiplier t.coefficient t.parameter) c.pivot) =
      some c.instructions := by
  obtain ⟨hpivot, _, _, ls, hls, hinstructions⟩ := synthesize_eq_ok h
  obtain ⟨own, hown, hlayout⟩ := exists_own hwf ((Support.pivot?_eq_some_iff hwf).mp hpivot).1 hls
  have hbasis : s.basisOf? c.pivot.column = some own.basis := by
    rw [Support.basisOf?_eq_some_iff hwf, ← hlayout.own_qubit]
    exact hlayout.mem_iff.mp (List.mem_cons_self ..)
  have hleg : Leg.mk own.basis c.pivot = own := by rw [← hlayout.own_qubit]
  rw [nestedBlock, foldlM_groups, ← hls, foldlM_wrapColumn, foldl_wrap, hbasis, hinstructions,
    assemble, hown]
  simp [hleg, climb, descend]

/-! ## The two sides of a block -/

/-- A block around a center in which the instructions at equal distance from the center mirror each
other. -/
inductive Balanced (center : Instruction) : List Instruction → Prop
  | center : Balanced center [center]
  | around {block : List Instruction} {a b : Instruction} (mirrors : a.Mirrors b)
      (inner : Balanced center block) : Balanced center (a :: (block ++ [b]))

variable {center : Instruction} {block : List Instruction} {pivot : Qubit}

theorem Balanced.leg (l : Leg) (h : Balanced center block) :
    Balanced center (l.enter ++ block ++ l.leave) := by
  obtain ⟨basis, q⟩ := l
  cases basis with
  | Z => simpa [Leg.enter, Leg.leave] using h
  | X =>
    refine .around ⟨rfl, rfl, rfl, undone_leg ⟨.X, q⟩, undone_turn q fun p => ?_⟩ h
    cases p <;> exact ⟨_, rfl, rfl⟩
  | Y =>
    refine .around ⟨rfl, rfl, rfl, undone_leg ⟨.Y, q⟩, undone_turn q fun p => ?_⟩ h
    cases p <;> exact ⟨_, rfl, rfl⟩

theorem Balanced.wrap {l : Leg} (hne : l.qubit ≠ pivot) (h : Balanced center block) :
    Balanced center (wrap pivot block l) := by
  have hcx : Balanced center (.cx l.qubit pivot :: (block ++ [.cx l.qubit pivot])) :=
    .around (Instruction.mirrors_cx hne) h
  simpa [Circuit.wrap] using hcx.leg l

theorem Balanced.ladder {ladder : List Leg} (hne : ∀ l ∈ ladder, l.qubit ≠ pivot)
    (h : Balanced center block) : Balanced center (ladder.foldl (Circuit.wrap pivot) block) := by
  induction ladder generalizing block with
  | nil => exact h
  | cons l ladder ih =>
    refine ih (fun k hk => hne k (List.mem_cons_of_mem _ hk)) ?_
    exact h.wrap (hne l (List.mem_cons_self ..))

theorem Balanced.getElem?_center (h : Balanced center block) :
    block[block.length / 2]? = some center := by
  induction h with
  | center => simp
  | @around block a b _ inner ih =>
    have hlt : block.length / 2 < block.length := (List.getElem?_eq_some_iff.mp ih).1
    have hmiddle : (a :: (block ++ [b])).length / 2 = block.length / 2 + 1 := by
      simp only [List.length_cons, List.length_append, List.length_nil]
      omega
    rw [hmiddle, List.getElem?_cons_succ, List.getElem?_append_left hlt, ih]

theorem Balanced.getElem?_mirrors (h : Balanced center block) {k : Nat}
    (hk : k < block.length / 2) :
    ∃ a b, block[k]? = some a ∧ block[block.length - 1 - k]? = some b ∧ a.Mirrors b := by
  induction h generalizing k with
  | center => simp at hk
  | @around block a b mirrors inner ih =>
    simp only [List.length_cons, List.length_append, List.length_nil] at hk
    cases k with
    | zero => exact ⟨a, b, rfl, by simp, mirrors⟩
    | succ k =>
      obtain ⟨a', b', ha, hb, hmirrors⟩ := ih (k := k) (by omega)
      have hback : block.length - 1 - k < block.length := (List.getElem?_eq_some_iff.mp hb).1
      have hindex : (a :: (block ++ [b])).length - 1 - (k + 1) = block.length - 1 - k + 1 := by
        simp only [List.length_cons, List.length_append, List.length_nil]
        omega
      refine ⟨a', b', ?_, ?_, hmirrors⟩
      · rw [List.getElem?_cons_succ, List.getElem?_append_left (by omega), ha]
      · rw [hindex, List.getElem?_cons_succ, List.getElem?_append_left hback, hb]

theorem balanced_instructions (hwf : s.WellFormed)
    (h : synthesize t s numQubits multiplier = .ok c) :
    Balanced (.rz (.term multiplier t.coefficient t.parameter) c.pivot) c.instructions := by
  obtain ⟨own, ladder, hlayout, hinstructions⟩ := exists_layout hwf h
  have hcenter : Balanced (.rz (.term multiplier t.coefficient t.parameter) c.pivot)
      [.rz (.term multiplier t.coefficient t.parameter) c.pivot] := .center
  have hladder := hcenter.ladder (hlayout.ne_pivot hwf)
  rw [foldl_wrap] at hladder
  rw [hinstructions]
  simpa using hladder.leg own

/-- **The circuit of a term is a nested block.** It is the rotation about the term's angle, wrapped
in the columns of X, of Y and of Z in ascending order except for the pivot, and last in the change
of basis of the pivot. So the rotation stands in the middle, and the instructions at equal distance
from the two ends act on the same qubits with mutually inverse gates. -/
theorem synthesize_nested (hs : s.Made) (h : synthesize t s numQubits multiplier = .ok c) :
    s.pivot? = some c.pivot.column ∧
    nestedBlock s c.pivot (.rz (.term multiplier t.coefficient t.parameter) c.pivot) =
      some c.instructions ∧
    c.instructions[c.size / 2]? = some (.rz (.term multiplier t.coefficient t.parameter) c.pivot) ∧
    ∀ k < c.size / 2, ∃ a b, c.instructions[k]? = some a ∧
      c.instructions[c.size - 1 - k]? = some b ∧ a.Mirrors b := by
  have hwf := hs.wellFormed
  have hbalanced := balanced_instructions hwf h
  exact ⟨(synthesize_eq_ok h).1, nestedBlock_eq hwf h, hbalanced.getElem?_center,
    fun k hk => hbalanced.getElem?_mirrors hk⟩

def xzyxTerm : Term := .first "XZYX" (by decide)

/-- The pivot is the last column of X, so it is passed over before the columns of Y and Z. -/
theorem synthesize_nested_xzyx :
    ∃ c, synthesize xzyxTerm ⟨[1, 4], [3], [2]⟩ 5 .half = .ok c ∧ c.size = 13 ∧
      nestedBlock ⟨[1, 4], [3], [2]⟩ c.pivot (.rz (.term .half .half 1) c.pivot) =
        some c.instructions ∧
      c.instructions[6]? = some (.rz (.term .half .half 1) c.pivot) ∧
      ∀ k < 6, ∃ a b, c.instructions[k]? = some a ∧ c.instructions[12 - k]? = some b ∧
        a.Mirrors b := by
  have hmade :
      Support.ofGroups 1 [(.Z, [2]), (.X, [1, 4]), (.Y, [3])] = .ok ⟨[1, 4], [3], [2]⟩ := rfl
  have hcircuit : ∃ c, synthesize xzyxTerm ⟨[1, 4], [3], [2]⟩ 5 .half = .ok c ∧ c.size = 13 :=
    ⟨_, rfl, rfl⟩
  obtain ⟨c, hc, hsize⟩ := hcircuit
  have hnested := (synthesize_nested (.ofGroups hmade) hc).2
  rw [hsize] at hnested
  exact ⟨c, hc, hsize, hnested⟩

end Circuit

end PauliLowering
