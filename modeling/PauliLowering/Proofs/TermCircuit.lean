import PauliLowering.Circuit
import PauliLowering.Proofs.SupportInvariant

/-!
The shape of the circuit of a term.

A synthesized circuit is a ladder of legs around the central rotation, with the leg of the pivot
outside (`exists_layout`). The legs are the columns of the support, each of them once. A circuit is
given whenever the pivot lies in the register and has a qubit (`synthesize_isOk`).
-/

namespace PauliLowering

theorem bind_eq_ok {ε α β : Type} {x : Except ε α} {f : α → Except ε β} {b : β} :
    (x >>= f) = .ok b ↔ ∃ a, x = .ok a ∧ f a = .ok b := by
  cases x <;> simp [bind, Except.bind]

theorem bind_eq_error {ε α β : Type} {x : Except ε α} {f : α → Except ε β} {e : ε} :
    (x >>= f) = .error e ↔ x = .error e ∨ ∃ a, x = .ok a ∧ f a = .error e := by
  cases x <;> simp [bind, Except.bind]

theorem mapError_eq_ok {ε ε' α : Type} {f : ε → ε'} {x : Except ε α} {a : α} :
    x.mapError f = .ok a ↔ x = .ok a := by
  cases x <;> simp [Except.mapError]

theorem toOption_eq_some {ε α : Type} {x : Except ε α} {a : α} :
    x.toOption = some a ↔ x = .ok a := by
  cases x <;> simp [Except.toOption]

theorem exists_error_iff {ε α : Type} {x : Except ε α} :
    (∃ e, x = .error e) ↔ ¬ ∃ a, x = .ok a := by
  cases x <;> simp

theorem Qubit.ofColumn?_eq_some {column : Nat} {q : Qubit} :
    ofColumn? column = some q ↔ q.column = column := by
  obtain ⟨index, hlt⟩ := q
  unfold ofColumn? Qubit.column
  split
  · simp only [Option.some.injEq, Qubit.mk.injEq]
    omega
  · simp only [reduceCtorEq, false_iff]
    omega

theorem Qubit.column_injective {p q : Qubit} (h : p.column = q.column) : p = q := by
  have hp := ofColumn?_eq_some.mpr h
  rw [ofColumn?_eq_some.mpr rfl] at hp
  exact (Option.some.inj hp).symm

/-- The first term of a list, with one half as coefficient and a parameter of its own. -/
def Term.first (symbols : String) (nonempty : symbols ≠ "") : Term :=
  ⟨1, symbols, .half, 1, Nat.one_pos, nonempty, by decide, by decide, Nat.one_pos⟩

def Leg.entry (l : Leg) : Basis × Nat := (l.basis, l.qubit.column)

namespace Circuit

/-! ## Legs -/

theorem legs_eq_ok {outside : TermError} {s : Support} {ls : List Leg} :
    legs outside s = .ok ls ↔ ls.map Leg.entry = s.columns := by
  unfold legs
  induction s.columns generalizing ls with
  | nil => simp [pure, Except.pure, eq_comm]
  | cons entry columns ih =>
    obtain ⟨basis, column⟩ := entry
    simp only [List.mapM_cons, bind_eq_ok, ih]
    constructor
    · rintro ⟨l, hl, rest, hrest, hpure⟩
      obtain rfl := Except.ok.inj hpure
      split at hl
      · next qubit hq =>
        obtain rfl := Except.ok.inj hl
        simp [Leg.entry, hrest, Qubit.ofColumn?_eq_some.mp hq]
      · simp at hl
    · intro hmap
      cases ls with
      | nil => simp at hmap
      | cons l rest =>
        simp only [List.map_cons, List.cons.injEq, Leg.entry, Prod.mk.injEq] at hmap
        obtain ⟨⟨rfl, hcolumn⟩, hrest⟩ := hmap
        exact ⟨l, by simp [Qubit.ofColumn?_eq_some.mpr hcolumn], rest, hrest, rfl⟩

/-- Every column up to the last one that a qubit can have becomes a leg. -/
theorem exists_legs (outside : TermError) {s : Support} (hwf : s.WellFormed)
    (hle : ∀ b, ∀ c ∈ s.group b, c ≤ 0x100000000) : ∃ ls, legs outside s = .ok ls := by
  have hcolumns : ∀ entry ∈ s.columns, ∃ l : Leg, l.entry = entry := by
    rintro ⟨b, c⟩ hmem
    have hc := Support.mem_columns.mp hmem
    have hpos := hwf.positive b c hc
    have hbound := hle b c hc
    refine ⟨⟨b, c - 1, by omega⟩, ?_⟩
    simp only [Leg.entry, Qubit.column, Prod.mk.injEq, true_and]
    omega
  simp only [legs_eq_ok]
  revert hcolumns
  induction s.columns with
  | nil => exact fun _ => ⟨[], rfl⟩
  | cons entry columns ih =>
    intro hcolumns
    obtain ⟨l, hl⟩ := hcolumns entry (List.mem_cons_self ..)
    obtain ⟨ls, hls⟩ := ih fun e he => hcolumns e (List.mem_cons_of_mem _ he)
    exact ⟨l :: ls, by simp [hl, hls]⟩

/-- Where the pivot has a qubit every column has one, so the search for the legs raises no error. -/
theorem exists_legs_of_pivot (outside : TermError) {s : Support} (hwf : s.WellFormed)
    {pivot : Qubit} (hpivot : s.pivot? = some pivot.column) : ∃ ls, legs outside s = .ok ls := by
  have hmax := ((Support.pivot?_eq_some_iff hwf).mp hpivot).2
  refine exists_legs outside hwf ?_
  intro b c hc
  exact Nat.le_trans (hmax b c hc) (Nat.succ_le_of_lt pivot.index_lt)

/-! ## Synthesis -/

theorem synthesize_eq_ok {t : Term} {s : Support} {numQubits : Nat} {multiplier : Binary64}
    {c : Circuit} (h : synthesize t s numQubits multiplier = .ok c) :
    s.pivot? = some c.pivot.column ∧ c.pivot.column ≤ numQubits ∧ c.position = t.position ∧
      ∃ ls : List Leg, ls.map Leg.entry = s.columns ∧
        c.instructions = assemble c.pivot ls
          (.rz (.term multiplier t.coefficient t.parameter) c.pivot) := by
  unfold synthesize at h
  split at h
  · simp at h
  · next column hpivot =>
    simp only at h
    split at h
    · simp at h
    · next hle =>
      split at h
      · simp at h
      · next pivot hq =>
        obtain ⟨ls, hls, hc⟩ := bind_eq_ok.mp h
        obtain rfl := Except.ok.inj hc
        obtain rfl := Qubit.ofColumn?_eq_some.mp hq
        exact ⟨hpivot, Nat.le_of_not_lt hle, rfl, ls, legs_eq_ok.mp hls, rfl⟩

theorem synthesize_of_legs {t : Term} {s : Support} {numQubits : Nat} {multiplier : Binary64}
    {pivot : Qubit} {ls : List Leg} (hpivot : s.pivot? = some pivot.column)
    (hregister : pivot.column ≤ numQubits) (hls : ls.map Leg.entry = s.columns) :
    synthesize t s numQubits multiplier = .ok ⟨t.position, pivot,
      assemble pivot ls (.rz (.term multiplier t.coefficient t.parameter) pivot)⟩ := by
  have hlegs : ∀ outside, legs outside s = .ok ls := fun _ => legs_eq_ok.mpr hls
  simp only [synthesize, hpivot, if_neg (Nat.not_lt.mpr hregister), Qubit.ofColumn?_eq_some.mpr rfl,
    hlegs]
  rfl

theorem synthesize_isOk (t : Term) {s : Support} (hwf : s.WellFormed) {column numQubits : Nat}
    (hpivot : s.pivot? = some column) (hregister : column ≤ numQubits)
    (hqubit : column ≤ 0x100000000) (multiplier : Binary64) :
    ∃ c, synthesize t s numQubits multiplier = .ok c := by
  obtain ⟨⟨b, hb⟩, _⟩ := (Support.pivot?_eq_some_iff hwf).mp hpivot
  have hpos := hwf.positive b column hb
  obtain ⟨pivot, rfl⟩ : ∃ q : Qubit, q.column = column :=
    ⟨⟨column - 1, by omega⟩, Nat.sub_add_cancel hpos⟩
  obtain ⟨ls, hls⟩ := exists_legs_of_pivot (.emptyOperator t.position) hwf hpivot
  exact ⟨_, synthesize_of_legs hpivot hregister (legs_eq_ok.mp hls)⟩

/-- The instructions up to the center: the leg taken up first comes last. -/
def climb (pivot : Qubit) (ladder : List Leg) : List Instruction :=
  ladder.reverse.flatMap fun l => l.enter ++ [.cx l.qubit pivot]

/-- The instructions from the center on. -/
def descend (pivot : Qubit) (ladder : List Leg) : List Instruction :=
  ladder.flatMap fun l => .cx l.qubit pivot :: l.leave

/-- The legs of a circuit: the pivot's own leg and the ladder, which hold each column of the support
once. -/
structure Layout (s : Support) (pivot : Qubit) (own : Leg) (ladder : List Leg) : Prop where
  own_qubit : own.qubit = pivot
  perm : ((own :: ladder).map Leg.entry).Perm s.columns

theorem Layout.nodup {s : Support} (hwf : s.WellFormed) {pivot : Qubit} {own : Leg}
    {ladder : List Leg} (h : Layout s pivot own ladder) :
    ((own :: ladder).map Leg.qubit).Nodup := by
  have hcolumns : ((own :: ladder).map (·.qubit.column)).Nodup := by
    have hnodup := (h.perm.map Prod.snd).nodup_iff.mpr (Support.nodup_columns hwf)
    simpa [Leg.entry, Function.comp_def] using hnodup
  refine List.Nodup.of_map Qubit.column ?_
  simpa [Function.comp_def] using hcolumns

theorem Layout.mem_iff {s : Support} {pivot : Qubit} {own : Leg} {ladder : List Leg}
    (h : Layout s pivot own ladder) {l : Leg} :
    l ∈ own :: ladder ↔ l.qubit.column ∈ s.group l.basis := by
  rw [← Support.mem_columns, ← h.perm.mem_iff, List.mem_map]
  constructor
  · intro hl
    exact ⟨l, hl, rfl⟩
  · rintro ⟨k, hk, hentry⟩
    obtain ⟨basis, qubit⟩ := l
    obtain ⟨basis', qubit'⟩ := k
    simp only [Leg.entry, Prod.mk.injEq] at hentry
    obtain ⟨rfl, hcolumn⟩ := hentry
    obtain rfl := Qubit.column_injective hcolumn
    exact hk

/-- Exactly one leg stands on the pivot, and the others make the ladder. -/
theorem exists_own {s : Support} (hwf : s.WellFormed) {pivot : Qubit}
    (hpivot : ∃ b, pivot.column ∈ s.group b) {ls : List Leg} (hls : ls.map Leg.entry = s.columns) :
    ∃ own, ls.filter (·.qubit == pivot) = [own] ∧
      Layout s pivot own (ls.filter (·.qubit != pivot)) := by
  obtain ⟨b, hb⟩ := hpivot
  have hmem : (b, pivot.column) ∈ ls.map Leg.entry := hls ▸ Support.mem_columns.mpr hb
  obtain ⟨own, hown, hentry⟩ := List.mem_map.mp hmem
  have hqubit : own.qubit = pivot := Qubit.column_injective (Prod.mk.inj hentry).2
  obtain ⟨front, back, rfl⟩ := List.append_of_mem hown
  have hlayout : Layout s pivot own (front ++ back) := by
    refine ⟨hqubit, ?_⟩
    rw [← hls]
    exact (List.perm_middle.map Leg.entry).symm
  have hother : ∀ l ∈ front ++ back, l.qubit ≠ pivot := by
    intro l hl hpivot
    have hnotin := (List.nodup_cons.mp (hlayout.nodup hwf)).1
    rw [hqubit, ← hpivot] at hnotin
    exact hnotin (List.mem_map_of_mem hl)
  have hnone : ∀ part : List Leg, (∀ l ∈ part, l.qubit ≠ pivot) →
      part.filter (·.qubit == pivot) = [] := by
    intro part hpart
    rw [List.filter_eq_nil_iff]
    simpa using hpart
  have hladder : (front ++ own :: back).filter (·.qubit != pivot) = front ++ back := by
    rw [List.filter_append, List.filter_cons_of_neg (by simp [hqubit]), ← List.filter_append,
      List.filter_eq_self]
    intro l hl
    simp [hother l hl]
  refine ⟨own, ?_, hladder ▸ hlayout⟩
  rw [List.filter_append, List.filter_cons_of_pos (by simp [hqubit]),
    hnone front fun l hl => hother l (List.mem_append_left _ hl),
    hnone back fun l hl => hother l (List.mem_append_right _ hl)]
  rfl

theorem exists_layout {t : Term} {s : Support} (hwf : s.WellFormed) {numQubits : Nat}
    {multiplier : Binary64} {c : Circuit} (h : synthesize t s numQubits multiplier = .ok c) :
    ∃ own ladder, Layout s c.pivot own ladder ∧
      c.instructions = (own.enter ++ climb c.pivot ladder) ++
        .rz (.term multiplier t.coefficient t.parameter) c.pivot ::
          (descend c.pivot ladder ++ own.leave) := by
  obtain ⟨hpivot, _, _, ls, hls, hinstructions⟩ := synthesize_eq_ok h
  obtain ⟨own, hown, hlayout⟩ := exists_own hwf ((Support.pivot?_eq_some_iff hwf).mp hpivot).1 hls
  refine ⟨own, _, hlayout, ?_⟩
  rw [hinstructions, assemble, hown]
  simp [climb, descend]

end Circuit

end PauliLowering
