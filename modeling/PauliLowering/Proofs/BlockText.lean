import PauliLowering.Circuit
import PauliLowering.Proofs.LiteralRoundTrip

/-!
The text of a circuit determines the circuit.

Each field of a statement ends at a character that it does not contain, so the text can be taken
apart from the left (`append_inj_of_notMem`). From this an angle, a gate and a statement are found
again (`Angle.text_injective`, `Gate.head_injective`, `Instruction.text_injective`), then the
statements up to the next block (`statements_inj`), then all blocks of a program (`blocks_inj`). The
lines of a block are one comment and one statement for each instruction (`splitOn_block`).
-/

namespace PauliLowering

/-! ## Fields and separators -/

/-- Two texts without the separator, each followed by nothing or by the separator, are told apart by
what stands before it. -/
theorem append_inj_of_notMem {sep : Char} {a b r r' : List Char} (ha : sep ∉ a) (hb : sep ∉ b)
    (hr : ∀ c ∈ r.head?, c = sep) (hr' : ∀ c ∈ r'.head?, c = sep) (h : a ++ r = b ++ r') :
    a = b ∧ r = r' := by
  induction a generalizing b with
  | nil =>
    cases b with
    | nil => exact ⟨rfl, h⟩
    | cons y b =>
      rw [List.nil_append] at h
      rw [h] at hr
      exact absurd (hr y rfl) fun hy => hb (hy ▸ List.mem_cons_self)
  | cons x a ih =>
    cases b with
    | nil =>
      rw [List.nil_append] at h
      rw [← h] at hr'
      exact absurd (hr' x rfl) fun hx => ha (hx ▸ List.mem_cons_self)
    | cons y b =>
      obtain ⟨rfl, htail⟩ := List.cons.inj h
      obtain ⟨rfl, hrest⟩ := ih (fun hx => ha (List.mem_cons_of_mem _ hx))
        (fun hy => hb (List.mem_cons_of_mem _ hy)) htail
      exact ⟨rfl, hrest⟩

/-- The same with a separator after both. -/
theorem append_sep_inj {sep : Char} {a b r r' : List Char} (ha : sep ∉ a) (hb : sep ∉ b)
    (h : a ++ sep :: r = b ++ sep :: r') : a = b ∧ r = r' := by
  obtain ⟨hab, hrest⟩ := append_inj_of_notMem ha hb (by simp) (by simp) h
  exact ⟨hab, List.tail_eq_of_cons_eq hrest⟩

/-- A text is split after its first line. -/
theorem splitOn_line {a : List Char} (ha : '\n' ∉ a) (r : List Char) :
    (a ++ '\n' :: r).splitOn '\n' = a :: r.splitOn '\n' := by
  have hline : ∀ c ∈ a, (c == '\n') = false := by
    intro c hc
    rw [beq_eq_false_iff_ne]
    rintro rfl
    exact ha hc
  rw [List.splitOn_eq_splitOnP, List.splitOn_eq_splitOnP]
  exact List.splitOnP_append_cons_of_forall_mem hline _ (by decide) r

theorem Numeral.notMem_digits {c : Char} (hc : c.isDigit = false) (n : Nat) : c ∉ digits n := by
  intro h
  simp [isDigit_of_mem_digits h] at hc

theorem Binary64.notMem_literal {v : Binary64} (finite : v.isFinite = true) {c : Char}
    (hc : c.isDigit = false) (hpoint : c ≠ '.') (hminus : c ≠ '-') : c ∉ v.literal.toList := by
  intro h
  rcases literal_chars finite h with hdigit | rfl | rfl
  · simp [hdigit] at hc
  · exact hpoint rfl
  · exact hminus rfl

theorem toString_string (s : String) : toString s = s := rfl

/-! ## Angles -/

def Angle.Finite : Angle → Prop
  | halfPi | negHalfPi => True
  | term multiplier coefficient _ => multiplier.isFinite = true ∧ coefficient.isFinite = true

namespace Angle

theorem text_term (multiplier coefficient : Binary64) (parameter : Nat) :
    (term multiplier coefficient parameter).text.toList = multiplier.literal.toList ++
      '*' :: (coefficient.literal.toList ++
        '*' :: '$' :: '[' :: (Numeral.digits parameter ++ [']'])) := by
  simp [text, toString_string, Numeral.digits]

theorem notMem_text {a : Angle} (finite : a.Finite) {c : Char} (hc : c = ')' ∨ c = ' ' ∨ c = '\n') :
    c ∉ a.text.toList := by
  cases a with
  | halfPi => rcases hc with rfl | rfl | rfl <;> decide
  | negHalfPi => rcases hc with rfl | rfl | rfl <;> decide
  | term multiplier coefficient parameter =>
    have hfield : ∀ v : Binary64, v.isFinite = true → c ∉ v.literal.toList := by
      intro v hv
      rcases hc with rfl | rfl | rfl <;>
        exact Binary64.notMem_literal hv (by decide) (by decide) (by decide)
    have hdigits : c ∉ Numeral.digits parameter := by
      rcases hc with rfl | rfl | rfl <;> exact Numeral.notMem_digits (by decide) _
    rw [text_term]
    rcases hc with rfl | rfl | rfl <;>
      simp [hfield multiplier finite.1, hfield coefficient finite.2, hdigits]

theorem text_injective {a b : Angle} (ha : a.Finite) (hb : b.Finite)
    (same : a.text.toList = b.text.toList) : a = b := by
  have hstar : ∀ m c k, '*' ∈ (term m c k).text.toList := by
    intro m c k
    simp [text_term]
  have hplain : '*' ∉ halfPi.text.toList := by simp [text]
  have hplain' : '*' ∉ negHalfPi.text.toList := by simp [text]
  cases a with
  | halfPi =>
    cases b with
    | halfPi => rfl
    | negHalfPi => simp [text] at same
    | term m c k => exact absurd (hstar m c k) (by rw [← same]; exact hplain)
  | negHalfPi =>
    cases b with
    | halfPi => simp [text] at same
    | negHalfPi => rfl
    | term m c k => exact absurd (hstar m c k) (by rw [← same]; exact hplain')
  | term m c k =>
    cases b with
    | halfPi => exact absurd (hstar m c k) (by rw [same]; exact hplain)
    | negHalfPi => exact absurd (hstar m c k) (by rw [same]; exact hplain')
    | term m' c' k' =>
      have hsep : ∀ v : Binary64, v.isFinite = true → '*' ∉ v.literal.toList := fun v hv =>
        Binary64.notMem_literal hv (by decide) (by decide) (by decide)
      rw [text_term, text_term] at same
      obtain ⟨hm, hrest⟩ := append_sep_inj (hsep m ha.1) (hsep m' hb.1) same
      obtain ⟨hc, hparameter⟩ := append_sep_inj (hsep c ha.2) (hsep c' hb.2) hrest
      have hk : Numeral.digits k = Numeral.digits k' := by simpa using hparameter
      rw [Binary64.literal_injective ha.1 hb.1 (String.toList_inj.mp hm),
        Binary64.literal_injective ha.2 hb.2 (String.toList_inj.mp hc), Numeral.digits_injective hk]

end Angle

/-! ## Gates and operands -/

namespace Gate

def head (g : Gate) : List Char :=
  g.name.toList ++
    match g.angle? with
    | some angle => '(' :: (angle.text.toList ++ [')'])
    | none => []

def Finite (g : Gate) : Prop := ∀ a, g.angle? = some a → a.Finite

theorem head_rotation (a : Angle) :
    (rx a).head = 'r' :: 'x' :: '(' :: (a.text.toList ++ [')']) ∧
      (ry a).head = 'r' :: 'y' :: '(' :: (a.text.toList ++ [')']) ∧
      (rz a).head = 'r' :: 'z' :: '(' :: (a.text.toList ++ [')']) := by
  simp [head, name, angle?]

theorem head_cx : cx.head = ['c', 'x'] := by
  simp [head, name, angle?]

theorem notMem_head {g : Gate} (finite : g.Finite) {c : Char} (hc : c = ' ' ∨ c = '\n') :
    c ∉ g.head := by
  have hangle : ∀ a, g.angle? = some a → c ∉ a.text.toList := fun a ha =>
    Angle.notMem_text (finite a ha) (.inr hc)
  cases g with
  | cx => rcases hc with rfl | rfl <;> decide
  | rx a | ry a | rz a => rcases hc with rfl | rfl <;> simp [head_rotation, hangle a rfl]

theorem head_injective {g g' : Gate} (hg : g.Finite) (hg' : g'.Finite) (same : g.head = g'.head) :
    g = g' := by
  have hangle : ∀ a b, g.angle? = some a → g'.angle? = some b → a.text.toList = b.text.toList →
      a = b := fun a b ha hb => Angle.text_injective (hg a ha) (hg' b hb)
  cases g <;> cases g' <;>
    simp only [head_rotation, head_cx, List.cons.injEq, Char.reduceEq, true_and, false_and,
      and_false, reduceCtorEq, List.append_cancel_right_eq] at same
  case rx.rx a b | ry.ry a b | rz.rz a b => rw [hangle a b rfl rfl same]
  case cx.cx => rfl

end Gate

namespace Qubit

theorem name_toList (q : Qubit) :
    q.name.toList = 'q' :: '[' :: (Numeral.digits q.index ++ [']']) := by
  simp [name, toString_string, Numeral.digits]

theorem notMem_name {c : Char} (hc : c = ',' ∨ c = '\n') (q : Qubit) : c ∉ q.name.toList := by
  have hdigits : c ∉ Numeral.digits q.index := by
    rcases hc with rfl | rfl <;> exact Numeral.notMem_digits (by decide) _
  rw [name_toList]
  rcases hc with rfl | rfl <;> simp [hdigits]

theorem name_injective {p q : Qubit} (same : p.name.toList = q.name.toList) : p = q := by
  have hindex : Numeral.digits p.index = Numeral.digits q.index := by
    simpa [name_toList] using same
  cases p
  cases q
  cases Numeral.digits_injective hindex
  rfl

def furtherNames (qs : List Qubit) : List Char := qs.flatMap fun q => ',' :: ' ' :: q.name.toList

theorem furtherNames_inj {ps qs : List Qubit} (same : furtherNames ps = furtherNames qs) :
    ps = qs := by
  induction ps generalizing qs with
  | nil => cases qs with
    | nil => rfl
    | cons q qs => simp [furtherNames] at same
  | cons p ps ih => cases qs with
    | nil => simp [furtherNames] at same
    | cons q qs =>
      have hhead : ∀ l, ∀ c ∈ (furtherNames l).head?, c = ',' := by
        intro l
        cases l <;> simp [furtherNames]
      have hrest : p.name.toList ++ furtherNames ps = q.name.toList ++ furtherNames qs := by
        simpa [furtherNames] using same
      obtain ⟨hname, htail⟩ := append_inj_of_notMem (notMem_name (.inl rfl) p)
        (notMem_name (.inl rfl) q) (hhead ps) (hhead qs) hrest
      rw [name_injective hname, ih htail]

end Qubit

/-! ## Statements -/

namespace Instruction

theorem operands_nil (g : Gate) : (Instruction.mk g []).operands.toList = [] := rfl

theorem operands_cons (g : Gate) (q : Qubit) (qs : List Qubit) :
    (Instruction.mk g (q :: qs)).operands.toList = q.name.toList ++ Qubit.furtherNames qs := by
  have hintercalate : ∀ (f : List Char) (fs : List (List Char)),
      [',', ' '].intercalate (f :: fs) = f ++ fs.flatMap fun f => ',' :: ' ' :: f := by
    intro f fs
    induction fs generalizing f with
    | nil => simp
    | cons f' fs ih => rw [List.intercalate_cons_cons, ih f']; simp
  simp [operands, String.toList_intercalate, hintercalate, Qubit.furtherNames, List.flatMap_map]

theorem operands_inj {i j : Instruction} (same : i.operands.toList = j.operands.toList) :
    i.qubits = j.qubits := by
  obtain ⟨g, ps⟩ := i
  obtain ⟨g', qs⟩ := j
  cases ps with
  | nil => cases qs with
    | nil => rfl
    | cons q qs => simp [operands_nil, operands_cons, Qubit.name_toList] at same
  | cons p ps => cases qs with
    | nil => simp [operands_nil, operands_cons, Qubit.name_toList] at same
    | cons q qs =>
      have hfurther : Qubit.furtherNames (p :: ps) = Qubit.furtherNames (q :: qs) := by
        simpa [operands_cons, Qubit.furtherNames] using same
      exact Qubit.furtherNames_inj hfurther

theorem newline_notMem_operands (i : Instruction) : '\n' ∉ i.operands.toList := by
  obtain ⟨g, qs⟩ := i
  cases qs with
  | nil => simp [operands_nil]
  | cons q qs =>
    simp [operands_cons, Qubit.furtherNames, Qubit.notMem_name (.inr rfl)]

theorem text_toList (i : Instruction) :
    i.text.toList = i.gate.head ++ ' ' :: (i.operands.toList ++ [';']) := by
  cases h : i.gate.angle? <;> simp [text, Gate.head, h, toString_string]

theorem newline_notMem_text {i : Instruction} (finite : i.gate.Finite) : '\n' ∉ i.text.toList := by
  simp [text_toList, Gate.notMem_head finite (.inr rfl), newline_notMem_operands]

theorem text_injective {i j : Instruction} (hi : i.gate.Finite) (hj : j.gate.Finite)
    (same : i.text.toList = j.text.toList) : i = j := by
  rw [text_toList, text_toList] at same
  obtain ⟨hhead, hrest⟩ := append_sep_inj (Gate.notMem_head hi (.inl rfl))
    (Gate.notMem_head hj (.inl rfl)) same
  have hgate : i.gate = j.gate := Gate.head_injective hi hj hhead
  have hqubits : i.qubits = j.qubits := operands_inj (List.append_cancel_right hrest)
  cases i
  cases j
  exact congrArg₂ Instruction.mk hgate hqubits

/-- A statement is not empty and does not start a new line. -/
theorem exists_text_eq_cons {i : Instruction} (finite : i.gate.Finite) :
    ∃ c rest, i.text.toList = c :: rest ∧ c ≠ '\n' := by
  obtain ⟨c, rest, hcons⟩ : ∃ c rest, i.text.toList = c :: rest :=
    List.exists_cons_of_ne_nil (by simp [text_toList])
  refine ⟨c, rest, hcons, ?_⟩
  rintro rfl
  exact newline_notMem_text finite (by simp [hcons])

end Instruction

def statements (is : List Instruction) : List Char := is.flatMap fun i => i.text.toList ++ ['\n']

/-- Statements end where the text ends or an empty line opens the next block. -/
theorem statements_inj {is js : List Instruction} (hi : ∀ i ∈ is, i.gate.Finite)
    (hj : ∀ j ∈ js, j.gate.Finite) {r r' : List Char} (hr : ∀ c ∈ r.head?, c = '\n')
    (hr' : ∀ c ∈ r'.head?, c = '\n') (same : statements is ++ r = statements js ++ r') :
    is = js ∧ r = r' := by
  induction is generalizing js with
  | nil =>
    cases js with
    | nil => exact ⟨rfl, same⟩
    | cons j js =>
      obtain ⟨c, rest, hcons, hc⟩ := Instruction.exists_text_eq_cons (hj j List.mem_cons_self)
      have hhead : r.head? = some c := by simpa [statements, hcons] using congrArg List.head? same
      exact absurd (hr c hhead) hc
  | cons i is ih =>
    cases js with
    | nil =>
      obtain ⟨c, rest, hcons, hc⟩ := Instruction.exists_text_eq_cons (hi i List.mem_cons_self)
      have hhead : r'.head? = some c := by
        simpa [statements, hcons] using congrArg List.head? same.symm
      exact absurd (hr' c hhead) hc
    | cons j js =>
      have hfirst := hi i List.mem_cons_self
      have hfirst' := hj j List.mem_cons_self
      have hsplit : i.text.toList ++ '\n' :: (statements is ++ r) =
          j.text.toList ++ '\n' :: (statements js ++ r') := by
        simpa [statements] using same
      obtain ⟨htext, hrest⟩ := append_sep_inj
        (Instruction.newline_notMem_text hfirst) (Instruction.newline_notMem_text hfirst') hsplit
      obtain ⟨rfl, hends⟩ := ih (fun i hi' => hi i (List.mem_cons_of_mem _ hi'))
        (fun j hj' => hj j (List.mem_cons_of_mem _ hj')) hrest
      rw [Instruction.text_injective hfirst hfirst' htext]
      exact ⟨rfl, hends⟩

/-- Nothing stands after the line end of the last statement. -/
theorem splitOn_statements {is : List Instruction} (finite : ∀ i ∈ is, i.gate.Finite) :
    (statements is).splitOn '\n' = is.map (fun i => i.text.toList) ++ [[]] := by
  induction is with
  | nil => rfl
  | cons i is ih =>
    have hcons : statements (i :: is) = i.text.toList ++ '\n' :: statements is := by
      simp [statements]
    have hi := Instruction.newline_notMem_text (finite i List.mem_cons_self)
    rw [hcons, splitOn_line hi, ih fun j hj => finite j (List.mem_cons_of_mem _ hj)]
    rfl

/-! ## Blocks -/

namespace Circuit

def Finite (c : Circuit) : Prop := ∀ i ∈ c.instructions, i.gate.Finite

def comment : String := "// New operator from line "

theorem block_toList (c : Circuit) : c.block.toList =
    '\n' :: (comment.toList ++
      (Numeral.digits c.position ++ '\n' :: statements c.instructions)) := by
  have hopening : "\n// New operator from line " = "\n" ++ comment := by decide
  have hblock : c.block = "\n// New operator from line " ++ c.position.repr ++ "\n" ++
      String.join (c.instructions.map fun i => i.text ++ "\n") := rfl
  rw [hblock, hopening]
  simp [String.toList_join, List.flatMap_map, Numeral.digits, statements]

/-- The text of blocks tells the position and the instructions of each. -/
theorem blocks_inj {cs ds : List Circuit} (hc : ∀ c ∈ cs, c.Finite) (hd : ∀ d ∈ ds, d.Finite)
    (same : (cs.flatMap fun c => c.block.toList) = ds.flatMap fun d => d.block.toList) :
    (cs.map fun c => (c.position, c.instructions)) =
      ds.map fun d => (d.position, d.instructions) := by
  induction cs generalizing ds with
  | nil => cases ds with
    | nil => rfl
    | cons d ds => simp [block_toList] at same
  | cons c cs ih => cases ds with
    | nil => simp [block_toList] at same
    | cons d ds =>
      have hhead : ∀ l : List Circuit,
          ∀ x ∈ (l.flatMap fun c => c.block.toList).head?, x = '\n' := by
        intro l
        cases l <;> simp [block_toList]
      have hline : '\n' ∉ Numeral.digits c.position ∧ '\n' ∉ Numeral.digits d.position :=
        ⟨Numeral.notMem_digits (by decide) _, Numeral.notMem_digits (by decide) _⟩
      simp only [List.flatMap_cons, block_toList c, block_toList d, List.cons_append,
        List.append_assoc, List.cons.injEq, true_and, List.append_cancel_left_eq] at same
      obtain ⟨hposition, hrest⟩ := append_sep_inj hline.1 hline.2 same
      obtain ⟨hinstructions, hlater⟩ := statements_inj (hc c List.mem_cons_self)
        (hd d List.mem_cons_self) (hhead cs) (hhead ds) hrest
      have htail := ih (fun c hc' => hc c (List.mem_cons_of_mem _ hc'))
        (fun d hd' => hd d (List.mem_cons_of_mem _ hd')) hlater
      rw [List.map_cons, List.map_cons, htail, hinstructions, Numeral.digits_injective hposition]

theorem splitOn_block {c : Circuit} (finite : c.Finite) : c.block.toList.splitOn '\n' =
    [] :: (comment.toList ++ Numeral.digits c.position) ::
      (c.instructions.map (fun i => i.text.toList) ++ [[]]) := by
  have hcomment : '\n' ∉ comment.toList ++ Numeral.digits c.position := by
    simp [comment, Numeral.notMem_digits]
  have hlines : c.block.toList = [] ++ '\n' :: ((comment.toList ++ Numeral.digits c.position) ++
      '\n' :: statements c.instructions) := by
    simp [block_toList]
  rw [hlines, splitOn_line List.not_mem_nil, splitOn_line hcomment, splitOn_statements finite]

theorem block_inj {c d : Circuit} (hc : c.Finite) (hd : d.Finite) :
    c.block = d.block ↔ c.position = d.position ∧ c.instructions = d.instructions := by
  constructor
  · intro same
    have hsingle : ([c].flatMap fun c => c.block.toList) = [d].flatMap fun d => d.block.toList := by
      simp only [List.flatMap_singleton, same]
    have hblocks := blocks_inj (by simpa using hc) (by simpa using hd) hsingle
    simpa using hblocks
  · rintro ⟨hposition, hinstructions⟩
    rw [← String.toList_inj, block_toList, block_toList, hposition, hinstructions]

/-- A block tells the position and the instructions of its circuit: after the comment it has one
line for each instruction, which is not empty and is the text of no other instruction. -/
theorem block_loses_nothing {c d : Circuit} (hc : c.Finite) (hd : d.Finite) :
    (c.block = d.block ↔ c.position = d.position ∧ c.instructions = d.instructions) ∧
      c.block.toList.splitOn '\n' = [] :: (comment.toList ++ Numeral.digits c.position) ::
        (c.instructions.map (fun i => i.text.toList) ++ [[]]) ∧
      ∀ i ∈ c.instructions, i.text.toList ≠ [] ∧ ∀ j ∈ d.instructions, i.text = j.text → i = j := by
  refine ⟨block_inj hc hd, splitOn_block hc, fun i hi => ⟨?_, fun j hj same => ?_⟩⟩
  · obtain ⟨x, rest, hcons, _⟩ := Instruction.exists_text_eq_cons (hc i hi)
    simp [hcons]
  · exact Instruction.text_injective (hc i hi) (hd j hj) (by rw [same])

/-- Gates with too few and too many operands, and a product with a negative zero in it. -/
def misfit : Circuit where
  position := 7
  pivot := ⟨4, by decide⟩
  instructions :=
    [⟨.cx, []⟩,
      ⟨.rz (.term { Binary64.zero with negative := true } .half 12),
        [⟨9, by decide⟩, ⟨4, by decide⟩]⟩,
      ⟨.cx, [⟨9, by decide⟩, ⟨9, by decide⟩, ⟨4, by decide⟩]⟩]

def misfitReversed : Circuit := { misfit with instructions := misfit.instructions.reverse }

theorem block_loses_nothing_misfit : misfit.Finite ∧ misfitReversed.Finite ∧
    (misfit.block = misfitReversed.block ↔
      misfit.position = misfitReversed.position ∧
        misfit.instructions = misfitReversed.instructions) ∧
    misfit.block.toList.splitOn '\n' = [] :: (comment.toList ++ Numeral.digits 7) ::
      (misfit.instructions.map (fun i => i.text.toList) ++ [[]]) ∧
    ∀ i ∈ misfit.instructions, i.text.toList ≠ [] ∧
      ∀ j ∈ misfitReversed.instructions, i.text = j.text → i = j := by
  have hfinite : misfit.Finite := by
    simp [Finite, misfit, Gate.Finite, Gate.angle?, Angle.Finite, Binary64.isFinite, Binary64.zero,
      Binary64.half, Binary64.infinityCode]
  have hreversed : misfitReversed.Finite := by
    intro i hi
    exact hfinite i (List.mem_reverse.mp hi)
  exact ⟨hfinite, hreversed, block_loses_nothing hfinite hreversed⟩

end Circuit

end PauliLowering
