import PauliLowering.Proofs.ProgramOrder

/-!
A text read line by line.

Lines after a line feed are read on their own (`Text.lines_append`). A Hamiltonian that was read
holds the terms of its lines in their order (`Hamiltonian.pushLines_eq_ok`), numbered in ascending
order and with as many symbols as the register has qubits (`Numbered.read`). So lines put at the end
of a text put their terms at the end of its Hamiltonian (`Hamiltonian.read_append`), and their
blocks at the end of its program.
-/

namespace PauliLowering

/-! ## Lines -/

namespace Text

theorem lines_ne_nil {cs : List Char} (hne : cs ≠ []) : lines cs ≠ [] := by
  fun_cases lines cs <;> simp_all

/-- A line feed at the end of a text keeps its lines apart from what follows. -/
theorem lines_append {cs : List Char} (hlast : cs.getLast? = some '\n') (ds : List Char) :
    lines (cs ++ ds) = lines cs ++ lines ds := by
  fun_induction lines cs with
  | case1 => simp at hlast
  | case2 cs ih =>
    cases cs with
    | nil => rfl
    | cons c cs => simpa [lines] using ih (by simpa using hlast)
  | case3 cs ih =>
    cases cs with
    | nil => rfl
    | cons c cs => simpa [lines] using ih (by simpa using hlast)
  | case4 c cs hfeed _ hnil =>
    have hcs : cs = [] := by
      by_contra hne
      exact lines_ne_nil hne hnil
    rw [hcs, List.getLast?_singleton] at hlast
    exact absurd (Option.some.inj hlast) hfeed
  | case5 c cs hfeed hreturn l ls hcons ih =>
    cases cs with
    | nil => simp [lines] at hcons
    | cons d cs =>
      have hreturn' : ∀ rest, c = '\r' → (d :: cs) ++ ds = '\n' :: rest → False := by
        intro rest hc hd
        exact hreturn cs hc (by rw [(List.cons.inj hd).1])
      have hrest := ih (by simpa using hlast)
      rw [hcons] at hrest
      rw [List.cons_append, lines, hrest]
      · rfl
      · exact hfeed
      · exact hreturn'

end Text

/-! ## Terms of lines -/

namespace Term

theorem make_eq_ok {position parameter : Nat} {symbols : String} {coefficient : Binary64} {t : Term}
    (h : make position symbols coefficient parameter = .ok t) :
    t.position = position ∧ t.symbols = symbols := by
  unfold make at h
  split_ifs at h
  all_goals
    obtain rfl := Except.ok.inj h
    exact ⟨rfl, rfl⟩

/-- A term that was read stands at the position it was read for, and its symbols are the first
field. -/
theorem read_eq_ok {position : Nat} {line : List Char} {t : Term} (h : read position line = .ok t) :
    t.position = position ∧ (Text.fields line).head? = some t.symbols.toList := by
  unfold read at h
  simp only at h
  split at h
  · cases h
  · cases h
  · next symbols coefficient rest hfields =>
    split at h
    · cases h
    · cases h
    · obtain ⟨parameter, _, hmake⟩ := bind_eq_ok.mp h
      obtain ⟨hposition, hsymbols⟩ := make_eq_ok hmake
      exact ⟨hposition, by rw [hfields, hsymbols, List.head?_cons, String.toList_ofList]⟩

def readLines (position : Nat) : List (List Char) → Except TermError (List Term)
  | [] => .ok []
  | line :: rest => do
    let t ← read position line
    return t :: (← readLines (position + 1) rest)

theorem readLines_cons_eq_ok {position : Nat} {line : List Char} {rest : List (List Char)}
    {terms : List Term} : readLines position (line :: rest) = .ok terms ↔
      ∃ t ts, read position line = .ok t ∧ readLines (position + 1) rest = .ok ts ∧
        terms = t :: ts := by
  simp only [readLines, bind_eq_ok, pure, Except.pure, Except.ok.injEq]
  constructor
  · rintro ⟨t, ht, ts, hts, rfl⟩
    exact ⟨t, ts, ht, hts, rfl⟩
  · rintro ⟨t, ts, ht, hts, rfl⟩
    exact ⟨t, ht, ts, hts, rfl⟩

section ReadLines

variable {position : Nat} {lines : List (List Char)} {terms : List Term}

theorem length_readLines (h : readLines position lines = .ok terms) :
    terms.length = lines.length := by
  induction lines generalizing position terms with
  | nil =>
    obtain rfl := Except.ok.inj h
    rfl
  | cons line rest ih =>
    obtain ⟨t, ts, _, hts, rfl⟩ := readLines_cons_eq_ok.mp h
    simp [ih hts]

/-- Each line gives the term in its own place. -/
theorem getElem?_readLines (h : readLines position lines = .ok terms) {i : Nat} {t : Term}
    (ht : terms[i]? = some t) :
    ∃ line, lines[i]? = some line ∧ read (position + i) line = .ok t := by
  induction lines generalizing position terms i with
  | nil =>
    obtain rfl := Except.ok.inj h
    simp at ht
  | cons line rest ih =>
    obtain ⟨u, us, hu, hus, rfl⟩ := readLines_cons_eq_ok.mp h
    cases i with
    | zero =>
      obtain rfl : u = t := by simpa using ht
      exact ⟨line, rfl, hu⟩
    | succ i =>
      obtain ⟨l, hl, hread⟩ := ih hus ht
      exact ⟨l, hl, by rwa [Nat.add_right_comm] at hread⟩

/-- Every term was read from its line. -/
theorem exists_line_of_mem (h : readLines position lines = .ok terms) {t : Term} (ht : t ∈ terms) :
    ∃ i line, lines[i]? = some line ∧ read (position + i) line = .ok t := by
  obtain ⟨i, hi⟩ := List.mem_iff_getElem?.mp ht
  exact ⟨i, getElem?_readLines h hi⟩

/-- Every line gives a term. -/
theorem exists_term_of_mem (h : readLines position lines = .ok terms) {line : List Char}
    (hline : line ∈ lines) : ∃ t ∈ terms, ∃ p, read p line = .ok t := by
  induction lines generalizing position terms with
  | nil => cases hline
  | cons l rest ih =>
    obtain ⟨u, us, hu, hus, rfl⟩ := readLines_cons_eq_ok.mp h
    rcases List.mem_cons.mp hline with rfl | hline
    · exact ⟨u, List.mem_cons_self, position, hu⟩
    · obtain ⟨t, ht, hread⟩ := ih hus hline
      exact ⟨t, List.mem_cons_of_mem _ ht, hread⟩

end ReadLines

end Term

/-! ## Pushing terms -/

namespace Hamiltonian

theorem push_eq_ok {h h' : Hamiltonian} {t : Term} (pushed : h.push t = .ok h') :
    h'.terms = h.terms ++ [t] ∧ h'.numQubits = t.numSymbols ∧
      (h.terms ≠ [] → h'.numQubits = h.numQubits) := by
  unfold push at pushed
  split_ifs at pushed with hempty hlength
  · obtain rfl := Except.ok.inj pushed
    have hnil : h.terms = [] := List.isEmpty_iff.mp hempty
    exact ⟨by simp [hnil], rfl, fun hne => absurd hnil hne⟩
  · obtain rfl := Except.ok.inj pushed
    exact ⟨rfl, (Decidable.not_not.mp hlength).symm, fun _ => rfl⟩

/-- A term that is pushed has a symbol for each qubit, and the terms before it still have. -/
theorem uniform_of_push {h h' : Hamiltonian} {t : Term} (pushed : h.push t = .ok h')
    (uniform : ∀ u ∈ h.terms, u.numSymbols = h.numQubits) :
    ∀ u ∈ h'.terms, u.numSymbols = h'.numQubits := by
  obtain ⟨hterms, hsymbols, hregister⟩ := push_eq_ok pushed
  intro u hu
  rw [hterms] at hu
  rcases List.mem_append.mp hu with hu | hu
  · rw [hregister (List.ne_nil_of_mem hu)]
    exact uniform u hu
  · rw [List.mem_singleton.mp hu, hsymbols]

theorem pushLines_append (h : Hamiltonian) (position : Nat) (front back : List (List Char)) :
    h.pushLines position (front ++ back) =
      h.pushLines position front >>= fun mid => mid.pushLines (position + front.length) back := by
  induction front generalizing h position with
  | nil => rfl
  | cons line front ih =>
    simp only [List.cons_append, pushLines, bind_assoc, ih, List.length_cons, Nat.add_assoc,
      Nat.add_comm 1]

/-- Pushing lines puts their terms at the end, and leaves the register as it is once there is one.
-/
theorem pushLines_eq_ok {h h' : Hamiltonian} {position : Nat} {lines : List (List Char)}
    (pushed : h.pushLines position lines = .ok h') :
    ∃ terms, Term.readLines position lines = .ok terms ∧ h'.terms = h.terms ++ terms ∧
      (h.terms ≠ [] → h'.numQubits = h.numQubits) := by
  induction lines generalizing h position with
  | nil =>
    obtain rfl := Except.ok.inj pushed
    exact ⟨[], rfl, (List.append_nil _).symm, fun _ => rfl⟩
  | cons line rest ih =>
    obtain ⟨t, hread, hrest⟩ := bind_eq_ok.mp pushed
    obtain ⟨h₁, hpush, hlines⟩ := bind_eq_ok.mp hrest
    obtain ⟨hterms₁, _, hregister₁⟩ := push_eq_ok hpush
    obtain ⟨ts, hts, hterms, hregister⟩ := ih hlines
    refine ⟨t :: ts, Term.readLines_cons_eq_ok.mpr ⟨t, ts, hread, hts, rfl⟩, ?_, ?_⟩
    · simp [hterms, hterms₁]
    · intro hne
      rw [hregister (by simp [hterms₁]), hregister₁ hne]

theorem readLines_of_pushLines {lines : List (List Char)} {h : Hamiltonian}
    (pushed : empty.pushLines 1 lines = .ok h) : Term.readLines 1 lines = .ok h.terms := by
  obtain ⟨terms, hread, hterms, _⟩ := pushLines_eq_ok pushed
  rw [hread, hterms]
  rfl

theorem read_eq_ok {text : String} {h : Hamiltonian} (readable : read text = .ok h) :
    Term.readLines 1 (Text.lines text.toList) = .ok h.terms :=
  readLines_of_pushLines readable

end Hamiltonian

/-! ## Terms that were read -/

/-- The terms are numbered in ascending order from below `next`, and the register has a qubit for
each of their symbols. -/
structure Numbered (h : Hamiltonian) (next : Nat) : Prop where
  ascending : h.terms.Pairwise fun t u => t.position < u.position
  below : ∀ t ∈ h.terms, t.position < next
  uniform : ∀ t ∈ h.terms, t.numSymbols = h.numQubits

namespace Numbered

theorem empty : Numbered .empty 1 :=
  ⟨.nil, by simp [Hamiltonian.empty], by simp [Hamiltonian.empty]⟩

theorem push {h h' : Hamiltonian} {next : Nat} {t : Term} (numbered : Numbered h next)
    (position : t.position = next) (pushed : h.push t = .ok h') : Numbered h' (next + 1) := by
  obtain ⟨hterms, _, _⟩ := Hamiltonian.push_eq_ok pushed
  refine ⟨?_, ?_, Hamiltonian.uniform_of_push pushed numbered.uniform⟩
  · rw [hterms, List.pairwise_append]
    refine ⟨numbered.ascending, List.pairwise_singleton _ _, ?_⟩
    intro u hu v hv
    obtain rfl := List.mem_singleton.mp hv
    rw [position]
    exact numbered.below u hu
  · intro u hu
    rw [hterms] at hu
    rcases List.mem_append.mp hu with hu | hu
    · exact Nat.lt_succ_of_lt (numbered.below u hu)
    · rw [List.mem_singleton.mp hu, position]
      exact Nat.lt_succ_self next

theorem pushLines {h h' : Hamiltonian} {next : Nat} {lines : List (List Char)}
    (numbered : Numbered h next) (pushed : h.pushLines next lines = .ok h') :
    Numbered h' (next + lines.length) := by
  induction lines generalizing h next with
  | nil =>
    cases pushed
    exact numbered
  | cons line lines ih =>
    obtain ⟨t, hread, hrest⟩ := bind_eq_ok.mp pushed
    obtain ⟨h₁, hpush, hlines⟩ := bind_eq_ok.mp hrest
    have hnext := ih (numbered.push (Term.read_eq_ok hread).1 hpush) hlines
    rwa [List.length_cons, Nat.add_comm lines.length, ← Nat.add_assoc]

theorem read {text : String} {h : Hamiltonian} (readable : Hamiltonian.read text = .ok h) :
    ∃ next, Numbered h next :=
  ⟨_, empty.pushLines readable⟩

end Numbered

/-! ## Appended lines -/

/-- The blocks of lines that are numbered from `position` on. -/
def lineBlocks (numQubits : Nat) (multiplier : Binary64) (position : Nat)
    (lines : List (List Char)) : Except TermError (List String) := do
  (← Term.readLines position lines).mapM (Term.lower numQubits multiplier)

section Lowers

variable {numQubits : Nat} {multiplier : Binary64} {lowered : List (Term × Circuit)}

theorem Lowers.append_inv {front back : List Term}
    (h : Lowers numQubits multiplier (front ++ back) lowered) :
    ∃ before after, lowered = before ++ after ∧ Lowers numQubits multiplier front before ∧
      Lowers numQubits multiplier back after := by
  obtain ⟨before, after, rfl, hfront, hback⟩ := List.map_eq_append_iff.mp h.terms_eq
  refine ⟨before, after, rfl, ⟨hfront, ?_⟩, ⟨hback, ?_⟩⟩
  · exact fun p hp => h.circuit p (List.mem_append_left _ hp)
  · exact fun p hp => h.circuit p (List.mem_append_right _ hp)

theorem Lowers.mapM_lower {terms : List Term} (h : Lowers numQubits multiplier terms lowered) :
    terms.mapM (Term.lower numQubits multiplier) = .ok (lowered.map fun p => p.2.block) := by
  obtain ⟨rfl, hcircuit⟩ := h
  induction lowered with
  | nil => rfl
  | cons p rest ih =>
    obtain ⟨hp, hrest⟩ := List.forall_mem_cons.mp hcircuit
    simp only [List.map_cons, List.mapM_cons, bind_eq_ok]
    exact ⟨_, Term.lower_eq_ok.mpr ⟨p.2, hp, rfl⟩, _, ih hrest, rfl⟩

end Lowers

/-- The lines of two texts, the first one ended by a line feed, are read one after the other. -/
theorem Hamiltonian.read_append {first second : String} (ends : first.toList.getLast? = some '\n')
    {h : Hamiltonian} (readable : read (first ++ second) = .ok h) :
    ∃ start terms, read first = .ok start ∧
      Term.readLines ((Text.lines first.toList).length + 1) (Text.lines second.toList) = .ok terms ∧
      h.terms = start.terms ++ terms ∧ h.numQubits = start.numQubits := by
  rw [read, String.toList_append, Text.lines_append ends, pushLines_append] at readable
  obtain ⟨start, hstart, hrest⟩ := bind_eq_ok.mp readable
  obtain ⟨terms, hterms, happend, hregister⟩ := pushLines_eq_ok hrest
  have hne : start.terms ≠ [] := by
    have hlength := Term.length_readLines (read_eq_ok hstart)
    have hcs : first.toList ≠ [] := fun hnil => by simp [hnil] at ends
    intro hnil
    rw [hnil, List.length_nil] at hlength
    exact Text.lines_ne_nil hcs (List.length_eq_zero_iff.mp hlength.symm)
  rw [Nat.add_comm] at hterms
  exact ⟨start, terms, hstart, hterms, happend, hregister hne⟩

/-- **Appended lines only append to the program.** If a text that ends with a line feed is read
together with a second text, and lowered to a program, then it is lowered alone to a beginning of
that program, however it is lowered. What follows are the blocks of the lines of the second text,
numbered from after the last line of the first. -/
theorem program_append_lines {settings : Settings} (valid : settings.validate = .ok ())
    {first second : String} (ends : first.toList.getLast? = some '\n') {h : Hamiltonian}
    (readable : Hamiltonian.read (first ++ second) = .ok h) {text : String}
    (written : h.Outcome settings (.ok text)) :
    ∃ start program blocks, Hamiltonian.read first = .ok start ∧
      (∀ o, start.Outcome settings o → o = .ok program) ∧
      lineBlocks start.numQubits settings.angleMultiplier ((Text.lines first.toList).length + 1)
        (Text.lines second.toList) = .ok blocks ∧
      text = program ++ String.join blocks := by
  obtain ⟨start, terms, hstart, hterms, happend, hregister⟩ := Hamiltonian.read_append ends readable
  obtain ⟨_, hnumbered⟩ := Numbered.read readable
  obtain ⟨_, hnumbered'⟩ := Numbered.read hstart
  obtain ⟨lowered, hlowers, rfl⟩ :=
    (written.eq_ok_iff_of_ascending valid hnumbered.ascending).mp rfl
  rw [happend, hregister] at hlowers
  obtain ⟨before, after, rfl, hbefore, hafter⟩ := hlowers.append_inv
  refine ⟨start, settings.dialect.header start.numQubits ++
    String.join (before.map fun p => p.2.block), after.map fun p => p.2.block, hstart, ?_, ?_, ?_⟩
  · intro o outcome
    exact (outcome.eq_ok_iff_of_ascending valid hnumbered'.ascending).mpr ⟨before, hbefore, rfl⟩
  · exact bind_eq_ok.mpr ⟨terms, hterms, hafter.mapM_lower⟩
  · rw [hregister, List.map_append, String.append_assoc]
    simp

def leadingTerm : Term := .first "XI" (by decide)

def appendedTerm : Term :=
  { Term.first "IY" (by decide) with
    position := 2, position_pos := Nat.succ_pos 1, parameter := 2, parameter_pos := Nat.succ_pos 1 }

def leadingProgram : String :=
  "OPENQASM 2.0;\ninclude \"qelib1.inc\";\nqreg q[2];\ncreg c[2];\n" ++
  "\n// New operator from line 1\nry(pi/2) q[0];\nrz(0.5*0.5*$[1]) q[0];\nry(-pi/2) q[0];\n"

def appendedBlock : String :=
  "\n// New operator from line 2\nrx(-pi/2) q[1];\nrz(0.5*0.5*$[2]) q[1];\nrx(pi/2) q[1];\n"

theorem program_append_lines_second :
    ∃ h start, Hamiltonian.read ("XI 0.5 0\r\n" ++ "IY 5e-1 0") = .ok h ∧
      h.program {} = .ok (leadingProgram ++ appendedBlock) ∧
      Hamiltonian.read "XI 0.5 0\r\n" = .ok start ∧ start.program {} = .ok leadingProgram := by
  have hvalid : Settings.validate {} = .ok () := rfl
  have hread : Hamiltonian.read ("XI 0.5 0\r\n" ++ "IY 5e-1 0") =
      .ok ⟨2, [leadingTerm, appendedTerm]⟩ := toOption_eq_some.mp (by decide +kernel)
  have hwritten : (Hamiltonian.mk 2 [leadingTerm, appendedTerm]).program {} =
      .ok (leadingProgram ++ appendedBlock) := toOption_eq_some.mp (by decide +kernel)
  obtain ⟨start, program, blocks, hstart, hprogram, hblocks, htext⟩ :=
    program_append_lines hvalid (by decide) hread (hwritten ▸ Hamiltonian.Outcome.direct)
  have hstart' : Hamiltonian.read "XI 0.5 0\r\n" = .ok ⟨2, [leadingTerm]⟩ :=
    toOption_eq_some.mp (by decide +kernel)
  obtain rfl := Except.ok.inj (hstart.symm.trans hstart')
  have hblocks' : lineBlocks 2 .half ((Text.lines "XI 0.5 0\r\n".toList).length + 1)
      (Text.lines "IY 5e-1 0".toList) = .ok [appendedBlock] :=
    toOption_eq_some.mp (by decide +kernel)
  obtain rfl := Except.ok.inj (hblocks.symm.trans hblocks')
  obtain rfl : leadingProgram = program := by simpa [String.join] using htext
  exact ⟨_, _, hread, hwritten, hstart, hprogram _ .direct⟩

end PauliLowering
