import Mathlib.Data.List.Induction
import Mathlib.Data.Nat.Find
import PauliLowering.Proofs.TermLines

/-!
Which texts are read, and which line the others are refused for.

A line is at fault if it gives no term, or a term with another number of symbols than the first line
(`LineFault`). After lines that were read, the next one is refused exactly for its fault
(`lineFault_of_push_error`, `push_error_of_lineFault`). So a text is read if no line is at fault
(`exists_read_of_faultless`), and otherwise the error is the fault of the first such line
(`pushLines_of_firstFault`), whatever comes after it.
-/

namespace PauliLowering

/-! ## Positions of errors -/

namespace Term

variable {position : Nat} {e : TermError}

theorem position_of_readParameter {field : List Char}
    (h : readParameter position field = .error e) : e.position = position := by
  unfold readParameter at h
  simp only at h
  split at h
  · split_ifs at h <;> cases h <;> rfl
  all_goals
    cases h
    rfl

theorem position_of_make {symbols : String} {coefficient : Binary64} {parameter : Nat}
    (h : make position symbols coefficient parameter = .error e) : e.position = position := by
  unfold make at h
  split_ifs at h <;> cases h <;> rfl

/-- A line is refused at the position it was read for. -/
theorem position_of_read {line : List Char} (h : read position line = .error e) :
    e.position = position := by
  unfold read at h
  simp only at h
  split at h
  · cases h
    rfl
  · cases h
    rfl
  · split at h
    · cases h
      rfl
    · cases h
      rfl
    · rcases bind_eq_error.mp h with hparameter | ⟨parameter, _, hmake⟩
      · exact position_of_readParameter hparameter
      · exact position_of_make hmake

end Term

/-! ## Faults -/

/-- What a line is refused for: it gives no term, or one whose symbols are not as many as those of
the first line. Line `i` stands at position `i + 1`. -/
inductive LineFault (lines : List (List Char)) (i : Nat) : TermError → Prop
  | unreadable {line : List Char} {e : TermError} (place : lines[i]? = some line)
      (refused : Term.read (i + 1) line = .error e) : LineFault lines i e
  | mismatch {first line : List Char} {t u : Term} (head : lines[0]? = some first)
      (readHead : Term.read 1 first = .ok t) (place : lines[i]? = some line)
      (readLine : Term.read (i + 1) line = .ok u) (differs : u.numSymbols ≠ t.numSymbols) :
      LineFault lines i (.lengthMismatch (i + 1) t.numSymbols u.numSymbols)

structure FirstFault (lines : List (List Char)) (i : Nat) (e : TermError) : Prop where
  fault : LineFault lines i e
  earlier : ∀ j < i, ∀ e', ¬ LineFault lines j e'

section Faults

variable {lines lines' : List (List Char)} {i : Nat} {e : TermError}

theorem LineFault.lt_length (h : LineFault lines i e) : i < lines.length := by
  cases h with
  | unreadable place => exact (List.getElem?_eq_some_iff.mp place).1
  | mismatch _ _ place => exact (List.getElem?_eq_some_iff.mp place).1

theorem LineFault.position_eq (h : LineFault lines i e) : e.position = i + 1 := by
  cases h with
  | unreadable _ refused => exact Term.position_of_read refused
  | mismatch => rfl

/-- A fault is known from the lines up to its own. -/
theorem LineFault.congr (same : ∀ j ≤ i, lines'[j]? = lines[j]?) (h : LineFault lines i e) :
    LineFault lines' i e := by
  have hfirst := same 0 (Nat.zero_le i)
  have hplace := same i (Nat.le_refl i)
  cases h with
  | unreadable place refused => exact .unreadable (hplace.trans place) refused
  | mismatch head readHead place readLine differs =>
    exact .mismatch (hfirst.trans head) readHead (hplace.trans place) readLine differs

theorem LineFault.append (h : LineFault lines i e) (back : List (List Char)) :
    LineFault (lines ++ back) i e := by
  refine h.congr ?_
  intro j hj
  exact List.getElem?_append_left (Nat.lt_of_le_of_lt hj h.lt_length)

theorem FirstFault.congr (same : ∀ j ≤ i, lines'[j]? = lines[j]?) (h : FirstFault lines i e) :
    FirstFault lines' i e := by
  refine ⟨h.fault.congr same, ?_⟩
  intro j hj e' hfault
  refine h.earlier j hj e' (hfault.congr ?_)
  intro k hk
  exact (same k (Nat.le_trans hk (Nat.le_of_lt hj))).symm

theorem exists_firstFault (hsome : ∃ i e, LineFault lines i e) : ∃ i e, FirstFault lines i e := by
  classical
  obtain ⟨e', hfault⟩ := Nat.find_spec hsome
  refine ⟨Nat.find hsome, e', hfault, ?_⟩
  intro j hj e'' hearlier
  exact Nat.find_min hsome hj ⟨e'', hearlier⟩

end Faults

/-! ## Pushing a line -/

namespace Hamiltonian

theorem push_eq_error_iff {h : Hamiltonian} {t : Term} {e : TermError} :
    h.push t = .error e ↔ h.terms ≠ [] ∧ t.numSymbols ≠ h.numQubits ∧
      e = .lengthMismatch t.position h.numQubits t.numSymbols := by
  unfold push
  split_ifs with hempty hlength
  · simp [List.isEmpty_iff.mp hempty]
  · have hne : h.terms ≠ [] := fun hnil => hempty (by simp [hnil])
    simp [hne, hlength, eq_comm]
  · simp [hlength]

section Push

variable {front : List (List Char)} {mid : Hamiltonian}

theorem pushLines_middle (pushed : empty.pushLines 1 front = .ok mid) (line : List Char)
    (back : List (List Char)) :
    empty.pushLines 1 (front ++ line :: back) =
      (Term.read (front.length + 1) line >>= mid.push) >>= fun next =>
        next.pushLines (front.length + 1 + 1) back := by
  rw [pushLines_append, pushed, Nat.add_comm 1]
  show mid.pushLines (front.length + 1) (line :: back) = _
  simp only [pushLines, bind_assoc]

/-- The first line sets the register. -/
theorem exists_head (pushed : empty.pushLines 1 front = .ok mid) (nonempty : front ≠ []) :
    mid.terms ≠ [] ∧ ∃ first t, front[0]? = some first ∧ Term.read 1 first = .ok t ∧
      t.numSymbols = mid.numQubits := by
  have hterms := readLines_of_pushLines pushed
  have hlt : 0 < mid.terms.length := by
    rw [Term.length_readLines hterms]
    exact List.length_pos_of_ne_nil nonempty
  obtain ⟨first, hfirst, hread⟩ := Term.getElem?_readLines hterms (List.getElem?_eq_getElem hlt)
  have huniform := (Numbered.empty.pushLines pushed).uniform _ (List.getElem_mem hlt)
  exact ⟨List.ne_nil_of_length_pos hlt, first, _, hfirst, hread, huniform⟩

variable {line : List Char} {e : TermError}

theorem lineFault_of_push_error (pushed : empty.pushLines 1 front = .ok mid)
    (refused : (Term.read (front.length + 1) line >>= mid.push) = .error e)
    (back : List (List Char)) : LineFault (front ++ line :: back) front.length e := by
  have hplace : (front ++ line :: back)[front.length]? = some line := by simp
  rcases bind_eq_error.mp refused with hrefused | ⟨u, hread, hpush⟩
  · exact .unreadable hplace hrefused
  · obtain ⟨hterms, hdiffers, rfl⟩ := push_eq_error_iff.mp hpush
    have hne : front ≠ [] := by
      rintro rfl
      obtain rfl := Except.ok.inj pushed
      exact hterms rfl
    obtain ⟨_, first, t, hfirst, hreadFirst, hregister⟩ := exists_head pushed hne
    have hhead : (front ++ line :: back)[0]? = some first := by
      rw [List.getElem?_append_left (List.length_pos_of_ne_nil hne), hfirst]
    rw [← hregister] at hdiffers ⊢
    rw [(Term.read_eq_ok hread).1]
    exact .mismatch hhead hreadFirst hplace hread hdiffers

theorem push_error_of_lineFault (pushed : empty.pushLines 1 front = .ok mid)
    {back : List (List Char)} (fault : LineFault (front ++ line :: back) front.length e) :
    (Term.read (front.length + 1) line >>= mid.push) = .error e := by
  have hplace : (front ++ line :: back)[front.length]? = some line := by simp
  rw [bind_eq_error]
  cases fault with
  | unreadable place refused =>
    obtain rfl := Option.some.inj (hplace.symm.trans place)
    exact .inl refused
  | @mismatch head' line' t u head readHead place readLine differs =>
    obtain rfl := Option.some.inj (hplace.symm.trans place)
    have hne : front ≠ [] := by
      rintro rfl
      obtain rfl := Option.some.inj (head.symm.trans place)
      obtain rfl := Except.ok.inj (readHead.symm.trans readLine)
      exact differs rfl
    obtain ⟨hterms, first, t', hfirst, hreadFirst, hregister⟩ := exists_head pushed hne
    rw [List.getElem?_append_left (List.length_pos_of_ne_nil hne), hfirst] at head
    obtain rfl := Option.some.inj head
    obtain rfl := Except.ok.inj (hreadFirst.symm.trans readHead)
    rw [hregister] at differs ⊢
    refine .inr ⟨u, readLine, push_eq_error_iff.mpr ⟨hterms, differs, ?_⟩⟩
    rw [(Term.read_eq_ok readLine).1]

/-! ## Reading all lines -/

theorem exists_read_of_faultless {lines : List (List Char)}
    (faultless : ∀ i e, ¬ LineFault lines i e) : ∃ h, empty.pushLines 1 lines = .ok h := by
  induction lines using List.reverseRecOn with
  | nil => exact ⟨empty, rfl⟩
  | append_singleton front line ih =>
    obtain ⟨mid, hmid⟩ := ih fun i e h => faultless i e (h.append [line])
    cases hpush : Term.read (front.length + 1) line >>= mid.push with
    | error e => exact absurd (lineFault_of_push_error hmid hpush []) (faultless _ e)
    | ok next =>
      refine ⟨next, ?_⟩
      rw [pushLines_middle hmid, hpush]
      rfl

theorem pushLines_of_firstFault {lines : List (List Char)} {i : Nat} {e : TermError}
    (h : FirstFault lines i e) : empty.pushLines 1 lines = .error e := by
  have hi := h.fault.lt_length
  have hsplit : lines.take i ++ lines[i] :: lines.drop (i + 1) = lines := by simp
  have hlength : (lines.take i).length = i := by simp; omega
  have hfront : ∀ j e', ¬ LineFault (lines.take i) j e' := by
    intro j e' hfault
    have hj := hfault.lt_length
    have hlines := hfault.append (lines[i] :: lines.drop (i + 1))
    rw [hsplit] at hlines
    exact h.earlier j (by omega) e' hlines
  obtain ⟨mid, hmid⟩ := exists_read_of_faultless hfront
  have hfault :
      LineFault (lines.take i ++ lines[i] :: lines.drop (i + 1)) (lines.take i).length e := by
    rw [hsplit, hlength]
    exact h.fault
  rw [← hsplit, pushLines_middle hmid, push_error_of_lineFault hmid hfault]
  rfl

end Push

end Hamiltonian

/-! ## Texts -/

structure ReadableLines (lines : List (List Char)) : Prop where
  reads : ∀ i line, lines[i]? = some line → ∃ t, Term.read (i + 1) line = .ok t
  uniform : ∀ first t i line u, lines[0]? = some first → Term.read 1 first = .ok t →
    lines[i]? = some line → Term.read (i + 1) line = .ok u → u.numSymbols = t.numSymbols

theorem readableLines_iff {lines : List (List Char)} :
    ReadableLines lines ↔ ∀ i e, ¬ LineFault lines i e := by
  constructor
  · rintro ⟨hreads, huniform⟩ i e (⟨place, refused⟩ | ⟨head, readHead, place, readLine, differs⟩)
    · obtain ⟨t, ht⟩ := hreads i _ place
      cases refused.symm.trans ht
    · exact differs (huniform _ _ i _ _ head readHead place readLine)
  · intro hfaultless
    constructor
    · intro i line place
      cases hread : Term.read (i + 1) line with
      | ok t => exact ⟨t, rfl⟩
      | error e => exact absurd (.unreadable place hread) (hfaultless i e)
    · intro first t i line u head readHead place readLine
      by_contra hdiffers
      exact hfaultless i _ (.mismatch head readHead place readLine hdiffers)

/-- The Hamiltonian holds the terms of the lines, in their order and with their positions, and its
register has a qubit for each symbol of a line. -/
structure HoldsLines (lines : List (List Char)) (h : Hamiltonian) : Prop where
  length : h.terms.length = lines.length
  term : ∀ i t, h.terms[i]? = some t → t.position = i + 1 ∧ t.numSymbols = h.numQubits ∧
    ∃ line, lines[i]? = some line ∧ Term.read (i + 1) line = .ok t
  register : lines = [] → h.numQubits = 0

theorem Hamiltonian.holds_of_pushLines {lines : List (List Char)} {h : Hamiltonian}
    (pushed : empty.pushLines 1 lines = .ok h) : HoldsLines lines h := by
  have hterms := readLines_of_pushLines pushed
  refine ⟨Term.length_readLines hterms, ?_, ?_⟩
  · intro i t ht
    obtain ⟨line, hline, hread⟩ := Term.getElem?_readLines hterms ht
    rw [Nat.add_comm] at hread
    have huniform := (Numbered.empty.pushLines pushed).uniform t (List.mem_of_getElem? ht)
    exact ⟨(Term.read_eq_ok hread).1, huniform, line, hline, hread⟩
  · rintro rfl
    obtain rfl := Except.ok.inj pushed
    rfl

/-- **What a text is read as.** A text is read exactly if every line gives a term, with as many
symbols as the first line. It then holds these terms, one for each line. Otherwise the error is the
one of the first line at fault: what that line is refused for, or that its number of symbols is not
the one of the first line. The error names this line, and every text that starts with the same lines
up to it gives the same error. -/
theorem Hamiltonian.read_blames_earliest (text : String) :
    ((∃ h, read text = .ok h) ↔ ReadableLines (Text.lines text.toList)) ∧
    (∀ h, read text = .ok h → HoldsLines (Text.lines text.toList) h) ∧
    (¬ ReadableLines (Text.lines text.toList) →
      ∃ i e, FirstFault (Text.lines text.toList) i e ∧ read text = .error e ∧ e.position = i + 1 ∧
        ∀ other, (∀ j ≤ i, (Text.lines other.toList)[j]? = (Text.lines text.toList)[j]?) →
          read other = .error e) := by
  have hrefused : ¬ ReadableLines (Text.lines text.toList) →
      ∃ i e, FirstFault (Text.lines text.toList) i e := by
    intro hnot
    simp only [readableLines_iff, not_forall, not_not] at hnot
    exact exists_firstFault hnot
  refine ⟨⟨?_, ?_⟩, ?_, ?_⟩
  · rintro ⟨h, hread⟩
    by_contra hnot
    obtain ⟨i, e, hfirst⟩ := hrefused hnot
    cases hread.symm.trans (pushLines_of_firstFault hfirst)
  · intro hreadable
    exact exists_read_of_faultless (readableLines_iff.mp hreadable)
  · intro h hread
    exact holds_of_pushLines hread
  · intro hnot
    obtain ⟨i, e, hfirst⟩ := hrefused hnot
    refine ⟨i, e, hfirst, pushLines_of_firstFault hfirst, hfirst.fault.position_eq, ?_⟩
    intro other hsame
    exact pushLines_of_firstFault (hfirst.congr hsame)

/-- The second line is too long. Neither the malformed line after it nor the kind of line ending
matters. -/
theorem Hamiltonian.read_blames_earliest_second :
    FirstFault (Text.lines "XY 1 0\r\nXYZ 2e0 -0\nQ".toList) 1 (.lengthMismatch 2 2 3) ∧
      read "XY 1 0\nXYZ 2e0 -0" = .error (.lengthMismatch 2 2 3) := by
  have hread : read "XY 1 0\r\nXYZ 2e0 -0\nQ" = .error (.lengthMismatch 2 2 3) := by decide +kernel
  obtain ⟨hok, _, hblame⟩ := read_blames_earliest "XY 1 0\r\nXYZ 2e0 -0\nQ"
  have hnot : ¬ ReadableLines (Text.lines "XY 1 0\r\nXYZ 2e0 -0\nQ".toList) := by
    intro hreadable
    obtain ⟨h, hh⟩ := hok.mpr hreadable
    cases hread.symm.trans hh
  obtain ⟨i, e, hfirst, herror, hposition, hother⟩ := hblame hnot
  obtain rfl := Except.error.inj (hread.symm.trans herror)
  obtain rfl : 1 = i := Nat.succ.inj hposition
  refine ⟨hfirst, hother _ ?_⟩
  intro j hj
  rcases Nat.le_one_iff_eq_zero_or_eq_one.mp hj with rfl | rfl
  · decide +kernel
  · decide +kernel

end PauliLowering
