import PauliLowering.Proofs.LineFaults

/-!
Pushing terms in place, whether or not each push succeeds.

`Hamiltonian.pushInPlace` is a push as a procedure that changes a Hamiltonian write by write, and
`attempt` is what comes of it. It does what `push` says, and it writes nothing if `push` refuses the
term (`attempt_of_ok`, `attempt_of_error`). `Pushed` relates a Hamiltonian to each one that pushes
make of it. One push keeps the terms as wide as the register (`Sized.push`) and a register that is
in use (`push_eq_ok`), so every run of pushes does (`Pushed.sized`, `Pushed.register`). Terms pushed
up to the first refusal are such a run (`ofTerms_eq_ok_iff`, `ofTerms_eq_error_iff`).
-/

namespace PauliLowering

theorem Term.numSymbols_ne_zero (t : Term) : t.numSymbols ≠ 0 := by
  intro hzero
  exact t.symbols_nonempty (String.length_eq_zero_iff.mp hzero)

namespace Hamiltonian

variable {h h' : Hamiltonian} {t : Term}

/-! ## Pushing in place -/

/-- Append a term in place. For the first term the register size is written before the term is. -/
def pushInPlace (t : Term) : ExceptT TermError (StateM Hamiltonian) Unit := do
  let h ← get
  if h.terms.isEmpty then
    set { h with numQubits := t.numSymbols }
  else if t.numSymbols ≠ h.numQubits then
    throw (.lengthMismatch t.position h.numQubits t.numSymbols)
  modify fun h => { h with terms := h.terms ++ [t] }

/-- What comes of a push in place, and the Hamiltonian after it with all that was written. -/
def attempt (h : Hamiltonian) (t : Term) : Except TermError Unit × Hamiltonian :=
  (pushInPlace t).run.run h

theorem attempt_eq (h : Hamiltonian) (t : Term) : h.attempt t =
    if h.terms.isEmpty then (.ok (), ⟨t.numSymbols, h.terms ++ [t]⟩)
    else if t.numSymbols ≠ h.numQubits then
      (.error (.lengthMismatch t.position h.numQubits t.numSymbols), h)
    else (.ok (), ⟨h.numQubits, h.terms ++ [t]⟩) := by
  have hget : ∀ rest : Hamiltonian → ExceptT TermError (StateM Hamiltonian) Unit,
      (get >>= rest).run.run h = (rest h).run.run h := fun _ => rfl
  rw [attempt, pushInPlace, hget]
  split_ifs
  · rfl
  · rfl
  · rfl

theorem attempt_of_ok (pushed : h.push t = .ok h') : h.attempt t = (.ok (), h') := by
  rw [attempt_eq]
  unfold push at pushed
  split_ifs at pushed ⊢ with hempty hlength
  · obtain rfl := Except.ok.inj pushed
    rw [List.isEmpty_iff.mp hempty, List.nil_append]
  · rw [Except.ok.inj pushed]

theorem attempt_of_error {e : TermError} (refused : h.push t = .error e) :
    h.attempt t = (.error e, h) := by
  obtain ⟨hterms, hlength, rfl⟩ := push_eq_error_iff.mp refused
  rw [attempt_eq, if_neg (by simpa using hterms), if_pos hlength]

/-- All that an attempt can do. -/
theorem attempt_cases {outcome : Except TermError Unit} (made : h.attempt t = (outcome, h')) :
    (outcome = .ok () ∧ h.push t = .ok h') ∨
      ∃ e, outcome = .error e ∧ h.push t = .error e ∧ h' = h := by
  cases hpush : h.push t with
  | ok next =>
    rw [attempt_of_ok hpush] at made
    obtain ⟨rfl, rfl⟩ := Prod.mk.inj made
    exact .inl ⟨rfl, rfl⟩
  | error e =>
    rw [attempt_of_error hpush] at made
    obtain ⟨rfl, rfl⟩ := Prod.mk.inj made
    exact .inr ⟨e, rfl, rfl, rfl⟩

/-! ## Runs of pushes -/

/-- What a Hamiltonian is after pushes in place, which are listed with their terms and what came of
them. -/
inductive Pushed (start : Hamiltonian) : List (Term × Except TermError Unit) → Hamiltonian → Prop
  | start : Pushed start [] start
  | push {made : List (Term × Except TermError Unit)} {h after : Hamiltonian} {t : Term}
      {outcome : Except TermError Unit} (earlier : Pushed start made h)
      (last : h.attempt t = (outcome, after)) : Pushed start (made ++ [(t, outcome)]) after

def accepted (made : List (Term × Except TermError Unit)) : List Term :=
  (made.filter (·.2.isOk)).map Prod.fst

/-- Every term has a symbol for each qubit of the register, and a register without qubits has no
terms. -/
structure Sized (h : Hamiltonian) : Prop where
  symbols : ∀ t ∈ h.terms, t.numSymbols = h.numQubits
  inhabited : h.numQubits = 0 → h.terms = []

theorem accepted_concat (made : List (Term × Except TermError Unit)) (t : Term)
    (outcome : Except TermError Unit) :
    accepted (made ++ [(t, outcome)]) = accepted made ++ if outcome.isOk then [t] else [] := by
  cases hok : outcome.isOk <;> simp [accepted, hok]

theorem Sized.empty : Sized empty := ⟨by simp [Hamiltonian.empty], fun _ => rfl⟩

theorem Sized.push (sized : Sized h) (pushed : h.push t = .ok h') : Sized h' := by
  refine ⟨uniform_of_push pushed sized.symbols, ?_⟩
  intro hzero
  rw [(push_eq_ok pushed).2.1] at hzero
  exact absurd hzero t.numSymbols_ne_zero

section Pushed

variable {start : Hamiltonian} {made : List (Term × Except TermError Unit)}

theorem exists_pushed (start : Hamiltonian) (terms : List Term) :
    ∃ made h, Pushed start made h ∧ made.map Prod.fst = terms := by
  induction terms using List.reverseRecOn with
  | nil => exact ⟨[], start, .start, rfl⟩
  | append_singleton front t ih =>
    obtain ⟨made, h, hpushed, hterms⟩ := ih
    exact ⟨_, _, hpushed.push (t := t) rfl, by simp [hterms]⟩

theorem pushed_nil_iff : Pushed start [] h ↔ h = start := by
  constructor
  · intro hpushed
    generalize hlist : [] = list at hpushed
    cases hpushed with
    | start => rfl
    | push => exact absurd hlist (by simp)
  · rintro rfl
    exact .start

theorem pushed_concat_iff {outcome : Except TermError Unit} :
    Pushed start (made ++ [(t, outcome)]) h' ↔
      ∃ h, Pushed start made h ∧ h.attempt t = (outcome, h') := by
  constructor
  · intro hpushed
    generalize hlist : made ++ [(t, outcome)] = list at hpushed
    cases hpushed with
    | start => exact absurd hlist (by simp)
    | push earlier last =>
      obtain ⟨rfl, hlast⟩ := List.append_inj' hlist rfl
      obtain ⟨rfl, rfl⟩ := Prod.mk.inj (List.singleton_inj.mp hlast)
      exact ⟨_, earlier, last⟩
  · rintro ⟨h, earlier, last⟩
    exact earlier.push last

/-- The terms are those at the start and after them the accepted ones. -/
theorem Pushed.terms_eq (pushed : Pushed start made h) :
    h.terms = start.terms ++ accepted made := by
  induction pushed with
  | start => exact (List.append_nil _).symm
  | push _ last ih =>
    rw [accepted_concat, ← List.append_assoc, ← ih]
    rcases attempt_cases last with ⟨rfl, hpush⟩ | ⟨e, rfl, _, rfl⟩
    · exact (push_eq_ok hpush).1
    · exact (List.append_nil _).symm

theorem Pushed.sized (pushed : Pushed start made h) (sized : Sized start) : Sized h := by
  induction pushed with
  | start => exact sized
  | push _ last ih =>
    rcases attempt_cases last with ⟨_, hpush⟩ | ⟨_, _, _, rfl⟩
    · exact ih.push hpush
    · exact ih

/-- A register that is in use stays, and only terms of its width are accepted. -/
theorem Pushed.register (pushed : Pushed start made h) (used : start.terms ≠ []) :
    h.numQubits = start.numQubits ∧ ∀ t ∈ accepted made, t.numSymbols = start.numQubits := by
  induction pushed with
  | start => exact ⟨rfl, by simp [accepted]⟩
  | push earlier last ih =>
    obtain ⟨hregister, haccepted⟩ := ih
    rw [accepted_concat]
    rcases attempt_cases last with ⟨rfl, hpush⟩ | ⟨e, rfl, _, rfl⟩
    · obtain ⟨_, hwidth, hkept⟩ := push_eq_ok hpush
      have hafter := (hkept (by simp [earlier.terms_eq, used])).trans hregister
      refine ⟨hafter, ?_⟩
      intro u hu
      rcases List.mem_append.mp hu with hu | hu
      · exact haccepted u hu
      · rw [List.mem_singleton.mp hu, ← hwidth, hafter]
    · exact ⟨hregister, by simpa [Except.isOk, Except.toBool] using haccepted⟩

end Pushed

/-! ## Terms pushed up to the first refusal -/

theorem ofTerms_concat (front : List Term) (t : Term) :
    ofTerms (front ++ [t]) = ofTerms front >>= fun h => h.push t := by
  simp [ofTerms]

theorem ofTerms_eq_ok_iff {terms : List Term} :
    ofTerms terms = .ok h ↔ Pushed empty (terms.map (·, .ok ())) h := by
  induction terms using List.reverseRecOn generalizing h with
  | nil =>
    rw [List.map_nil, pushed_nil_iff]
    constructor
    · intro hok
      exact (Except.ok.inj hok).symm
    · rintro rfl
      rfl
  | append_singleton front t ih =>
    rw [ofTerms_concat, bind_eq_ok, List.map_append, List.map_singleton, pushed_concat_iff]
    refine exists_congr fun before => and_congr ih ⟨attempt_of_ok, ?_⟩
    intro hmade
    rcases attempt_cases hmade with ⟨_, hpush⟩ | ⟨e, herror, _⟩
    · exact hpush
    · cases herror

/-- Some push is refused after pushes that succeed. -/
def RefusedFirst (terms : List Term) (e : TermError) : Prop :=
  ∃ front t back h, terms = front ++ t :: back ∧
    Pushed empty (front.map (·, .ok ()) ++ [(t, .error e)]) h

theorem ofTerms_eq_error_iff {terms : List Term} {e : TermError} :
    ofTerms terms = .error e ↔ RefusedFirst terms e := by
  constructor
  · induction terms using List.reverseRecOn with
    | nil =>
      intro herror
      cases herror
    | append_singleton front t ih =>
      rw [ofTerms_concat, bind_eq_error]
      rintro (hfront | ⟨h, hfront, hlast⟩)
      · obtain ⟨front', u, back, h, rfl, hpushed⟩ := ih hfront
        exact ⟨front', u, back ++ [t], h, by simp, hpushed⟩
      · exact ⟨front, t, [], h, rfl, (ofTerms_eq_ok_iff.mp hfront).push (attempt_of_error hlast)⟩
  · rintro ⟨front, t, back, h, rfl, hpushed⟩
    obtain ⟨before, hbefore, hlast⟩ := pushed_concat_iff.mp hpushed
    have hfront : front.foldlM push empty = .ok before := ofTerms_eq_ok_iff.mpr hbefore
    have hrefused : before.push t = .error e := by
      rcases attempt_cases hlast with ⟨hok, _⟩ | ⟨_, herror, hpush, _⟩
      · cases hok
      · rw [hpush, Except.error.inj herror]
    rw [ofTerms, List.foldlM_append, hfront]
    show (t :: back).foldlM push before = _
    rw [List.foldlM_cons, hrefused]
    rfl

/-- Terms are pushed without a refusal exactly if they are all of one width. -/
theorem exists_ofTerms_iff {terms : List Term} :
    (∃ h, ofTerms terms = .ok h) ↔ ∀ t ∈ terms, ∀ u ∈ terms, t.numSymbols = u.numSymbols := by
  have hterms : ∀ {front : List Term} {h : Hamiltonian}, ofTerms front = .ok h →
      Sized h ∧ h.terms = front := by
    intro front h hok
    have hpushed := ofTerms_eq_ok_iff.mp hok
    refine ⟨hpushed.sized .empty, ?_⟩
    rw [hpushed.terms_eq]
    simp [accepted, empty, List.filter_map, Function.comp_def, Except.isOk, Except.toBool]
  constructor
  · rintro ⟨h, hok⟩ t ht u hu
    obtain ⟨hsized, rfl⟩ := hterms hok
    rw [hsized.symbols t ht, hsized.symbols u hu]
  · induction terms using List.reverseRecOn with
    | nil => exact fun _ => ⟨empty, rfl⟩
    | append_singleton front t ih =>
      intro hwidth
      obtain ⟨h, hok⟩ := ih fun u hu v hv =>
        hwidth u (List.mem_append_left _ hu) v (List.mem_append_left _ hv)
      obtain ⟨hsized, rfl⟩ := hterms hok
      rw [ofTerms_concat, hok]
      show ∃ h', h.push t = .ok h'
      cases hpush : h.push t with
      | ok h' => exact ⟨h', rfl⟩
      | error e =>
        obtain ⟨hne, hdiffers, _⟩ := push_eq_error_iff.mp hpush
        obtain ⟨u, us, hcons⟩ := List.exists_cons_of_ne_nil hne
        have hu : u ∈ h.terms := by simp [hcons]
        have hsame := hwidth t (by simp) u (List.mem_append_left _ hu)
        exact absurd (hsame.trans (hsized.symbols u hu)) hdiffers

/-- **Pushes keep the register.** Pushes can be made of any terms on any Hamiltonian, and each of
them is accepted or refused. A refused one changes nothing, and this happens exactly if there are
terms already and the number of symbols is not that of the register. Started without terms, every
term has as many symbols as the register has qubits at each time, a register without qubits has no
terms, and the terms are the accepted ones in order. Started with terms, the register stays what it
was and only terms of its size are accepted. Building a Hamiltonian from terms succeeds exactly if
all have the same number of symbols. It gives what the pushes of all terms give, and otherwise the
error of the first push that is refused. -/
theorem push_runs_keep_register :
    (∀ start terms, ∃ made h, Pushed start made h ∧ made.map Prod.fst = terms) ∧
    (∀ (h : Hamiltonian) (t : Term), (∀ h', h.push t = .ok h' → h.attempt t = (.ok (), h')) ∧
      (∀ e, h.push t = .error e → h.attempt t = (.error e, h)) ∧
      ((∃ e, h.push t = .error e) ↔ h.terms ≠ [] ∧ t.numSymbols ≠ h.numQubits)) ∧
    (∀ made h, Pushed empty made h → Sized h ∧ h.terms = accepted made) ∧
    (∀ numQubits terms made h, terms ≠ [] →
      Pushed (withRegister numQubits terms) made h →
        h.numQubits = numQubits ∧ h.terms = terms ++ accepted made ∧
        ∀ t ∈ accepted made, t.numSymbols = numQubits) ∧
    (∀ terms, ((∃ h, ofTerms terms = .ok h) ↔
        ∀ t ∈ terms, ∀ u ∈ terms, t.numSymbols = u.numSymbols) ∧
      (∀ h, ofTerms terms = .ok h ↔ Pushed empty (terms.map (·, .ok ())) h) ∧
      (∀ e, ofTerms terms = .error e ↔ RefusedFirst terms e)) := by
  refine ⟨exists_pushed, ?_, ?_, ?_, ?_⟩
  · intro h t
    refine ⟨fun _ => attempt_of_ok, fun _ => attempt_of_error, ?_⟩
    simp only [push_eq_error_iff, exists_and_left, exists_eq, and_true]
  · intro made h hpushed
    exact ⟨hpushed.sized .empty, hpushed.terms_eq⟩
  · intro numQubits terms made h hne hpushed
    obtain ⟨hregister, haccepted⟩ := hpushed.register hne
    exact ⟨hregister, hpushed.terms_eq, haccepted⟩
  · intro terms
    exact ⟨exists_ofTerms_iff, fun _ => ofTerms_eq_ok_iff, fun _ => ofTerms_eq_error_iff⟩

def narrow : Term := .first "XYI" (by decide)

def wide : Term := .first "IIXY" (by decide)

/-- The wide term is refused between two narrow ones. In a register that was given four qubits with
a narrow term, the narrow term is refused and the wide one accepted. -/
theorem push_runs_keep_register_mixed :
    Pushed empty [(narrow, .ok ()), (wide, .error (.lengthMismatch 1 3 4)), (narrow, .ok ())]
      ⟨3, [narrow, narrow]⟩ ∧ Sized ⟨3, [narrow, narrow]⟩ ∧
    Pushed (withRegister 4 [narrow]) [(narrow, .error (.lengthMismatch 1 4 3)), (wide, .ok ())]
      ⟨4, [narrow, wide]⟩ ∧ wide.numSymbols = 4 := by
  have hfirst : empty.attempt narrow = (.ok (), ⟨3, [narrow]⟩) := rfl
  have hrefused : (withRegister 3 [narrow]).attempt wide =
      (.error (.lengthMismatch 1 3 4), ⟨3, [narrow]⟩) := rfl
  have hsecond : (withRegister 3 [narrow]).attempt narrow = (.ok (), ⟨3, [narrow, narrow]⟩) := rfl
  have hrun := ((Pushed.start.push hfirst).push hrefused).push hsecond
  have hrefused' : (withRegister 4 [narrow]).attempt narrow =
      (.error (.lengthMismatch 1 4 3), ⟨4, [narrow]⟩) := rfl
  have hwide : (withRegister 4 [narrow]).attempt wide = (.ok (), ⟨4, [narrow, wide]⟩) := rfl
  have hrun' := (Pushed.start.push hrefused').push hwide
  obtain ⟨_, _, hempty, hregister, _⟩ := push_runs_keep_register
  obtain ⟨_, _, haccepted⟩ := hregister 4 [narrow] _ _ (List.cons_ne_nil _ _) hrun'
  exact ⟨hrun, (hempty _ _ hrun).1, hrun', haccepted wide (List.mem_singleton.mpr rfl)⟩

end Hamiltonian

end PauliLowering
