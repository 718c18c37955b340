import Mathlib.Data.List.Induction
import Mathlib.Data.Nat.Find
import PauliLowering.Proofs.Interleaving

/-!
Sequential lowering stops at the first term at fault.

A term is at fault if it cannot be lowered, or if an earlier term has its position (`AtFault`).
While no term is at fault, the store holds exactly the blocks of the terms so far (`Store.Holds`).
One more term without fault keeps this (`Holds.process`). A term at fault is blamed
(`Holds.process_blamed`), and since the run has then failed, no term after it leaves a trace
(`runSequential_failed`). So the outcome is known from the first term at fault
(`firstError_of_first`), or from there being none (`holds_of_faultless`).
-/

namespace PauliLowering

/-! ## Terms at fault -/

/-- Term `i` cannot be lowered, or an earlier term has its position. -/
inductive AtFault (lower : Term → Except TermError String) (terms : List Term) (i : Nat) : Prop
  | refused {t : Term} {e : TermError} (place : terms[i]? = some t) (failed : lower t = .error e)
  | repeated {t u : Term} (place : terms[i]? = some t) (earlier : u ∈ terms.take i)
      (same : u.position = t.position)

/-- What a term at fault is blamed for: the reason why it cannot be lowered, or else its position.
-/
def Term.blame (lower : Term → Except TermError String) (t : Term) : LoweringError :=
  match lower t with
  | .error e => .term e
  | .ok _ => .duplicatePosition t.position

/-- There is one entry for each term, and it is the block of the term at its position. -/
structure Blocks.OnePerTerm (lower : Term → Except TermError String) (terms : List Term)
    (blocks : Blocks) : Prop where
  keys : blocks.keys.Perm (terms.map Term.position)
  exact : blocks.Exact lower terms

section AtFault

variable {lower : Term → Except TermError String} {terms front : List Term} {t : Term} {i : Nat}

theorem AtFault.append (h : AtFault lower front i) (back : List Term) :
    AtFault lower (front ++ back) i := by
  have hplace : ∀ {u : Term}, front[i]? = some u → (front ++ back)[i]? = some u := by
    intro u hu
    rw [List.getElem?_append_left (List.getElem?_eq_some_iff.mp hu).1, hu]
  cases h with
  | refused place failed => exact .refused (hplace place) failed
  | repeated place earlier same =>
    have hle : i ≤ front.length := Nat.le_of_lt (List.getElem?_eq_some_iff.mp place).1
    refine .repeated (hplace place) ?_ same
    rwa [List.take_append_of_le_length hle]

/-- Whether a term is at fault after others that are not. -/
theorem atFault_length_iff {back : List Term} : AtFault lower (front ++ t :: back) front.length ↔
    (∃ e, lower t = .error e) ∨ ∃ u ∈ front, u.position = t.position := by
  have hplace : (front ++ t :: back)[front.length]? = some t := by simp
  constructor
  · rintro (⟨place, failed⟩ | ⟨place, earlier, same⟩)
    · obtain rfl := Option.some.inj (hplace.symm.trans place)
      exact .inl ⟨_, failed⟩
    · obtain rfl := Option.some.inj (hplace.symm.trans place)
      rw [List.take_left] at earlier
      exact .inr ⟨_, earlier, same⟩
  · rintro (⟨e, failed⟩ | ⟨u, earlier, same⟩)
    · exact .refused hplace failed
    · refine .repeated hplace ?_ same
      rwa [List.take_left]

theorem exists_first_atFault (h : ∃ i, AtFault lower terms i) :
    ∃ i t, terms[i]? = some t ∧ AtFault lower terms i ∧ ∀ j < i, ¬ AtFault lower terms j := by
  classical
  have hfault := Nat.find_spec h
  obtain ⟨t, ht⟩ : ∃ t, terms[Nat.find h]? = some t := by
    rcases hfault with ⟨place, _⟩ | ⟨place, _, _⟩
    · exact ⟨_, place⟩
    · exact ⟨_, place⟩
  exact ⟨Nat.find h, t, ht, hfault, fun j hj => Nat.find_min h hj⟩

end AtFault

/-! ## One term more -/

namespace Store

variable {lower : Term → Except TermError Circuit} {front terms : List Term} {s : Store} {t : Term}

/-- Nothing has gone wrong with the terms so far, and the store holds their blocks. -/
structure Holds (lower : Term → Except TermError Circuit) (front : List Term)
    (s : Store) : Prop where
  running : s.failed = false
  blameless : s.firstError = none
  lowered : ∀ t ∈ front, ∃ block, blockOf lower t = .ok block
  distinct : (front.map Term.position).Nodup
  exact : s.blocks.Exact (blockOf lower) front

theorem Holds.start (fresh : Pool.Fresh s) : Holds lower [] s where
  running := fresh.failed
  blameless := fresh.firstError
  lowered t ht := by cases ht
  distinct := List.nodup_nil
  exact position block := by simp [fresh.blocks]

theorem Holds.mem_iff (holds : Holds lower front s) {position : Nat} :
    position ∈ s.blocks ↔ ∃ t ∈ front, t.position = position := by
  rw [Std.TreeMap.mem_iff_isSome_getElem?, Option.isSome_iff_exists]
  constructor
  · rintro ⟨block, hblock⟩
    obtain ⟨t, ht, hposition, _⟩ := (holds.exact position block).mp hblock
    exact ⟨t, ht, hposition⟩
  · rintro ⟨t, ht, hposition⟩
    obtain ⟨block, hblock⟩ := holds.lowered t ht
    exact ⟨block, (holds.exact position block).mpr ⟨t, ht, hposition, hblock⟩⟩

/-- A term without fault puts its block into the store. -/
theorem Holds.process (holds : Holds lower front s) (ok : ¬ ∃ e, blockOf lower t = .error e)
    (fresh : ¬ ∃ u ∈ front, u.position = t.position) :
    Holds lower (front ++ [t]) (s.process lower t) := by
  obtain ⟨c, hc⟩ : ∃ c, lower t = .ok c := by
    cases hl : lower t with
    | ok c => exact ⟨c, rfl⟩
    | error e => exact absurd ⟨e, by simp [blockOf, hl, Except.map]⟩ ok
  have hblock : blockOf lower t = .ok c.block := by simp [blockOf, hc, Except.map]
  have hfree : t.position ∉ s.blocks := fun hmem => fresh (holds.mem_iff.mp hmem)
  have hstored : s.process lower t =
      (s.note (.lowered t.position c.pivot c.size)).insert t.position c.block := by
    simp [Store.process, record, note, hc, holds.running, hfree]
  rw [hstored]
  refine ⟨holds.running, holds.blameless, ?_, ?_, ?_⟩
  · intro u hu
    rcases List.mem_append.mp hu with hu | hu
    · exact holds.lowered u hu
    · rw [List.mem_singleton.mp hu]
      exact ⟨c.block, hblock⟩
  · rw [List.map_append, List.map_singleton]
    refine holds.distinct.append (List.nodup_singleton _) ?_
    rw [List.disjoint_singleton]
    intro hmem
    exact fresh (List.mem_map.mp hmem)
  · intro position block
    show (s.blocks.insert t.position c.block)[position]? = some block ↔ _
    rw [Blocks.getElem?_insert_fresh hfree, holds.exact position block]
    constructor
    · rintro (⟨rfl, rfl⟩ | ⟨u, hu, hrest⟩)
      · exact ⟨t, by simp, rfl, hblock⟩
      · exact ⟨u, List.mem_append_left _ hu, hrest⟩
    · rintro ⟨u, hu, rfl, hu'⟩
      rcases List.mem_append.mp hu with hu | hu
      · exact .inr ⟨u, hu, rfl, hu'⟩
      · obtain rfl := List.mem_singleton.mp hu
        exact .inl ⟨rfl, Except.ok.inj (hu'.symm.trans hblock)⟩

/-- A term at fault ends the run with its blame. That its block may have taken the place of another
one in the store is not seen any more. -/
theorem Holds.process_blamed (holds : Holds lower front s)
    (fault : (∃ e, blockOf lower t = .error e) ∨ ∃ u ∈ front, u.position = t.position) :
    (s.process lower t).failed = true ∧
      (s.process lower t).firstError = some (t.blame (blockOf lower)) := by
  cases hl : lower t with
  | error e =>
    have hblame : t.blame (blockOf lower) = .term e := by simp [Term.blame, blockOf, hl, Except.map]
    rw [hblame]
    simp [Store.process, hl, fail, keepFirst, setFailed, holds.blameless]
  | ok c =>
    have hblock : blockOf lower t = .ok c.block := by simp [blockOf, hl, Except.map]
    have hblame : t.blame (blockOf lower) = .duplicatePosition t.position := by
      simp [Term.blame, hblock]
    have htaken : t.position ∈ s.blocks := by
      rcases fault with ⟨e, he⟩ | hrepeated
      · cases hblock.symm.trans he
      · exact holds.mem_iff.mpr hrepeated
    rw [hblame]
    simp [Store.process, hl, record, note, insert, fail, keepFirst, setFailed, holds.running,
      holds.blameless, htaken]

/-! ## Whole runs -/

theorem runSequential_failed (failed : s.failed = true) : s.runSequential lower terms = s := by
  cases terms with
  | nil => rfl
  | cons t ts => rw [runSequential, if_pos failed]

theorem runSequential_append (s : Store) (front back : List Term) :
    s.runSequential lower (front ++ back) =
      (s.runSequential lower front).runSequential lower back := by
  induction front generalizing s with
  | nil => rfl
  | cons t ts ih =>
    cases hf : s.failed with
    | true => rw [runSequential_failed hf, runSequential_failed hf, runSequential_failed hf]
    | false => simpa [runSequential, hf] using ih (s.process lower t)

theorem Holds.runSequential_cons (holds : Holds lower front s) (t : Term) (ts : List Term) :
    s.runSequential lower (t :: ts) = (s.process lower t).runSequential lower ts := by
  rw [runSequential, holds.running, if_neg Bool.false_ne_true]

/-- Terms without fault are all stored. -/
theorem holds_of_faultless (fresh : Pool.Fresh s)
    (faultless : ∀ i, ¬ AtFault (blockOf lower) terms i) :
    Holds lower terms (s.runSequential lower terms) := by
  -- From the end: all but the last term are stored, and the last one is not at fault after them.
  induction terms using List.reverseRecOn with
  | nil => exact .start fresh
  | append_singleton front t ih =>
    have hfront := ih fun i h => faultless i (h.append [t])
    have hlast := faultless front.length
    rw [atFault_length_iff, not_or] at hlast
    rw [runSequential_append, hfront.runSequential_cons]
    exact hfront.process hlast.1 hlast.2

/-- The first term at fault is the one that is blamed, whatever comes after it. -/
theorem firstError_of_first (fresh : Pool.Fresh s) {i : Nat} (place : terms[i]? = some t)
    (fault : AtFault (blockOf lower) terms i)
    (earlier : ∀ j < i, ¬ AtFault (blockOf lower) terms j) :
    (s.runSequential lower terms).firstError = some (t.blame (blockOf lower)) := by
  obtain ⟨hi, ht⟩ := List.getElem?_eq_some_iff.mp place
  have hsplit : terms.take i ++ t :: terms.drop (i + 1) = terms := by simp [← ht]
  have hlength : (terms.take i).length = i := by rw [List.length_take]; omega
  have hfaultless : ∀ j, ¬ AtFault (blockOf lower) (terms.take i) j := by
    intro j hj
    have hlt : j < (terms.take i).length := by
      rcases hj with ⟨place, _⟩ | ⟨place, _, _⟩
      all_goals exact (List.getElem?_eq_some_iff.mp place).1
    have hterms := hj.append (t :: terms.drop (i + 1))
    rw [hsplit] at hterms
    exact earlier j (hlength ▸ hlt) hterms
  have hholds := holds_of_faultless fresh hfaultless
  have hfault : AtFault (blockOf lower) (terms.take i ++ t :: terms.drop (i + 1))
      (terms.take i).length := by
    rw [hsplit, hlength]
    exact fault
  obtain ⟨hfailed, hblamed⟩ := hholds.process_blamed (atFault_length_iff.mp hfault)
  rw [← hsplit, runSequential_append, hholds.runSequential_cons, runSequential_failed hfailed]
  exact hblamed

theorem Holds.onePerTerm (holds : Holds lower terms s) :
    s.blocks.OnePerTerm (blockOf lower) terms := by
  refine ⟨(List.perm_ext_iff_of_nodup Std.TreeMap.nodup_keys holds.distinct).mpr ?_, holds.exact⟩
  intro position
  rw [Std.TreeMap.mem_keys, holds.mem_iff, List.mem_map]

end Store

/-- **The earliest term at fault is blamed.** Under valid settings for sequential execution,
lowering fails exactly if some term cannot be lowered or has the position of an earlier term. The
error is that of the first such term: the reason why it cannot be lowered, even if its position is
taken as well, and otherwise its position. If there is no such term, there is one entry for each
term. -/
theorem sequential_blames_earliest (settings : Settings) (h : Hamiltonian)
    (valid : settings.validate = .ok ()) (sequential : settings.execution = .sequential) :
    ((∃ e, h.lower settings = .error e) ↔
      ∃ i, AtFault (Term.lower h.numQubits settings.angleMultiplier) h.terms i) ∧
    (∀ i t, h.terms[i]? = some t →
      AtFault (Term.lower h.numQubits settings.angleMultiplier) h.terms i →
      (∀ j < i, ¬ AtFault (Term.lower h.numQubits settings.angleMultiplier) h.terms j) →
      h.lower settings = .error (t.blame (Term.lower h.numQubits settings.angleMultiplier))) ∧
    (∀ blocks, h.lower settings = .ok blocks →
      blocks.OnePerTerm (Term.lower h.numQubits settings.angleMultiplier) h.terms) := by
  obtain ⟨s, fresh, houtcome⟩ := h.run_outcome_of_sequential settings sequential
  rw [h.lower_eq_run settings valid, houtcome]
  have hblamed : ∀ i t, h.terms[i]? = some t →
      AtFault (Term.lower h.numQubits settings.angleMultiplier) h.terms i →
      (∀ j < i, ¬ AtFault (Term.lower h.numQubits settings.angleMultiplier) h.terms j) →
      (s.runSequential (Term.circuit h.numQubits settings.angleMultiplier) h.terms).finish =
        .error (t.blame (Term.lower h.numQubits settings.angleMultiplier)) := by
    intro i t place fault earlier
    have hfirst := Store.firstError_of_first fresh place fault earlier
    rw [Store.finish, hfirst]
    rfl
  have hstored : (¬ ∃ i, AtFault (Term.lower h.numQubits settings.angleMultiplier) h.terms i) →
      ∃ blocks,
        (s.runSequential (Term.circuit h.numQubits settings.angleMultiplier) h.terms).finish =
          .ok blocks ∧
        blocks.OnePerTerm (Term.lower h.numQubits settings.angleMultiplier) h.terms := by
    intro hnone
    have hholds := Store.holds_of_faultless fresh (not_exists.mp hnone)
    exact ⟨_, by rw [Store.finish, hholds.blameless], hholds.onePerTerm⟩
  refine ⟨⟨?_, ?_⟩, hblamed, ?_⟩
  · rintro ⟨e, herror⟩
    by_contra hnone
    obtain ⟨blocks, hok, _⟩ := hstored hnone
    cases herror.symm.trans hok
  · intro hsome
    obtain ⟨i, t, place, fault, earlier⟩ := exists_first_atFault hsome
    exact ⟨_, hblamed i t place fault earlier⟩
  · intro blocks hblocks
    by_cases hsome : ∃ i, AtFault (Term.lower h.numQubits settings.angleMultiplier) h.terms i
    · obtain ⟨i, t, place, fault, earlier⟩ := exists_first_atFault hsome
      cases hblocks.symm.trans (hblamed i t place fault earlier)
    · obtain ⟨stored, hok, hone⟩ := hstored hsome
      obtain rfl := Except.ok.inj (hblocks.symm.trans hok)
      exact hone

/-- The third term has an unknown symbol and the position of the first, and the fourth has the
position of the second. -/
def twiceFaulty : Hamiltonian := .withRegister 2 [
  { Term.first "XX" (by decide) with position := 7, position_pos := Nat.succ_pos 6 },
  .first "YY" (by decide),
  { Term.first "ZQ" (by decide) with position := 7, position_pos := Nat.succ_pos 6 },
  .first "YZ" (by decide)]

theorem sequential_blames_earliest_third :
    Settings.validate { execution := .sequential } = .ok () ∧
      twiceFaulty.lower { execution := .sequential } =
        .error (.term (.unsupportedSymbol 7 'Q' 2)) := by
  have hvalid : Settings.validate { execution := .sequential } = .ok () := rfl
  obtain ⟨_, hblamed, _⟩ :=
    sequential_blames_earliest { execution := .sequential } twiceFaulty hvalid rfl
  refine ⟨hvalid, hblamed 2 _ rfl (.refused rfl rfl) ?_⟩
  rintro j hj (⟨place, failed⟩ | ⟨place, earlier, same⟩)
  · match j, hj with
    | 0, _ | 1, _ =>
      obtain rfl := Option.some.inj place
      cases failed
  · match j, hj with
    | 0, _ => cases earlier
    | 1, _ =>
      obtain rfl := Option.some.inj place
      obtain rfl := List.mem_singleton.mp earlier
      cases same

end PauliLowering
