import Mathlib.Data.List.Nodup
import Mathlib.Data.List.Sort
import Mathlib.Logic.Relation
import PauliLowering.Lowering
import PauliLowering.Proofs.TermCircuit

/-!
Every complete interleaving of the tasks ends in all blocks or in an error.

`Stage.Move` lists what one step of a task can do, and `Pool.Inv` is kept by every move
(`Pool.Inv.move`), so it holds after every run (`Pool.Inv.run`). The errors that a run may end with
are `PossibleError`. A single worker that takes the tasks one after another is one of the
interleavings (`runWorker_reachable`), and sequential execution does the same as it
(`runSequential_eq_runWorker`).
-/

namespace PauliLowering

open Relation (ReflTransGen)

/-! ## Errors of a run -/

/-- The errors that lowering the terms may end with: one of a term, or a position that two or more
terms have which are lowered without error. -/
inductive PossibleError (lower : Term → Except TermError String) (terms : List Term) :
    LoweringError → Prop
  | term {t : Term} {e : TermError} (mem : t ∈ terms) (failed : lower t = .error e) :
      PossibleError lower terms (.term e)
  | duplicate {position : Nat}
      (shared : 2 ≤ terms.countP fun t => t.position == position && (lower t).isOk) :
      PossibleError lower terms (.duplicatePosition position)

/-- The blocks are those of the terms, each at its position. -/
def Blocks.Exact (lower : Term → Except TermError String) (terms : List Term) (blocks : Blocks) :
    Prop :=
  ∀ (position : Nat) (block : String), blocks[position]? = some block ↔
    ∃ t ∈ terms, t.position = position ∧ lower t = .ok block

theorem Blocks.getElem?_insert_fresh {blocks : Blocks} {position p : Nat} {block b : String}
    (fresh : position ∉ blocks) : (blocks.insert position block)[p]? = some b ↔
      (p = position ∧ b = block) ∨ blocks[p]? = some b := by
  simp only [Std.TreeMap.getElem?_insert, Nat.compare_eq_eq]
  split
  · next heq =>
    subst heq
    simp [Std.TreeMap.getElem?_eq_none fresh, eq_comm]
  · next hne => simp [Ne.symm hne]

/-- Exactly the blocks of all terms if no error is possible, and a possible error otherwise. -/
structure AllOrNothing (lower : Term → Except TermError String) (terms : List Term)
    (outcome : Except LoweringError Blocks) : Prop where
  all : (∀ e, ¬ PossibleError lower terms e) →
    ∃ blocks, outcome = .ok blocks ∧ blocks.Exact lower terms
  nothing : (∃ e, PossibleError lower terms e) →
    ∃ e, PossibleError lower terms e ∧ outcome = .error e

/-! ## Steps of a task -/

def blockOf (lower : Term → Except TermError Circuit) (t : Term) : Except TermError String :=
  (lower t).map Circuit.block

/-- What one step of the task of a term can do to the store and the stage. -/
inductive Stage.Move (lower : Term → Except TermError Circuit) (t : Term) :
    Store → Stage → Store → Stage → Prop
  | start {s : Store} (running : s.failed = false) : Move lower t s .waiting s .lowering
  | skip {s : Store} (failed : s.failed = true) : Move lower t s .waiting s .done
  | lowered {s : Store} {c : Circuit} (ok : lower t = .ok c) :
      Move lower t s .lowering (s.note (.lowered t.position c.pivot c.size)) (.recording c.block)
  | refused {s : Store} {e : TermError} (error : lower t = .error e) :
      Move lower t s .lowering s (.reporting (.term e))
  | proceed {s : Store} {block : String} (running : s.failed = false) :
      Move lower t s (.recording block) s (.inserting block)
  | discard {s : Store} {block : String} (failed : s.failed = true) :
      Move lower t s (.recording block) s .done
  | land {s : Store} {block : String} (fresh : t.position ∉ s.blocks) :
      Move lower t s (.inserting block) (s.insert t.position block) .done
  | collide {s : Store} {block : String} (taken : t.position ∈ s.blocks) :
      Move lower t s (.inserting block) (s.insert t.position block)
        (.reporting (.duplicatePosition t.position))
  | report {s : Store} {e : LoweringError} : Move lower t s (.reporting e) (s.keepFirst e) .flagging
  | flag {s : Store} : Move lower t s .flagging s.setFailed .done

theorem Stage.move_of_step {lower : Term → Except TermError Circuit} {t : Term} {s next : Store}
    {stage reached : Stage} (active : stage ≠ .done)
    (taken : stage.step lower t s = (next, reached)) : Stage.Move lower t s stage next reached := by
  cases stage with
  | waiting =>
    obtain ⟨rfl, rfl⟩ := Prod.mk.inj taken
    cases hf : s.failed
    · exact .start hf
    · exact .skip hf
  | lowering =>
    cases hl : lower t with
    | ok c =>
      simp only [Stage.step, hl] at taken
      obtain ⟨rfl, rfl⟩ := Prod.mk.inj taken
      exact .lowered hl
    | error e =>
      simp only [Stage.step, hl] at taken
      obtain ⟨rfl, rfl⟩ := Prod.mk.inj taken
      exact .refused hl
  | recording block =>
    obtain ⟨rfl, rfl⟩ := Prod.mk.inj taken
    cases hf : s.failed
    · exact .proceed hf
    · exact .discard hf
  | inserting block =>
    obtain ⟨rfl, rfl⟩ := Prod.mk.inj taken
    cases hc : s.blocks.contains t.position
    · exact .land fun hmem => by simp [Std.TreeMap.contains_iff_mem.mpr hmem] at hc
    · exact .collide (Std.TreeMap.contains_iff_mem.mp hc)
  | reporting e =>
    obtain ⟨rfl, rfl⟩ := Prod.mk.inj taken
    exact .report
  | flagging =>
    obtain ⟨rfl, rfl⟩ := Prod.mk.inj taken
    exact .flag
  | done => exact absurd rfl active

/-! ## The invariant -/

/-- The task has no block to insert any more. -/
def Stage.isPast : Stage → Bool
  | .reporting _ | .flagging | .done => true
  | _ => false

/-- What the stage of a task says about its term and about the first error. -/
def Stage.Sound (lower : Term → Except TermError Circuit) (terms : List Term)
    (firstError : Option LoweringError) (t : Term) : Stage → Prop
  | .recording block | .inserting block => blockOf lower t = .ok block
  | .reporting e => PossibleError (blockOf lower) terms e
  | .flagging => firstError ≠ none
  | _ => True

namespace Pool

/-- While nothing has gone wrong, the store holds the blocks of the tasks that are done. -/
structure Settled (lower : Term → Except TermError Circuit) (p : Pool) : Prop where
  distinct : ((p.tasks.filter (·.2 = .done)).map (·.1.position)).Nodup
  lowered : ∀ t, (t, .done) ∈ p.tasks → ∃ block, blockOf lower t = .ok block
  blocks : ∀ (position : Nat) (block : String), p.store.blocks[position]? = some block ↔
    ∃ t, (t, .done) ∈ p.tasks ∧ t.position = position ∧ blockOf lower t = .ok block

structure Inv (lower : Term → Except TermError Circuit) (terms : List Term) (p : Pool) : Prop where
  tasks : p.tasks.map Prod.fst = terms
  error : ∀ e, p.store.firstError = some e → PossibleError (blockOf lower) terms e
  flagged : p.store.failed = true → p.store.firstError ≠ none
  sound : ∀ task ∈ p.tasks, task.2.Sound lower terms p.store.firstError task.1
  past : ∀ position ∈ p.store.blocks, ∃ task ∈ p.tasks,
    task.2.isPast = true ∧ task.1.position = position ∧ (blockOf lower task.1).isOk = true
  settled : p.store.firstError = none → (∀ t e, (t, .reporting e) ∉ p.tasks) → p.Settled lower

variable {lower : Term → Except TermError Circuit} {terms : List Term} {t : Term} {s next : Store}
  {stage reached : Stage} {before after : List (Term × Stage)}

/-- A store at the start of a run; only the journal may have entries. -/
structure Fresh (s : Store) : Prop where
  blocks : s.blocks = ∅
  failed : s.failed = false
  firstError : s.firstError = none

theorem fresh_empty : Fresh {} := ⟨rfl, rfl, rfl⟩

theorem Inv.start (fresh : Fresh s) : Inv lower terms ⟨s, terms.map (·, .waiting)⟩ where
  tasks := by simp [Function.comp_def]
  error e he := by simp [fresh.firstError] at he
  flagged hf := by simp [fresh.failed] at hf
  sound task htask := by
    obtain ⟨t, _, rfl⟩ := List.mem_map.mp htask
    trivial
  past position hp := by simp [fresh.blocks] at hp
  settled _ _ := by
    have hnone : ∀ t, (t, Stage.done) ∉ terms.map (·, Stage.waiting) := by
      intro t ht
      obtain ⟨u, _, heq⟩ := List.mem_map.mp ht
      simp at heq
    refine ⟨?_, ?_, ?_⟩
    · simp [List.filter_map, Function.comp_def]
    · exact fun t ht => absurd ht (hnone t)
    · intro position block
      simp only [fresh.blocks, Std.TreeMap.getElem?_emptyc, reduceCtorEq, false_iff]
      rintro ⟨t, ht, _⟩
      exact hnone t ht

theorem firstError_ne_none_of_move (m : Stage.Move lower t s stage next reached)
    (h : s.firstError ≠ none) : next.firstError ≠ none := by
  cases m with
  | report => simp [Store.keepFirst, Option.isNone_iff_eq_none, h]
  | _ => exact h

/-- What the stage of the task at hand says. -/
theorem Inv.self (inv : Inv lower terms ⟨s, before ++ (t, stage) :: after⟩) :
    stage.Sound lower terms s.firstError t :=
  inv.sound (t, stage) (by simp)

/-- A second block for a position comes from two terms with that position. -/
theorem possible_of_collide (inv : Inv lower terms ⟨s, before ++ (t, stage) :: after⟩)
    {block : String} (hstage : stage = .inserting block) (taken : t.position ∈ s.blocks) :
    PossibleError (blockOf lower) terms (.duplicatePosition t.position) := by
  obtain ⟨task, hmem, hpast, hposition, hok⟩ := inv.past _ taken
  have hblock : blockOf lower t = .ok block := by
    have hsound := inv.self
    rw [hstage] at hsound
    exact hsound
  -- The other task is past its insertion, so it is not the one that inserts now.
  have hother : task ∈ before ++ after := by
    rcases List.mem_append.mp hmem with hm | hm
    · exact List.mem_append_left _ hm
    · rcases List.mem_cons.mp hm with rfl | hm
      · simp [hstage, Stage.isPast] at hpast
      · exact List.mem_append_right _ hm
  apply PossibleError.duplicate
  rw [← inv.tasks, List.countP_map]
  have hperm : (before ++ (t, stage) :: after).Perm ((t, stage) :: (before ++ after)) :=
    List.perm_middle
  rw [hperm.countP_eq, List.countP_cons]
  have hpos : 0 < (before ++ after).countP
      ((fun u => u.position == t.position && (blockOf lower u).isOk) ∘ Prod.fst) :=
    List.countP_pos_iff.mpr ⟨task, hother, by simp [hposition, hok]⟩
  have hself : ((fun u => u.position == t.position && (blockOf lower u).isOk) ∘ Prod.fst)
      (t, stage) = true := by simp [hblock, Except.isOk, Except.toBool]
  rw [if_pos hself]
  omega

theorem Inv.error_move (inv : Inv lower terms ⟨s, before ++ (t, stage) :: after⟩)
    (m : Stage.Move lower t s stage next reached) {e : LoweringError}
    (he : next.firstError = some e) : PossibleError (blockOf lower) terms e := by
  cases m with
  | @report e' =>
    cases hold : s.firstError with
    | none =>
      have heq : e' = e := by simpa [Store.keepFirst, hold] using he
      exact heq ▸ inv.self
    | some e'' =>
      have heq : e'' = e := by simpa [Store.keepFirst, hold] using he
      exact heq ▸ inv.error e'' hold
  | _ => exact inv.error e he

theorem Inv.flagged_move (inv : Inv lower terms ⟨s, before ++ (t, stage) :: after⟩)
    (m : Stage.Move lower t s stage next reached) (hf : next.failed = true) :
    next.firstError ≠ none := by
  cases m with
  | report =>
    unfold Store.keepFirst at hf ⊢
    split
    · simp
    · next hsome => simpa [Option.isNone_iff_eq_none] using hsome
  | flag => exact inv.self
  | _ => exact inv.flagged hf

theorem Inv.sound_move (inv : Inv lower terms ⟨s, before ++ (t, stage) :: after⟩)
    (m : Stage.Move lower t s stage next reached) :
    ∀ task ∈ before ++ (t, reached) :: after,
      task.2.Sound lower terms next.firstError task.1 := by
  intro task htask
  have hcases : task = (t, reached) ∨ task ∈ before ++ (t, stage) :: after := by
    simp only [List.mem_append, List.mem_cons] at htask ⊢
    tauto
  rcases hcases with rfl | hold
  · have hself := inv.self
    cases m with
    | lowered ok => simp [Stage.Sound, blockOf, ok, Except.map]
    | refused error =>
      refine PossibleError.term (t := t) ?_ (by simp [blockOf, error, Except.map])
      rw [← inv.tasks]
      simp
    | proceed => exact hself
    | collide taken => exact possible_of_collide inv rfl taken
    | report =>
      unfold Store.keepFirst
      split
      · simp [Stage.Sound]
      · next hsome => simpa [Stage.Sound, Option.isNone_iff_eq_none] using hsome
    | start | skip | discard | land | flag => trivial
  · have hsound := inv.sound task hold
    obtain ⟨u, ustage⟩ := task
    cases ustage with
    | flagging => exact firstError_ne_none_of_move m hsound
    | _ => exact hsound

theorem isPast_of_move (m : Stage.Move lower t s stage next reached)
    (h : stage.isPast = true) : reached.isPast = true := by
  cases m with
  | report | flag => rfl
  | _ => simp [Stage.isPast] at h

theorem Inv.past_move (inv : Inv lower terms ⟨s, before ++ (t, stage) :: after⟩)
    (m : Stage.Move lower t s stage next reached) :
    ∀ position ∈ next.blocks, ∃ task ∈ before ++ (t, reached) :: after,
      task.2.isPast = true ∧ task.1.position = position ∧
        (blockOf lower task.1).isOk = true := by
  intro position hp
  have hold : position ∈ s.blocks → ∃ task ∈ before ++ (t, reached) :: after,
      task.2.isPast = true ∧ task.1.position = position ∧
        (blockOf lower task.1).isOk = true := by
    intro hs
    obtain ⟨task, hmem, hpast, hposition, hok⟩ := inv.past position hs
    by_cases htask : task = (t, stage)
    · subst htask
      exact ⟨(t, reached), by simp, isPast_of_move m hpast, hposition, hok⟩
    · refine ⟨task, ?_, hpast, hposition, hok⟩
      simp only [List.mem_append, List.mem_cons, htask, false_or] at hmem ⊢
      tauto
  have hinsert : ∀ block, stage = .inserting block → reached.isPast = true →
      position ∈ s.blocks.insert t.position block →
      ∃ task ∈ before ++ (t, reached) :: after,
        task.2.isPast = true ∧ task.1.position = position ∧
          (blockOf lower task.1).isOk = true := by
    intro block hstage hpast hmem
    rcases Std.TreeMap.mem_insert.mp hmem with heq | hs
    · have hsound := inv.self
      rw [hstage] at hsound
      have hblock : blockOf lower t = .ok block := hsound
      exact ⟨(t, reached), by simp, hpast, by simpa using heq,
        by simp [hblock, Except.isOk, Except.toBool]⟩
    · exact hold hs
  cases m with
  | land => exact hinsert _ rfl rfl hp
  | collide => exact hinsert _ rfl rfl hp
  | report =>
    unfold Store.keepFirst at hp
    split at hp <;> exact hold hp
  | _ => exact hold hp

theorem mem_done_iff (hstage : stage ≠ .done) (u : Term) :
    (u, Stage.done) ∈ before ++ (t, stage) :: after ↔ (u, Stage.done) ∈ before ++ after := by
  simp [hstage.symm]

/-- A step that neither starts nor ends at the end of a task leaves the done tasks as they are. -/
theorem Settled.frame (h : Settled lower ⟨s, before ++ (t, stage) :: after⟩)
    (hstage : stage ≠ .done) (hreached : reached ≠ .done) (hblocks : next.blocks = s.blocks) :
    Settled lower ⟨next, before ++ (t, reached) :: after⟩ where
  distinct := by
    have hdistinct := h.distinct
    simp only [List.filter_append, List.filter_cons, hstage, decide_false, Bool.false_eq_true,
      ↓reduceIte] at hdistinct
    simpa only [List.filter_append, List.filter_cons, hreached, decide_false, Bool.false_eq_true,
      ↓reduceIte] using hdistinct
  lowered u hu := by
    rw [mem_done_iff hreached, ← mem_done_iff hstage] at hu
    exact h.lowered u hu
  blocks position block := by
    simp only [hblocks, h.blocks position block, mem_done_iff hreached, mem_done_iff hstage]

/-- A block that lands at a free position belongs to one more done task. -/
theorem Settled.land {block : String}
    (h : Settled lower ⟨s, before ++ (t, .inserting block) :: after⟩)
    (hblock : blockOf lower t = .ok block) (fresh : t.position ∉ s.blocks) :
    Settled lower ⟨s.insert t.position block, before ++ (t, .done) :: after⟩ := by
  have hstage : Stage.inserting block ≠ .done := by simp
  have hfree : ∀ u, (u, Stage.done) ∈ before ++ after → u.position ≠ t.position := by
    intro u hu heq
    rw [← mem_done_iff (t := t) hstage] at hu
    obtain ⟨ublock, hublock⟩ := h.lowered u hu
    have hget := (h.blocks t.position ublock).mpr ⟨u, hu, heq, hublock⟩
    exact fresh (Std.TreeMap.mem_iff_isSome_getElem?.mpr (by simp [hget]))
  have hmem : ∀ u, (u, Stage.done) ∈ before ++ (t, Stage.done) :: after ↔
      u = t ∨ (u, Stage.done) ∈ before ++ after := by
    intro u
    simp only [List.mem_append, List.mem_cons, Prod.mk.injEq, and_true]
    tauto
  refine ⟨?_, ?_, ?_⟩
  · have hdistinct := h.distinct
    simp only [List.filter_append, List.filter_cons, hstage, decide_false, Bool.false_eq_true,
      ↓reduceIte, List.map_append] at hdistinct
    simp only [List.filter_append, List.filter_cons, decide_true, ↓reduceIte, List.map_append,
      List.map_cons]
    refine List.nodup_middle.mpr (List.nodup_cons.mpr ⟨?_, hdistinct⟩)
    rw [← List.map_append, ← List.filter_append]
    intro hin
    obtain ⟨⟨u, ustage⟩, hu, heq⟩ := List.mem_map.mp hin
    obtain ⟨hu, hdone⟩ := List.mem_filter.mp hu
    have hdone : ustage = .done := by simpa using hdone
    exact hfree u (hdone ▸ hu) heq
  · intro u hu
    rcases (hmem u).mp hu with rfl | hu
    · exact ⟨block, hblock⟩
    · exact h.lowered u ((mem_done_iff hstage u).mpr hu)
  · intro position b
    show (s.blocks.insert t.position block)[position]? = some b ↔ _
    rw [Blocks.getElem?_insert_fresh fresh, h.blocks position b]
    simp only [hmem]
    constructor
    · rintro (⟨rfl, rfl⟩ | ⟨u, hu, hrest⟩)
      · exact ⟨t, .inl rfl, rfl, hblock⟩
      · exact ⟨u, .inr ((mem_done_iff hstage u).mp hu), hrest⟩
    · rintro ⟨u, rfl | hu, rfl, hb⟩
      · exact .inl ⟨rfl, Except.ok.inj (hb.symm.trans hblock)⟩
      · exact .inr ⟨u, (mem_done_iff hstage u).mpr hu, rfl, hb⟩

theorem Inv.settled_move (inv : Inv lower terms ⟨s, before ++ (t, stage) :: after⟩)
    (m : Stage.Move lower t s stage next reached) (hnone : next.firstError = none)
    (hquiet : ∀ u e, (u, Stage.reporting e) ∉ before ++ (t, reached) :: after) :
    Settled lower ⟨next, before ++ (t, reached) :: after⟩ := by
  have hold : s.firstError = none → (∀ e, stage ≠ .reporting e) →
      Settled lower ⟨s, before ++ (t, stage) :: after⟩ := by
    intro hs hstage
    refine inv.settled hs ?_
    intro u e hu
    have hu' : (u, Stage.reporting e) ∈ before ++ (t, reached) :: after := by
      simp only [List.mem_append, List.mem_cons, Prod.mk.injEq, (hstage e).symm, and_false,
        false_or] at hu ⊢
      tauto
    exact hquiet u e hu'
  cases m with
  | start => exact (hold hnone (by simp)).frame (by simp) (by simp) rfl
  | lowered => exact (hold hnone (by simp)).frame (by simp) (by simp) rfl
  | proceed => exact (hold hnone (by simp)).frame (by simp) (by simp) rfl
  | land fresh => exact (hold hnone (by simp)).land inv.self fresh
  | skip failed => exact absurd hnone (inv.flagged failed)
  | discard failed => exact absurd hnone (inv.flagged failed)
  | @refused e => exact absurd (by simp) (hquiet t (.term e))
  | collide => exact absurd (by simp) (hquiet t (.duplicatePosition t.position))
  | @report e =>
    unfold Store.keepFirst at hnone
    split at hnone
    · simp at hnone
    · next hsome => simp [hnone] at hsome
  | flag => exact absurd hnone (inv.self)

/-- Every step of a task keeps the invariant. -/
theorem Inv.move (inv : Inv lower terms ⟨s, before ++ (t, stage) :: after⟩)
    (m : Stage.Move lower t s stage next reached) :
    Inv lower terms ⟨next, before ++ (t, reached) :: after⟩ where
  tasks := by simpa using inv.tasks
  error _ he := inv.error_move m he
  flagged hf := inv.flagged_move m hf
  sound := inv.sound_move m
  past := inv.past_move m
  settled := inv.settled_move m

theorem Inv.run {p q : Pool} (inv : Inv lower terms p) (steps : ReflTransGen (Step lower) p q) :
    Inv lower terms q := by
  induction steps with
  | refl => exact inv
  | tail _ step ih =>
    obtain ⟨active, taken⟩ := step
    exact ih.move (Stage.move_of_step active taken)

/-! ## Outcomes -/

variable {p : Pool}

theorem Settled.not_possible (settled : p.Settled lower) (complete : p.Complete)
    (e : LoweringError) : ¬ PossibleError (blockOf lower) (p.tasks.map Prod.fst) e := by
  have hmem : ∀ t ∈ p.tasks.map Prod.fst, (t, Stage.done) ∈ p.tasks := by
    intro t ht
    obtain ⟨⟨u, stage⟩, hu, rfl⟩ := List.mem_map.mp ht
    obtain rfl : stage = .done := complete _ hu
    exact hu
  have hall : p.tasks.filter (·.2 = .done) = p.tasks :=
    List.filter_eq_self.mpr fun task htask => by simpa using complete task htask
  intro he
  cases he with
  | @term t e mem failed =>
    obtain ⟨block, hblock⟩ := settled.lowered t (hmem t mem)
    rw [hblock] at failed
    simp at failed
  | @duplicate position shared =>
    have hcount : (p.tasks.map Prod.fst).countP
        (fun t => t.position == position && (blockOf lower t).isOk) ≤
          (p.tasks.map (·.1.position)).count position := by
      rw [List.countP_map, List.count, List.countP_map]
      exact List.countP_mono_left fun task _ h => by simp_all
    have hdistinct := settled.distinct
    rw [hall] at hdistinct
    have hone := List.nodup_iff_count_le_one.mp hdistinct position
    omega

/-- After every complete interleaving the store holds all blocks or a possible error. -/
theorem Inv.outcome (inv : Inv lower terms p) (complete : p.Complete) :
    AllOrNothing (blockOf lower) terms p.store.finish := by
  have hquiet : ∀ t e, (t, Stage.reporting e) ∉ p.tasks := by
    intro t e ht
    simpa using complete _ ht
  cases hfirst : p.store.firstError with
  | some e =>
    have hpossible := inv.error e hfirst
    refine ⟨fun hnone => absurd hpossible (hnone e), fun _ => ⟨e, hpossible, ?_⟩⟩
    simp [Store.finish, hfirst]
  | none =>
    have hsettled := inv.settled hfirst hquiet
    have hnone := hsettled.not_possible complete
    rw [inv.tasks] at hnone
    refine ⟨fun _ => ⟨p.store.blocks, by simp [Store.finish, hfirst], ?_⟩,
      fun ⟨e, he⟩ => absurd he (hnone e)⟩
    intro position block
    rw [hsettled.blocks position block, ← inv.tasks]
    constructor
    · rintro ⟨t, ht, hrest⟩
      exact ⟨t, List.mem_map_of_mem ht, hrest⟩
    · rintro ⟨t, ht, hrest⟩
      obtain ⟨⟨u, stage⟩, hu, rfl⟩ := List.mem_map.mp ht
      obtain rfl : stage = .done := complete _ hu
      exact ⟨u, hu, hrest⟩

/-! ## One worker and sequential execution -/

theorem steps_of_run (lower : Term → Except TermError Circuit) (t : Term)
    (before after : List (Term × Stage)) (count : Nat) (state : Store × Stage) :
    ReflTransGen (Step lower) ⟨state.1, before ++ (t, state.2) :: after⟩
      ⟨(Stage.run lower t count state).1,
        before ++ (t, (Stage.run lower t count state).2) :: after⟩ := by
  induction count generalizing state with
  | zero => exact .refl
  | succ count ih =>
    obtain ⟨s, stage⟩ := state
    by_cases hdone : stage = .done
    · subst hdone
      exact ih (s, .done)
    · exact (ih (stage.step lower t s)).head (.task hdone rfl)

/-- A task run to its end with no other in between. -/
theorem run_waiting (lower : Term → Except TermError Circuit) (t : Term) (s : Store) :
    Stage.run lower t Stage.stepBound (s, .waiting) =
      (if s.failed then s else s.process lower t, .done) := by
  cases hf : s.failed with
  | true => simp [Stage.stepBound, Stage.run, Stage.step, hf]
  | false =>
    cases hl : lower t with
    | error e => simp [Stage.stepBound, Stage.run, Stage.step, Store.process, Store.fail, hf, hl]
    | ok c =>
      cases hc : s.blocks.contains t.position <;>
        simp [Stage.stepBound, Stage.run, Stage.step, Store.process, Store.record, Store.fail,
          Store.note, hf, hl, hc]

theorem complete_of_done (s : Store) (terms : List Term) :
    Pool.Complete ⟨s, terms.map (·, .done)⟩ := by
  intro task htask
  obtain ⟨t, _, rfl⟩ := List.mem_map.mp htask
  rfl

end Pool

theorem Store.runWorker_cons (lower : Term → Except TermError Circuit) (s : Store) (t : Term)
    (ts : List Term) :
    s.runWorker lower (t :: ts) =
      (if s.failed then s else s.process lower t).runWorker lower ts := by
  simp [runWorker, Pool.run_waiting]

/-- A single worker is one of the interleavings. -/
theorem runWorker_reachable (lower : Term → Except TermError Circuit) (s : Store)
    (terms : List Term) (finished : List (Term × Stage)) :
    ReflTransGen (Pool.Step lower) ⟨s, finished ++ terms.map (·, .waiting)⟩
      ⟨s.runWorker lower terms, finished ++ terms.map (·, .done)⟩ := by
  induction terms generalizing s finished with
  | nil => exact .refl
  | cons t ts ih =>
    have htask := Pool.steps_of_run lower t finished (ts.map (·, .waiting)) Stage.stepBound
      (s, .waiting)
    rw [Pool.run_waiting] at htask
    have hrest := ih (if s.failed then s else s.process lower t) (finished ++ [(t, .done)])
    rw [Store.runWorker_cons]
    simpa using htask.trans (by simpa using hrest)

theorem Store.runWorker_failed (lower : Term → Except TermError Circuit) {s : Store}
    (failed : s.failed = true) (terms : List Term) : s.runWorker lower terms = s := by
  induction terms with
  | nil => rfl
  | cons t ts ih => simpa [runWorker_cons, failed] using ih

theorem Store.runSequential_eq_runWorker (lower : Term → Except TermError Circuit) (s : Store)
    (terms : List Term) : s.runSequential lower terms = s.runWorker lower terms := by
  induction terms generalizing s with
  | nil => rfl
  | cons t ts ih =>
    rw [runSequential, runWorker_cons]
    cases hf : s.failed with
    | true => simp [runWorker_failed lower hf]
    | false => simpa using ih (s.process lower t)

theorem Store.runWorker_outcome (lower : Term → Except TermError Circuit) {s : Store}
    (fresh : Pool.Fresh s) (terms : List Term) :
    AllOrNothing (blockOf lower) terms (s.runWorker lower terms).finish := by
  have hstart : Pool.Inv lower terms ⟨s, terms.map (·, .waiting)⟩ := Pool.Inv.start fresh
  exact (hstart.run (runWorker_reachable lower s terms [])).outcome (Pool.complete_of_done _ terms)

/-! ## Lowering a Hamiltonian -/

theorem Blocks.ascending_toList (blocks : Blocks) :
    blocks.toList.Pairwise fun a b => a.1 < b.1 :=
  Std.TreeMap.ordered_keys_toList.imp fun h => Nat.compare_eq_lt.mp h

/-- Blocks in ascending order of position are known by their members. -/
theorem eq_of_ascending {a b : List (Nat × String)} (ha : a.Pairwise fun x y => x.1 < y.1)
    (hb : b.Pairwise fun x y => x.1 < y.1) (h : ∀ x, x ∈ a ↔ x ∈ b) : a = b := by
  have hnodup : ∀ l : List (Nat × String), l.Pairwise (fun x y => x.1 < y.1) → l.Nodup :=
    fun l hl => hl.imp fun hlt heq => Nat.ne_of_lt hlt (congrArg Prod.fst heq)
  have hperm := (List.perm_ext_iff_of_nodup (hnodup a ha) (hnodup b hb)).mpr h
  exact hperm.eq_of_pairwise (fun _ _ _ _ hlt hgt => absurd hlt (Nat.lt_asymm hgt)) ha hb

theorem Blocks.Exact.equiv {lower : Term → Except TermError String} {terms : List Term}
    {a b : Blocks} (ha : a.Exact lower terms) (hb : b.Exact lower terms) : a.Equiv b := by
  refine Std.TreeMap.equiv_iff_toList_eq.mpr
    (eq_of_ascending a.ascending_toList b.ascending_toList ?_)
  rintro ⟨position, block⟩
  rw [Std.TreeMap.mem_toList_iff_getElem?_eq_some, Std.TreeMap.mem_toList_iff_getElem?_eq_some,
    ha position block, hb position block]

theorem AllOrNothing.not_possible {lower : Term → Except TermError String} {terms : List Term}
    {outcome : Except LoweringError Blocks} (h : AllOrNothing lower terms outcome) {blocks : Blocks}
    (ok : outcome = .ok blocks) : ∀ e, ¬ PossibleError lower terms e := by
  intro e he
  obtain ⟨f, _, houtcome⟩ := h.nothing ⟨e, he⟩
  cases ok.symm.trans houtcome

theorem AllOrNothing.possible_of_error {lower : Term → Except TermError String} {terms : List Term}
    {outcome : Except LoweringError Blocks} (h : AllOrNothing lower terms outcome)
    {e : LoweringError} (error : outcome = .error e) : PossibleError lower terms e := by
  by_cases hnone : ∀ f, ¬ PossibleError lower terms f
  · obtain ⟨blocks, hblocks, _⟩ := h.all hnone
    cases error.symm.trans hblocks
  · obtain ⟨f, hf, houtcome⟩ := h.nothing (by simpa using hnone)
    obtain rfl := Except.error.inj (error.symm.trans houtcome)
    exact hf

theorem AllOrNothing.eq_error {lower : Term → Except TermError String} {terms : List Term}
    {outcome : Except LoweringError Blocks} (h : AllOrNothing lower terms outcome)
    {e : LoweringError} (only : ∀ f, PossibleError lower terms f ↔ f = e) : outcome = .error e := by
  obtain ⟨f, hf, houtcome⟩ := h.nothing ⟨e, (only e).mpr rfl⟩
  rw [houtcome, (only f).mp hf]

namespace Hamiltonian

variable (settings : Settings) (h : Hamiltonian)

theorem run_outcome_of_sequential (sequential : settings.execution = .sequential) :
    ∃ s, Pool.Fresh s ∧ (h.run settings).outcome =
      (s.runSequential (Term.circuit h.numQubits settings.angleMultiplier) h.terms).finish := by
  refine ⟨Store.note {} (.started h.terms.length h.numQubits .sequential), ⟨rfl, rfl, rfl⟩, ?_⟩
  simp only [run, sequential]
  split
  · next hfinish => exact hfinish.symm
  · next hfinish => exact hfinish.symm

/-- Whatever the execution mode, a run lowers as a single worker does. -/
theorem run_outcome : ∃ s, Pool.Fresh s ∧ (h.run settings).outcome =
    (s.runWorker (Term.circuit h.numQubits settings.angleMultiplier) h.terms).finish := by
  cases hmode : settings.execution with
  | sequential =>
    simpa only [Store.runSequential_eq_runWorker] using h.run_outcome_of_sequential settings hmode
  | parallel =>
    refine ⟨Store.note (Store.note {} (.started h.terms.length h.numQubits .parallel))
      (.dispatched settings.threads), ⟨rfl, rfl, rfl⟩, ?_⟩
    simp only [run, hmode]
    split
    · next hfinish => exact hfinish.symm
    · next hfinish => exact hfinish.symm

theorem lower_eq_run (valid : settings.validate = .ok ()) :
    h.lower settings = (h.run settings).outcome := by
  simp [lower, valid, Except.mapError, bind, Except.bind]

theorem lower_outcome (valid : settings.validate = .ok ()) :
    AllOrNothing (Term.lower h.numQubits settings.angleMultiplier) h.terms (h.lower settings) := by
  obtain ⟨s, fresh, houtcome⟩ := h.run_outcome settings
  rw [h.lower_eq_run settings valid, houtcome]
  exact Store.runWorker_outcome _ fresh h.terms

/-- The pool is what some interleaving of the tasks of all terms ends in. -/
def EndsIn (settings : Settings) (h : Hamiltonian) (p : Pool) : Prop :=
  ReflTransGen (Pool.Step (Term.circuit h.numQubits settings.angleMultiplier))
    (.ofTerms h.terms) p ∧
    p.Complete

theorem EndsIn.outcome {settings : Settings} {h : Hamiltonian} {p : Pool}
    (ends : h.EndsIn settings p) :
    AllOrNothing (Term.lower h.numQubits settings.angleMultiplier) h.terms p.store.finish := by
  have hstart : Pool.Inv (Term.circuit h.numQubits settings.angleMultiplier) h.terms
      (.ofTerms h.terms) := Pool.Inv.start Pool.fresh_empty
  exact (hstart.run ends.1).outcome ends.2

theorem exists_endsIn : ∃ p, h.EndsIn settings p :=
  ⟨_, runWorker_reachable _ {} h.terms [], Pool.complete_of_done _ h.terms⟩

end Hamiltonian

/-- **All or nothing, whatever the schedule.** Some interleaving of the tasks comes to an end, and
each one that does has the blocks of all terms if no error is possible, the same that sequential
execution has, and otherwise a possible error. Lowering under valid settings has such an outcome
too, so where a single error is possible all of them end with it. -/
theorem lowering_schedule_independent (settings : Settings) (h : Hamiltonian)
    (valid : settings.validate = .ok ()) :
    (∃ p, h.EndsIn settings p) ∧
    (∀ p, h.EndsIn settings p →
      AllOrNothing (Term.lower h.numQubits settings.angleMultiplier) h.terms p.store.finish ∧
      ∀ blocks, p.store.finish = .ok blocks → ∃ same,
        (Store.runSequential (Term.circuit h.numQubits settings.angleMultiplier) {}
          h.terms).finish =
          .ok same ∧ blocks.Equiv same) ∧
    AllOrNothing (Term.lower h.numQubits settings.angleMultiplier) h.terms (h.lower settings) ∧
    ∀ e, (∀ f, PossibleError (Term.lower h.numQubits settings.angleMultiplier) h.terms f ↔ f = e) →
      (∀ p, h.EndsIn settings p → p.store.finish = .error e) ∧ h.lower settings = .error e := by
  refine ⟨h.exists_endsIn settings, ?_, h.lower_outcome settings valid, ?_⟩
  · intro p ends
    refine ⟨ends.outcome, ?_⟩
    intro blocks hblocks
    have hnone := ends.outcome.not_possible hblocks
    obtain ⟨_, hp, hexact⟩ := ends.outcome.all hnone
    obtain rfl : blocks = _ := Except.ok.inj (hblocks.symm.trans hp)
    rw [Store.runSequential_eq_runWorker]
    obtain ⟨same, hsame, hexact'⟩ := (Store.runWorker_outcome
      (Term.circuit h.numQubits settings.angleMultiplier) Pool.fresh_empty h.terms).all hnone
    exact ⟨same, hsame, hexact.equiv hexact'⟩
  · intro e only
    exact ⟨fun p ends => ends.outcome.eq_error only, (h.lower_outcome settings valid).eq_error only⟩

def sharedPosition : Hamiltonian :=
  .withRegister 1 [.first "Z" (by decide), .first "Y" (by decide)]

theorem lowering_schedule_independent_shared :
    Settings.validate {} = .ok () ∧
      (∃ p, sharedPosition.EndsIn {} p ∧ p.store.finish = .error (.duplicatePosition 1)) ∧
      sharedPosition.lower {} = .error (.duplicatePosition 1) := by
  have hvalid : Settings.validate {} = .ok () := rfl
  have honly :
      ∀ f, PossibleError (Term.lower sharedPosition.numQubits .half) sharedPosition.terms f ↔
      f = .duplicatePosition 1 := by
    intro f
    constructor
    · rintro (⟨hmem, hfailed⟩ | hshared)
      · rcases List.mem_pair.mp hmem with rfl | rfl <;> cases hfailed
      · rename_i position
        by_cases hp : 1 = position
        · rw [hp]
        · simp [sharedPosition, Hamiltonian.withRegister, Term.first, hp] at hshared
    · rintro rfl
      exact .duplicate (by decide)
  obtain ⟨⟨p, ends⟩, _, _, hsingle⟩ := lowering_schedule_independent {} sharedPosition hvalid
  obtain ⟨hall, hlower⟩ := hsingle _ honly
  exact ⟨hvalid, ⟨p, ends, hall p ends⟩, hlower⟩

end PauliLowering
