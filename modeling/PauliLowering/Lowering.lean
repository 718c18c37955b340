import PauliLowering.Circuit
import PauliLowering.Settings
import Std.Data.TreeMap

/-!
Lowering a Hamiltonian to blocks and to a program.

The store of a run holds the blocks by position, and the first failure. Blocks are read back in
ascending order of position, so the order in which they are put in leaves no trace. After a failure
nothing is stored any more, and the run has no blocks as its result.

Workers share the store. Each term is a task of its own, and a task is a sequence of small steps on
the store. Each step is taken as a whole, but steps of different tasks may come in any order:
`Pool.Step` relates a pool to what it can be after one step of one task.
-/

namespace PauliLowering

/-! ## The store -/

inductive LoweringError where
  | term (error : TermError)
  | settings (error : SettingsError)
  /-- The workers cannot be started, for the given reason. -/
  | noWorkers (reason : String)
  | duplicatePosition (position : Nat)
  deriving DecidableEq

namespace LoweringError

def message : LoweringError → String
  | term e => e.message
  | settings e => s!"Invalid configuration: {e.message}"
  | noWorkers reason => s!"Failed to build worker pool: {reason}"
  | duplicatePosition position => s!"Duplicate term position {position}"

def position? : LoweringError → Option Nat
  | term e => some e.position
  | settings _ | noWorkers _ => none
  | duplicatePosition position => some position

end LoweringError

def Term.circuit (numQubits : Nat) (multiplier : Binary64) (t : Term) :
    Except TermError Circuit := do
  Circuit.synthesize t (← t.support) numQubits multiplier

def Term.lower (numQubits : Nat) (multiplier : Binary64) (t : Term) : Except TermError String :=
  (t.circuit numQubits multiplier).map Circuit.block

/-- What a run reports while it goes on. -/
inductive Event where
  | started (terms qubits : Nat) (execution : Execution)
  /-- The workers are about to start, as many as given or one for each core. -/
  | dispatched (workers : Option Nat)
  | lowered (position : Nat) (pivot : Qubit) (gates : Nat)
  | aborted (error : LoweringError)
  | finished (terms : Nat)
  deriving DecidableEq

abbrev Blocks := Std.TreeMap Nat String

structure Store where
  blocks : Blocks := ∅
  failed : Bool := false
  firstError : Option LoweringError := none
  /-- The events of the run, the latest first. -/
  journal : List Event := []

namespace Store

def note (s : Store) (e : Event) : Store := { s with journal := e :: s.journal }

/-- Keep an error if it is the first one. -/
def keepFirst (s : Store) (e : LoweringError) : Store :=
  if s.firstError.isNone then { s.note (.aborted e) with firstError := some e } else s

def setFailed (s : Store) : Store := { s with failed := true }

def fail (s : Store) (e : LoweringError) : Store := (s.keepFirst e).setFailed

/-- Put a block in its place, whether or not there is one already. -/
def insert (s : Store) (position : Nat) (block : String) : Store :=
  { s with blocks := s.blocks.insert position block }

/-- Store a block unless the run has failed. A second block for a position is a failure. -/
def record (s : Store) (position : Nat) (block : String) : Store :=
  if s.failed then s
  else if s.blocks.contains position then
    (s.insert position block).fail (.duplicatePosition position)
  else s.insert position block

/-- The outcome of lowering a term, as an event for the journal and a block. -/
def process (lower : Term → Except TermError Circuit) (s : Store) (t : Term) : Store :=
  match lower t with
  | .ok c => (s.note (.lowered t.position c.pivot c.size)).record t.position c.block
  | .error e => s.fail (.term e)

/-- Lower terms one after another, up to the first failure. -/
def runSequential (lower : Term → Except TermError Circuit) (s : Store) : List Term → Store
  | [] => s
  | t :: ts => if s.failed then s else runSequential lower (s.process lower t) ts

/-- All blocks or an error, never a part of the blocks. -/
def finish (s : Store) : Except LoweringError Blocks :=
  match s.firstError with
  | some e => .error e
  | none => .ok s.blocks

end Store

/-! ## Workers -/

/-- How far the task of a term has come. -/
inductive Stage where
  /-- The task looks at the failure flag before it starts. -/
  | waiting
  | lowering
  /-- The task looks at the failure flag again, with a block in hand. -/
  | recording (block : String)
  | inserting (block : String)
  | reporting (error : LoweringError)
  | flagging
  | done
  deriving DecidableEq

namespace Stage

def step (lower : Term → Except TermError Circuit) (t : Term) (s : Store) : Stage → Store × Stage
  | waiting => (s, if s.failed then done else lowering)
  | lowering =>
    match lower t with
    | .ok c => (s.note (.lowered t.position c.pivot c.size), recording c.block)
    | .error e => (s, reporting (.term e))
  | recording block => (s, if s.failed then done else inserting block)
  | inserting block =>
    (s.insert t.position block,
      if s.blocks.contains t.position then reporting (.duplicatePosition t.position) else done)
  | reporting e => (s.keepFirst e, flagging)
  | flagging => (s.setFailed, done)
  | done => (s, done)

/-- The steps of a task with no other task in between. -/
def run (lower : Term → Except TermError Circuit) (t : Term) : Nat → Store × Stage → Store × Stage
  | 0, state => state
  | count + 1, (s, stage) => run lower t count (stage.step lower t s)

/-- The most steps that a task takes from start to end. -/
def stepBound : Nat := 6

end Stage

structure Pool where
  store : Store
  tasks : List (Term × Stage)

namespace Pool

/-- All tasks waiting, on an empty store. -/
def ofTerms (terms : List Term) : Pool := ⟨{}, terms.map (·, .waiting)⟩

/-- The pool after a step of some task that is not done. -/
inductive Step (lower : Term → Except TermError Circuit) : Pool → Pool → Prop where
  | task {store next : Store} {before after : List (Term × Stage)} {t : Term}
      {stage reached : Stage} (active : stage ≠ .done)
      (taken : stage.step lower t store = (next, reached)) :
      Step lower ⟨store, before ++ (t, stage) :: after⟩ ⟨next, before ++ (t, reached) :: after⟩

def Complete (p : Pool) : Prop := ∀ task ∈ p.tasks, task.2 = .done

end Pool

/-- The tasks of the terms in their order, each run to its end before the next, as a single worker
does it. -/
def Store.runWorker (lower : Term → Except TermError Circuit) (s : Store) (terms : List Term) :
    Store :=
  terms.foldl (fun s t => (Stage.run lower t Stage.stepBound (s, .waiting)).1) s

/-! ## Runs -/

structure Run where
  journal : List Event
  outcome : Except LoweringError Blocks

namespace Hamiltonian

/-- Lower every term with the given settings, on workers that start if there are to be any. -/
def run (settings : Settings) (h : Hamiltonian) : Run :=
  let lower := Term.circuit h.numQubits settings.angleMultiplier
  let s := Store.note {} (.started h.terms.length h.numQubits settings.execution)
  let s := match settings.execution with
    | .sequential => s.runSequential lower h.terms
    | .parallel => (s.note (.dispatched settings.threads)).runWorker lower h.terms
  match s.finish with
  | .ok blocks => ⟨(s.note (.finished blocks.size)).journal.reverse, .ok blocks⟩
  | .error e => ⟨s.journal.reverse, .error e⟩

/-- A run on a machine that may have a reason why so many workers cannot be started. -/
def runOn (poolFault? : Option Nat → Option String) (settings : Settings) (h : Hamiltonian) : Run :=
  match settings.execution, poolFault? settings.threads with
  | .parallel, some reason =>
    ⟨[.started h.terms.length h.numQubits .parallel], .error (.noWorkers reason)⟩
  | _, _ => h.run settings

/-- The blocks of the terms; the settings must be valid. -/
def lower (settings : Settings) (h : Hamiltonian) : Except LoweringError Blocks := do
  settings.validate.mapError .settings
  (h.run settings).outcome

/-- The program text of lowered blocks, in ascending order of position. -/
def assemble (settings : Settings) (h : Hamiltonian) (blocks : Blocks) : String :=
  settings.dialect.program h.numQubits blocks.values

def program (settings : Settings) (h : Hamiltonian) : Except LoweringError String := do
  return h.assemble settings (← h.lower settings)

end Hamiltonian

end PauliLowering
