import PauliLowering.Command
import PauliLowering.Yaml.Settings

/-!
The machine that a call runs on: its settings files are in YAML, its workers can always be started,
and its log has a line for each event.

A line starts with its level. The work on the main thread is inside a scope that names the size of
the run; lines from a worker are outside it. The scope itself is of the level `info`.
-/

namespace PauliLowering.Command

inductive Level where
  | warn
  | info
  | debug
  deriving DecidableEq, Repr

namespace Level

def ofVerbosity : Nat → Level
  | 0 => warn
  | 1 => info
  | _ => debug

def name : Level → String
  | warn => "WARN"
  | info => "INFO"
  | debug => "DEBUG"

/-- The lower the rank, the more important the line. -/
def rank : Level → Nat
  | warn => 0
  | info => 1
  | debug => 2

end Level

def levelOf : Event → Level
  | .started _ _ _ | .finished _ => .info
  | .dispatched _ | .lowered _ _ _ => .debug
  | .aborted _ => .warn

def textOf (cores : Nat) : Event → String
  | .started terms qubits execution =>
    s!"Translating {terms} terms on {qubits} qubits ({execution.name})"
  | .dispatched workers => s!"Dispatching on {workers.getD cores} workers"
  | .lowered position pivot gates => s!"Term {position} lowered: pivot {pivot.name}, {gates} gates"
  | .aborted error => s!"Translation aborted: {error.message}"
  | .finished terms => s!"Translated {terms} terms"

/-- Events of single terms, which in a parallel run come from a worker. -/
def isOfTerm : Event → Bool
  | .lowered _ _ _ | .aborted _ => true
  | _ => false

/-- Control characters that a terminal would act on are written as escapes. -/
def escapeControl (c : Char) : String :=
  let hex := String.ofList (Nat.toDigits 16 c.toNat)
  match c with
  | '\x1b' => "\\x1b"
  | '\x07' => "\\x07"
  | '\x08' => "\\x08"
  | '\x0c' => "\\x0c"
  | '\x7f' => "\\x7f"
  | _ => if 0x80 ≤ c.toNat && c.toNat ≤ 0x9F then "\\u\x7b" ++ hex ++ "\x7d" else c.toString

/-- The line of an event, if the log is as detailed as that. -/
def eventLine? (level : Level) (cores : Nat) (settings : Settings) (h : Hamiltonian) (e : Event) :
    Option String :=
  if level.rank < (levelOf e).rank then none
  else
    let onWorker := isOfTerm e && settings.execution == .parallel
    let scope :=
      if level.rank < Level.info.rank || onWorker then ""
      else s!"translate_terms\x7bterms={h.terms.length} qubits={h.numQubits}\x7d: "
    let text := String.join ((textOf cores e).toList.map escapeControl)
    some s!"{(levelOf e).name} {scope}{text}"

/-- A machine with the given variables and number of cores. -/
def Host.standard (environment : Environment) (cores : Nat) : Host where
  environment
  parseSettings := Settings.parseYaml
  poolFault? _ := none
  logLine? verbosity := eventLine? (.ofVerbosity verbosity) cores

end PauliLowering.Command
