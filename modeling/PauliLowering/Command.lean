import PauliLowering.Lowering

/-!
The command line: what a call prints, how it ends, and which file it writes.

Settings come from a file or from the defaults, then from the environment, then from options. A
layer that is invalid by itself stays an error, whatever lies above it. A run either writes its
whole program or writes nothing. The machine is a parameter, the `Host`: its variables, the format
of its settings files, whether it can start workers, and how it logs.
-/

namespace PauliLowering

inductive InputError where
  | unreadable (path : String) (fault : FileFault)
  | malformed (error : TermError)
  deriving DecidableEq

namespace InputError

def message : InputError → String
  | unreadable path _ => s!"cannot read {path}"
  | malformed e => e.message

/-- The message with the reason behind it. -/
def fullMessage : InputError → String
  | unreadable path fault => s!"cannot read {path}: {fault.message}"
  | malformed e => e.message

end InputError

def Hamiltonian.ofFile (read : FileReader) (path : String) : Except InputError Hamiltonian := do
  let text ← (read path >>= decodeText).mapError (.unreadable path)
  (Hamiltonian.read text).mapError .malformed

namespace Command

structure Options where
  output : Option String := none
  /-- The number of the dialect, which may be one that there is not. -/
  dialect : Option Nat := none
  multiplier : Option Binary64 := none
  sequential : Bool := false
  threads : Option Nat := none
  config : Option String := none

inductive Failure where
  | settings (error : SettingsError)
  | unsupportedDialect (number : Nat)
  | input (path : String) (error : InputError)
  | lowering (error : LoweringError)
  | output (path : String) (fault : FileFault)
  deriving DecidableEq

def Failure.message : Failure → String
  | settings e => e.message
  | unsupportedDialect number => s!"Unsupported QASM version: {number} (use 2 or 3)"
  | input path e => s!"Failed to read operators from {path}: {e.fullMessage}"
  | lowering e => e.message
  | output path fault => s!"Failed to write file: {path}: {fault.message}"

/-- Settings with those of options on top. -/
def override (s : Settings) (o : Options) : Except Failure Settings := do
  let dialect ← match o.dialect with
    | none => pure s.dialect
    | some number =>
      match Dialect.ofNumber? number with
      | some d => pure d
      | none => throw (.unsupportedDialect number)
  let settings := {
    dialect
    angleMultiplier := o.multiplier.getD s.angleMultiplier
    execution := if o.sequential then .sequential else s.execution
    threads := o.threads <|> s.threads : Settings }
  settings.validate.mapError .settings
  return settings

/-- The settings that a call works with. -/
def resolve (parse : SettingsParser) (read : FileReader) (env : Environment) (o : Options) :
    Except Failure Settings := do
  override (← (Settings.load parse read env o.config).mapError .settings) o

/-- What a call prints and how it ends. -/
structure Report where
  code : Nat := 0
  stdout : String := ""
  /-- The lines on the error stream. -/
  stderr : List String := []

/-- What a call finds on the machine that it runs on, the files apart. -/
structure Host where
  environment : Environment
  parseSettings : SettingsParser
  /-- The reason, if there is one, why so many workers cannot be started. -/
  poolFault? : Option Nat → Option String
  /-- The line of an event in the log, if the verbosity asks for it. -/
  logLine? : Nat → Settings → Hamiltonian → Event → Option String

/-- A lowering up to the point where its program is to be written, and the lines printed on the way.
-/
structure Prepared where
  lines : List String
  program : Except Failure String

def prepare (host : Host) (read : FileReader) (verbosity : Nat) (input : String) (o : Options) :
    Prepared :=
  match resolve host.parseSettings read host.environment o with
  | .error failure => ⟨[], .error failure⟩
  | .ok settings =>
    let lines := [s!"→ Translating {input} to OpenQASM {settings.dialect.name}"]
    match Hamiltonian.ofFile read input with
    | .error e => ⟨lines, .error (.input input e)⟩
    | .ok h =>
      let lines := lines ++ [s!"  Loaded: {h.terms.length} terms on {h.numQubits} qubits"]
      let run := h.runOn host.poolFault? settings
      let log := run.journal.filterMap (host.logLine? verbosity settings h)
      match run.outcome with
      | .error e => ⟨lines ++ log, .error (.lowering e)⟩
      | .ok blocks =>
        ⟨lines ++ log ++ ["✓ Translation complete"], .ok (h.assemble settings blocks)⟩

/-- A failed call prints nothing but its lines and the reason. -/
def failed (lines : List String) (failure : Failure) : Report :=
  { code := 1, stderr := lines ++ [s!"Error: {failure.message}"] }

/-- The report of a lowering without an output file: the program goes to the output stream. -/
def Prepared.print (p : Prepared) : Report :=
  match p.program with
  | .error failure => failed p.lines failure
  | .ok text => { stdout := text, stderr := p.lines }

/-- The report of a lowering whose program was written to a file, or could not be. -/
def Prepared.saved (p : Prepared) (path : String) (written : Except FileFault Unit) : Report :=
  match written with
  | .error fault => failed p.lines (.output path fault)
  | .ok () => { stderr := p.lines ++ [s!"  Output: {path}"] }

def runLower (host : Host) (tree : FileTree) (verbosity : Nat) (input : String) (o : Options) :
    Report × FileTree :=
  let p := prepare host tree.read verbosity input o
  match p.program, o.output with
  | .ok text, some path =>
    match tree.write path text.toUTF8 with
    | .ok tree => (p.saved path (.ok ()), tree)
    | .error fault => (p.saved path (.error fault), tree)
  | _, _ => (p.print, tree)

def aboutText : String :=
  "pauliq v0.3.0 - Pauli term to OpenQASM translator\n\nComponents:\n" ++
  "  pauliq-ir       Pauli terms, reader and gate model\n" ++
  "  pauliq-compile  Term synthesis and parallel translation\n" ++
  "  pauliq-qasm     OpenQASM 2.0 / 3.0 emitter\n" ++
  "  pauliq-cli      Command-line interface\n\n" ++
  "Repository: https://github.com/hiq-lab/pauliq\nLicense:    Apache-2.0\n"

end Command

end PauliLowering
