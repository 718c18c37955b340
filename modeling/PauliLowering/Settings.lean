import PauliLowering.Files
import PauliLowering.Number
import PauliLowering.Text

/-!
The settings of a lowering run, and what makes them valid.

The two dialects of OpenQASM differ in the header of a program only. Settings come from a file or
from the defaults, then from environment variables: a variable that is set replaces its setting, and
one with a malformed value is an error. The variables are taken up in a fixed order, and the first
malformed one is reported. The format of the file is left open: its reader is a parameter.
-/

namespace PauliLowering

/-! ## Dialects -/

inductive Dialect where
  | qasm2
  | qasm3
  deriving DecidableEq, Repr

namespace Dialect

def number : Dialect → Nat
  | qasm2 => 2
  | qasm3 => 3

def ofNumber? : Nat → Option Dialect
  | 2 => some qasm2
  | 3 => some qasm3
  | _ => none

/-- The version as the dialect writes it. -/
def name (d : Dialect) : String := s!"{d.number}.0"

inductive Fault where
  | number (major : Nat)
  | text (trimmed : String)
  deriving DecidableEq, Repr

def Fault.message : Fault → String
  | number major => s!"unsupported OpenQASM version {major}"
  | text trimmed => s!"unsupported OpenQASM version '{trimmed}' (expected 2 or 3)"

def ofNumber (major : Nat) : Except Fault Dialect :=
  match ofNumber? major with
  | some d => .ok d
  | none => .error (.number major)

/-- A dialect named by text, with or without the minor version; blanks around it do not count. -/
def ofText (s : String) : Except Fault Dialect :=
  match Text.trimmed s with
  | "2" | "2.0" => .ok qasm2
  | "3" | "3.0" => .ok qasm3
  | other => .error (.text other)

def header (d : Dialect) (numQubits : Nat) : String :=
  match d with
  | qasm2 =>
    s!"OPENQASM 2.0;\ninclude \"qelib1.inc\";\nqreg q[{numQubits}];\ncreg c[{numQubits}];\n"
  | qasm3 =>
    s!"OPENQASM 3.0;\ninclude \"stdgates.inc\";\nqubit[{numQubits}] q;\nbit[{numQubits}] c;\n"

/-- A program: the header, then the blocks as they are. -/
def program (d : Dialect) (numQubits : Nat) (blocks : List String) : String :=
  d.header numQubits ++ String.join blocks

end Dialect

/-! ## Settings -/

/-- How the terms are taken up: by a pool of workers, or one after another. -/
inductive Execution where
  | parallel
  | sequential
  deriving DecidableEq, Repr

structure Settings where
  dialect : Dialect := .qasm2
  /-- A factor of every angle. -/
  angleMultiplier : Binary64 := .half
  execution : Execution := .parallel
  /-- The number of workers; without it there is one for each core. -/
  threads : Option Nat := none
  deriving DecidableEq

inductive SettingFault where
  | dialectVariable (fault : Dialect.Fault)
  | multiplierVariable (text : String)
  | threadsVariable (text : String)
  | unknownExecution (name : String)
  | multiplierNotFinite (value : Binary64)
  | multiplierZero
  | threadsZero
  deriving DecidableEq

def SettingFault.message : SettingFault → String
  | dialectVariable fault => s!"PAULIQ_QASM_VERSION: {fault.message}"
  | multiplierVariable text => s!"PAULIQ_ANGLE_MULTIPLIER: invalid number '{text}'"
  | threadsVariable text => s!"PAULIQ_THREADS: invalid count '{text}'"
  | unknownExecution name => s!"Unknown execution mode: {name}"
  | multiplierNotFinite value => s!"angle_multiplier must be finite, got {value.literal}"
  | multiplierZero => "angle_multiplier must be non-zero"
  | threadsZero => "threads must be greater than 0; omit it to use all cores"

inductive SettingsError where
  | unreadable (path : String) (fault : FileFault)
  /-- The file's text is no set of settings, for the given reason. -/
  | unparsable (reason : String)
  | invalid (fault : SettingFault)
  deriving DecidableEq

def SettingsError.message : SettingsError → String
  | unreadable path fault => s!"IO error: {path}: {fault.message}"
  | unparsable reason => s!"Parse error: {reason}"
  | invalid fault => s!"Validation error: {fault.message}"

namespace Execution

def name : Execution → String
  | parallel => "parallel"
  | sequential => "sequential"

/-- A mode named by text, in full or by its first three letters, in any letter case and with blanks
around it. -/
def ofText (s : String) : Except SettingFault Execution :=
  match String.ofList (Text.lowercase (Text.trim s.toList)) with
  | "parallel" | "par" => .ok parallel
  | "sequential" | "seq" => .ok sequential
  | other => .error (.unknownExecution other)

end Execution

namespace Settings

/-- The first fault of the settings: the multiplier is finite and not zero, and there is a worker.
-/
def fault? (s : Settings) : Option SettingFault :=
  if !s.angleMultiplier.isFinite then some (.multiplierNotFinite s.angleMultiplier)
  else if s.angleMultiplier.isZero then some .multiplierZero
  else if s.threads = some 0 then some .threadsZero
  else none

def validate (s : Settings) : Except SettingsError Unit :=
  match s.fault? with
  | some fault => .error (.invalid fault)
  | none => .ok ()

inductive Field where
  | dialect
  | angleMultiplier
  | execution
  | threads
  deriving DecidableEq, Repr

/-! ## Variables -/

def dialectOfText (text : String) : Except SettingFault Dialect :=
  (Dialect.ofText text).mapError .dialectVariable

def multiplierOfText (text : String) : Except SettingFault Binary64 :=
  match Binary64.read? (Text.trim text.toList) with
  | some value => .ok value
  | none => .error (.multiplierVariable text)

def threadsOfText (text : String) : Except SettingFault (Option Nat) :=
  match Numeral.readUpTo? Numeral.word (Text.trim text.toList) with
  | some count => .ok (some count)
  | none => .error (.threadsVariable text)

/-- A setting with its variable on top: one that is not set leaves the setting as it is. -/
def withVariable {α : Type} (text? : Option String) (old : α)
    (ofText : String → Except SettingFault α) : Except SettingFault α :=
  match text? with
  | none => .ok old
  | some text => ofText text

def withEnvironment (s : Settings) (lookup : String → Option String) :
    Except SettingFault Settings := do
  let dialect ← withVariable (lookup "PAULIQ_QASM_VERSION") s.dialect dialectOfText
  let angleMultiplier ←
    withVariable (lookup "PAULIQ_ANGLE_MULTIPLIER") s.angleMultiplier multiplierOfText
  let execution ← withVariable (lookup "PAULIQ_EXECUTION") s.execution Execution.ofText
  let threads ← withVariable (lookup "PAULIQ_THREADS") s.threads threadsOfText
  return { dialect, angleMultiplier, execution, threads }

end Settings

/-- The variables of the process, as bytes. -/
abbrev Environment := String → Option ByteArray

/-- The text of a variable; one that is not text counts as unset. -/
def Environment.text? (env : Environment) (name : String) : Option String :=
  (env name).bind String.fromUTF8?

/-! ## Files -/

/-- A reader of the format of settings files: the settings in a text, or the reason why there are
none. -/
abbrev SettingsParser := String → Except String Settings

namespace Settings

def ofText (parse : SettingsParser) (text : String) : Except SettingsError Settings := do
  let settings ← (parse text).mapError .unparsable
  settings.validate
  return settings

def ofFile (parse : SettingsParser) (read : FileReader) (path : String) :
    Except SettingsError Settings := do
  ofText parse (← (read path >>= decodeText).mapError (.unreadable path))

/-- Settings from a file, or the defaults, with the environment on top. -/
def load (parse : SettingsParser) (read : FileReader) (env : Environment) (path? : Option String) :
    Except SettingsError Settings := do
  let file ← match path? with
    | some path => ofFile parse read path
    | none => pure {}
  let settings ← (file.withEnvironment env.text?).mapError .invalid
  settings.validate
  return settings

end Settings

end PauliLowering
