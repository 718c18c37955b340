import PauliLowering.Command

/-!
The arguments of the command line.

Flags may stand before and after the name of a command. A value follows its option as the next
argument, after an equals sign, or, with a short option, at once. Short flags may be written
together. A separate value must not look like an option; only for the multiplier it may be a
negative number.
-/

namespace PauliLowering.Command

inductive ValueOption where
  | input
  | output
  | dialect
  | multiplier
  | threads
  | config
  deriving DecidableEq, Repr

namespace ValueOption

def ofShort? : Char → Option ValueOption
  | 'i' => some input
  | 'o' => some output
  | 'm' => some multiplier
  | 't' => some threads
  | 'c' => some config
  | _ => none

def ofLong? : String → Option ValueOption
  | "input" => some input
  | "output" => some output
  | "qasm-version" => some dialect
  | "multiplier" => some multiplier
  | "threads" => some threads
  | "config" => some config
  | _ => none

end ValueOption

/-- The options as read so far, with what else the arguments say. -/
structure Draft extends Options where
  input : Option String := none
  verbosity : Nat := 0

inductive Request where
  | lower (verbosity : Nat) (input : String) (options : Options)
  | about
  | version
  | help
  | refused

/-- Digits, then optionally a point and more digits, then optionally an exponent of digits only. -/
def isNumber (cs : List Char) : Bool :=
  let wholeRest := cs.dropWhile Char.isDigit
  let rest := match wholeRest with
    | '.' :: more => more.dropWhile Char.isDigit
    | _ => wholeRest
  cs.head?.any Char.isDigit &&
    match rest with
    | [] => true
    | mark :: digits => (mark == 'e' || mark == 'E') && !digits.isEmpty && digits.all Char.isDigit

/-- A separate argument that can be the value of an option. -/
def isValueOf (o : ValueOption) (arg : List Char) : Bool :=
  match arg with
  | '-' :: rest => rest.isEmpty || (o == .multiplier && isNumber rest)
  | _ => true

/-- A version number of 8 bits. A minus sign is possible before a zero only. -/
def readDialect? (cs : List Char) : Option Nat :=
  let (negative, digits) := Numeral.splitSign cs
  (Numeral.read? digits).filter fun n => if negative then n == 0 else n ≤ 255

namespace Draft

/-- Set a field that is not set yet. -/
def fresh {α : Type} (old new : Option α) (f : Option α → Draft) : Option Draft :=
  if old.isSome || new.isNone then none else some (f new)

/-- Give an option its value. A second value and a malformed number are refused. -/
def set (o : Draft) (option : ValueOption) (value : List Char) : Option Draft :=
  let text := some (String.ofList value)
  match option with
  | .input => fresh o.input text fun v => { o with input := v }
  | .output => fresh o.output text fun v => { o with output := v }
  | .dialect => fresh o.dialect (readDialect? value) fun v => { o with dialect := v }
  | .multiplier => fresh o.multiplier (Binary64.read? value) fun v => { o with multiplier := v }
  | .threads =>
    fresh o.threads (Numeral.readUpTo? Numeral.word value) fun v => { o with threads := v }
  | .config => fresh o.config text fun v => { o with config := v }

end Draft

/-- What one argument comes to: the options with it, and an option that waits for its value. -/
inductive Reading where
  | read (options : Draft) (waiting : Option ValueOption)
  | help
  | refused

def Reading.ofSet : Option Draft → Reading
  | some o => .read o none
  | none => .refused

/-- Short options written together. The characters after one that takes a value are its value. -/
def readShort (o : Draft) : List Char → Reading
  | [] => .read o none
  | c :: cs =>
    if c == 'v' then readShort { o with verbosity := o.verbosity + 1 } cs
    else if c == 'h' then .help
    else
      match ValueOption.ofShort? c, cs with
      | none, _ => .refused
      | some option, [] => .read o (some option)
      | some option, '=' :: value => .ofSet (o.set option value)
      | some option, value => .ofSet (o.set option value)

/-- A long option, with its value after an equals sign if there is one. -/
def readLong (o : Draft) (name : String) (value? : Option (List Char)) : Reading :=
  match name, value? with
  | "help", none => .help
  | "verbose", none => .read { o with verbosity := o.verbosity + 1 } none
  | "sequential", none =>
    if o.sequential then .refused else .read { o with sequential := true } none
  | _, _ =>
    match ValueOption.ofLong? name, value? with
    | none, _ => .refused
    | some option, none => .read o (some option)
    | some option, some value => .ofSet (o.set option value)

/-- The name of a long option and the value attached to it. -/
def splitLong (cs : List Char) : String × Option (List Char) :=
  let name := cs.takeWhile (· != '=')
  (String.ofList name, (cs.drop name.length).tail?)

def readArgument (o : Draft) (arg : List Char) : Reading :=
  match arg with
  | '-' :: '-' :: cs =>
    let (name, value?) := splitLong cs
    readLong o name value?
  | '-' :: c :: cs => readShort o (c :: cs)
  | _ => .refused

/-- All arguments after the name of the lowering command; two hyphens end the options. -/
def readOptions (o : Draft) (waiting : Option ValueOption) : List (List Char) → Reading
  | [] => if waiting.isSome then .refused else .read o none
  | arg :: args =>
    match waiting with
    | some option =>
      if isValueOf option arg then
        match o.set option arg with
        | some o => readOptions o none args
        | none => .refused
      else .refused
    | none =>
      if arg == ['-', '-'] then if args.isEmpty then .read o none else .refused
      else
        match readArgument o arg with
        | .read o waiting => readOptions o waiting args
        | other => other

/-- The count of the command's own flags, or of those before it if it has none. -/
def verbosityOf (before after : Nat) : Nat := if after = 0 then before else after

def requestLower (before : Nat) (args : List (List Char)) : Request :=
  match readOptions {} none args with
  | .read o _ =>
    match o.input with
    | some input => .lower (verbosityOf before o.verbosity) input o.toOptions
    | none => .refused
  | .help => .help
  | .refused => .refused

/-- The command that describes the program knows the common flags only. -/
def requestAbout : List (List Char) → Request
  | [] => .about
  | arg :: args =>
    match String.ofList arg with
    | "--verbose" => requestAbout args
    | "--help" => .help
    | "--" => if args.isEmpty then .about else .refused
    | _ =>
      match arg with
      | '-' :: c :: cs =>
        if (c :: cs).all (· == 'v') then requestAbout args
        else if ((c :: cs).dropWhile (· == 'v')).head? = some 'h' then .help
        else .refused
      | _ => .refused

/-- Flags in front of the command's name, up to that name. -/
def readRequest (verbosity : Nat) : List (List Char) → Request
  | [] => .refused
  | arg :: args =>
    match String.ofList arg with
    | "translate" => requestLower verbosity args
    | "version" => requestAbout args
    | "help" =>
      if args.isEmpty || args == ["translate".toList] || args == ["version".toList] then .help
      else .refused
    | "--verbose" => readRequest (verbosity + 1) args
    | "--version" => .version
    | "--help" => .help
    | _ =>
      match arg with
      | '-' :: cs =>
        match cs.dropWhile (· == 'v') with
        | [] => if cs.isEmpty then .refused else readRequest (verbosity + cs.length) args
        | 'V' :: _ => .version
        | 'h' :: _ => .help
        | _ => .refused
      | _ => .refused

def Request.ofArguments (args : List String) : Request := readRequest 0 (args.map String.toList)

def helpText : String :=
  "Usage: pauliq [-v...] translate -i <INPUT> [-o <OUTPUT>] [--qasm-version <NUMBER>]\n" ++
  "              [-m <MULTIPLIER>] [--sequential] [-t <THREADS>] [-c <CONFIG>]\n" ++
  "       pauliq [-v...] version\n       pauliq --version\n"

def Request.answer : Request → Report
  | .about => { stdout := aboutText }
  | .version => { stdout := "pauliq 0.3.0\n" }
  | .help => { stdout := helpText }
  | _ => { code := 2, stderr := ["error: invalid arguments", helpText] }

def run (host : Host) (tree : FileTree) (args : List String) : Report × FileTree :=
  match Request.ofArguments args with
  | .lower verbosity input o => runLower host tree verbosity input o
  | request => (request.answer, tree)

end PauliLowering.Command
