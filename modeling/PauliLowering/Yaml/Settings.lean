import PauliLowering.Settings
import PauliLowering.Yaml.Document

/-!
Settings from a YAML text.

The text is one document, a mapping from names of settings to scalars. Names that are no setting are
passed over with their values. The entries are read in their order up to the first bad one, and a
version number that there is not is the only reason that is reported. Only after the entries it
counts whether the rest of the text is well-formed.
-/

namespace PauliLowering.Settings

open Yaml (Scalar Item Document)

def Field.ofName? (name : List Char) : Option Field :=
  match String.ofList name with
  | "qasm_version" => some .dialect
  | "angle_multiplier" => some .angleMultiplier
  | "execution" => some .execution
  | "threads" => some .threads
  | _ => none

/-! ## Values -/

/-- Digits of the given base, at least one. -/
def readBase? (base : Nat) (cs : List Char) : Option Nat :=
  if cs.isEmpty then none
  else
    cs.foldlM (fun n c => ((Yaml.hexDigit? c).filter (· < base)).map (base * n + ·)) 0

/-- An unsigned number of 64 bits, written in decimal without leading zeros or in base 16, 8 or 2
after a mark. -/
def readCount? (cs : List Char) : Option Nat :=
  let digits := match cs with
    | '+' :: rest => rest
    | _ => cs
  let value? := match digits with
    | '0' :: 'x' :: rest => readBase? 16 rest
    | '0' :: 'o' :: rest => readBase? 8 rest
    | '0' :: 'b' :: rest => readBase? 2 rest
    | '0' :: _ :: _ => none
    | _ => Numeral.read? digits
  value?.filter (· ≤ Numeral.word)

/-- A real number. A decimal must not be too large for the format, and the values that are not
finite are written with a point in front. -/
def readReal? (cs : List Char) : Option Binary64 :=
  match String.ofList cs with
  | ".inf" | ".Inf" | ".INF" | "+.inf" | "+.Inf" | "+.INF" => some (.infinity false)
  | "-.inf" | "-.Inf" | "-.INF" => some (.infinity true)
  | ".nan" | ".NaN" | ".NAN" => some .nan
  | _ => (Binary64.read? cs).filter Binary64.isFinite

def isNull (cs : List Char) : Bool := ["", "~", "null", "Null", "NULL"].contains (String.ofList cs)

/-- Numbers are plain scalars, or literal ones with the tag of their kind. -/
def isNumberLike (s : Scalar) (kind : String) : Bool :=
  s.style == .plain || (s.style == .literal && s.tag == some ("tag:yaml.org,2002:" ++ kind).toList)

def readCount (s : Scalar) : Option Nat :=
  if isNumberLike s "int" then readCount? s.text else none

def readReal (s : Scalar) : Option Binary64 :=
  if isNumberLike s "float" then readReal? s.text else none

/-- The number of workers, where null means none given. -/
def readThreads (s : Scalar) : Option (Option Nat) :=
  if s.style == .plain && s.tag.isNone && isNull s.text then some none
  else if s.style == .plain && s.tag == some "tag:yaml.org,2002:null".toList then
    if isNull s.text && !s.text.isEmpty then some none else none
  else (readCount s).map some

def executionNamed? (name : List Char) : Option Execution :=
  match String.ofList name with
  | "parallel" => some .parallel
  | "sequential" => some .sequential
  | _ => none

/-- The execution mode is a scalar's text, or the name of a tag on a null. -/
def readExecution (s : Scalar) : Option Execution :=
  match s.tag with
  | some ('!' :: name) =>
    if s.style == .plain && isNull s.text then executionNamed? name else none
  | _ => executionNamed? s.text

def set (s : Settings) (field : Field) (value : Scalar) : Except (Option Dialect.Fault) Settings :=
  let known {α : Type} (value? : Option α) (f : α → Settings) :
      Except (Option Dialect.Fault) Settings :=
    match value? with
    | some v => .ok (f v)
    | none => .error none
  match field with
  | .dialect =>
    match (readCount value).filter (· ≤ 255) with
    | none => .error none
    | some number =>
      match Dialect.ofNumber number with
      | .ok dialect => .ok { s with dialect }
      | .error fault => .error (some fault)
  | .angleMultiplier => known (readReal value) fun angleMultiplier => { s with angleMultiplier }
  | .execution => known (readExecution value) fun execution => { s with execution }
  | .threads => known (readThreads value) fun threads => { s with threads }

/-! ## Entries -/

inductive Slot where
  | name
  | value (field : Field)
  /-- Part of a value that is passed over, inside so many sequences and mappings. -/
  | ignored (depth : Nat)
  deriving DecidableEq, Repr

/-- The slot after an item of a value that is passed over. -/
def Slot.after (depth : Nat) : Item → Slot
  | .sequenceStart | .mappingStart => ignored (depth + 1)
  | .sequenceEnd | .mappingEnd => if depth ≤ 1 then name else ignored (depth - 1)
  | _ => if depth = 0 then name else ignored depth

/-- Read the entries of a mapping up to its end. No field may come twice. -/
def readEntries (s : Settings) (seen : List Field) :
    Slot → List Item → Except (Option Dialect.Fault) Settings
  | _, [] => .error none
  | .ignored depth, item :: items => readEntries s seen (Slot.after depth item) items
  | .value field, .scalar value :: items => do
    readEntries (← s.set field value) seen .name items
  | .name, .mappingEnd :: _ => .ok s
  | .name, .scalar name :: items =>
    match Field.ofName? name.text with
    | none => readEntries s seen (.ignored 0) items
    | some field =>
      if seen.contains field then .error none
      else readEntries s (field :: seen) (.value field) items
  | _, _ => .error none

/-- The settings in a document. One without content leaves all settings at their defaults. -/
def ofDocument (d : Document) : Except (Option Dialect.Fault) Settings := do
  let settings ← match d.items with
    | [] => if d.complete then pure {} else throw none
    | .mappingStart :: items => readEntries {} [] .name items
    | .scalar value :: _ =>
      if value.text.isEmpty && value.style == .plain then pure {} else throw none
    | _ => throw none
  if d.complete && d.single then return settings else throw none

def parseYaml : SettingsParser :=
  fun text => (ofDocument (Yaml.document text.toList)).mapError fun fault? =>
    (fault?.map Dialect.Fault.message).getD ""

end PauliLowering.Settings
