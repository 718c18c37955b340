import PauliLowering.Support
import PauliLowering.Text

/-!
Terms, and Hamiltonians as lists of terms over one register.

A term is a Pauli string with a real coefficient and the index of a free parameter, at a position.
It is read from a line of three fields: Pauli string, coefficient, parameter. Anything after the
third field is ignored. The parameter is a whole number of at most 64 bits, read from left to right
as a signed number of 128 bits. A character that is no digit makes it invalid. A running value that
leaves the 128-bit range ends the reading at once, whatever follows, and counts as a number too
large or too small.
-/

namespace PauliLowering

/-! ## Terms -/

/-- The fields that a term is made from. The parameter 0 is a short form for the term's own
position, so a term never has it. -/
@[ext]
structure Term where
  position : Nat
  symbols : String
  coefficient : Binary64
  parameter : Nat
  position_pos : 0 < position
  symbols_nonempty : symbols ≠ ""
  coefficient_finite : coefficient.isFinite = true
  coefficient_nonzero : coefficient.isZero = false
  parameter_pos : 0 < parameter
  deriving DecidableEq

namespace Term

/-- A term from its fields, in which the parameter 0 stands for the position. The checks run in the
order of the fields. -/
def make (position : Nat) (symbols : String) (coefficient : Binary64) (parameter : Nat) :
    Except TermError Term :=
  if hp : position = 0 then .error (.wrongFormat position .positionZero)
  else if hs : symbols = "" then .error (.wrongFormat position .noSymbols)
  else if hf : coefficient.isFinite = false then
    .error (.wrongFormat position (.notFinite coefficient))
  else if hz : coefficient.isZero = true then .error (.zeroCoefficient position)
  else .ok {
    position, symbols, coefficient
    parameter := if parameter = 0 then position else parameter
    position_pos := Nat.pos_of_ne_zero hp
    symbols_nonempty := hs
    coefficient_finite := by simpa using hf
    coefficient_nonzero := by simpa using hz
    parameter_pos := by split <;> omega }

def numSymbols (t : Term) : Nat := t.symbols.length

/-- A term with its own position as parameter shares it with no earlier term. -/
def isIndependent (t : Term) : Bool := t.parameter == t.position

def support (t : Term) : Except TermError Support := Support.ofSymbols t.position t.symbols

/-! ## The parameter field -/

/-- How reading the digits of a whole number can end early. -/
inductive DigitFault where
  | invalid
  | above
  | below
  deriving DecidableEq, Repr

/-- Read on from a running value whose sign is given. -/
def readDigits (negative : Bool) (value : Int) : List Char → Except DigitFault Int
  | [] => .ok value
  | c :: cs =>
    if !c.isDigit then .error .invalid
    else
      let digit : Int := Numeral.value [c]
      let next := if negative then value * 10 - digit else value * 10 + digit
      if 0x7FFFFFFFFFFFFFFFFFFFFFFFFFFFFFFF < next then .error .above
      else if next < -0x80000000000000000000000000000000 then .error .below
      else readDigits negative next cs

/-- A signed number of 128 bits; a sign alone is invalid. -/
def readSigned (field : List Char) : Except DigitFault Int :=
  let (negative, digits) := Numeral.splitSign field
  if digits.isEmpty then .error .invalid else readDigits negative 0 digits

def readParameter (position : Nat) (field : List Char) : Except TermError Nat :=
  let text := String.ofList field
  match readSigned field with
  | .ok value =>
    if value < 0 then .error (.negativeParameter position text)
    else if Numeral.word < value.toNat then .error (.parameterOutOfBounds position text)
    else .ok value.toNat
  | .error .above => .error (.parameterOutOfBounds position text)
  | .error .below => .error (.negativeParameter position text)
  | .error .invalid => .error (.wrongFormat position (.invalidParameter text))

/-! ## Lines -/

/-- The term on a line. Missing and malformed fields are reported from left to right. -/
def read (position : Nat) (line : List Char) : Except TermError Term :=
  let malformed := fun fault => Except.error (.wrongFormat position fault)
  match Text.fields line with
  | [] => malformed .missingSymbols
  | [_] => malformed .missingCoefficient
  | symbols :: coefficient :: rest =>
    match Binary64.read? coefficient, rest with
    | none, _ => malformed (.invalidCoefficient (String.ofList coefficient))
    | some _, [] => malformed .missingParameter
    | some value, parameter :: _ => do
      make position (String.ofList symbols) value (← readParameter position parameter)

end Term

/-! ## Hamiltonians -/

structure Hamiltonian where
  numQubits : Nat
  terms : List Term
  deriving DecidableEq

namespace Hamiltonian

/-- No terms, and no register yet. -/
def empty : Hamiltonian := ⟨0, []⟩

/-- Terms over a register of the given size; their lengths are not compared with it. -/
def withRegister (numQubits : Nat) (terms : List Term) : Hamiltonian := ⟨numQubits, terms⟩

/-- Append a term. The first term fixes the register size, and every later one must have as many
symbols. -/
def push (h : Hamiltonian) (t : Term) : Except TermError Hamiltonian :=
  if h.terms.isEmpty then .ok ⟨t.numSymbols, [t]⟩
  else if t.numSymbols ≠ h.numQubits then
    .error (.lengthMismatch t.position h.numQubits t.numSymbols)
  else .ok ⟨h.numQubits, h.terms ++ [t]⟩

def ofTerms (terms : List Term) : Except TermError Hamiltonian := terms.foldlM push empty

/-- Read and push the lines that start at the given position. -/
def pushLines (h : Hamiltonian) (position : Nat) : List (List Char) → Except TermError Hamiltonian
  | [] => .ok h
  | line :: rest => do
    let t ← Term.read position line
    pushLines (← h.push t) (position + 1) rest

/-- The Hamiltonian with one term on each line of a text; the position of a term is its line number.
-/
def read (text : String) : Except TermError Hamiltonian :=
  empty.pushLines 1 (Text.lines text.toList)

end Hamiltonian

end PauliLowering
