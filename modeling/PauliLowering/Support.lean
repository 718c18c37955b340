import PauliLowering.Number

/-!
Pauli operators, the faults of a term, and the support of a Pauli string: for each basis the columns
of the string that act in it.

Columns count from 1. In a support made by `ofSymbols` or `ofGroups` each group is strictly
ascending and no column is in two groups, and the queries below rely on that: `pivot?` looks at the
last column of each group only, and `basisOf?` gives up a search at the first larger column.
-/

namespace PauliLowering

/-! ## Operators -/

inductive Pauli where
  | I | X | Y | Z
  deriving DecidableEq, Repr

/-- The basis of an operator other than the identity. -/
inductive Basis where
  | X | Y | Z
  deriving DecidableEq, Repr

namespace Pauli

def symbol : Pauli → Char
  | I => 'I'
  | X => 'X'
  | Y => 'Y'
  | Z => 'Z'

/-- Only the four upper-case letters write an operator. -/
def ofSymbol? : Char → Option Pauli
  | 'I' => some I
  | 'X' => some X
  | 'Y' => some Y
  | 'Z' => some Z
  | _ => none

def basis? : Pauli → Option Basis
  | I => none
  | X => some .X
  | Y => some .Y
  | Z => some .Z

end Pauli

namespace Basis

/-- The bases in the order in which a term's columns are taken up. -/
def all : List Basis := [X, Y, Z]

def pauli : Basis → Pauli
  | X => .X
  | Y => .Y
  | Z => .Z

def symbol (b : Basis) : Char := b.pauli.symbol

def name (b : Basis) : String := b.symbol.toString

end Basis

/-! ## Faults of a term -/

inductive GroupingFault where
  | tooMany (count : Nat)
  | repeated (basis : Basis)
  | columnZero (basis : Basis)
  | unordered (basis : Basis)
  | shared (column : Nat) (basis other : Basis)
  deriving DecidableEq

def GroupingFault.message : GroupingFault → String
  | tooMany count => s!"{count} basis groupings, at most 3 allowed"
  | repeated basis => s!"basis {basis.name} listed twice"
  | columnZero basis => s!"basis {basis.name} lists column 0"
  | unordered basis => s!"basis {basis.name} is not strictly ascending"
  | shared column basis other => s!"column {column} appears in bases {basis.name} and {other.name}"

inductive FormatFault where
  | missingSymbols
  | missingCoefficient
  | invalidCoefficient (field : String)
  | missingParameter
  | invalidParameter (field : String)
  | positionZero
  | noSymbols
  | notFinite (coefficient : Binary64)
  deriving DecidableEq

def FormatFault.message : FormatFault → String
  | missingSymbols => "missing Pauli string"
  | missingCoefficient => "missing coefficient"
  | invalidCoefficient field => s!"invalid coefficient '{field}'"
  | missingParameter => "missing parameter"
  | invalidParameter field => s!"invalid parameter '{field}'"
  | positionZero => "positions start at 1"
  | noSymbols => "no operator provided"
  | notFinite coefficient => s!"coefficient {coefficient.literal} is not finite"

inductive TermError where
  | unsupportedSymbol (position : Nat) (symbol : Char) (column : Nat)
  | emptyOperator (position : Nat)
  | invalidGrouping (position : Nat) (fault : GroupingFault)
  | qubitOutOfRange (position column numQubits : Nat)
  | lengthMismatch (position expected got : Nat)
  | zeroCoefficient (position : Nat)
  | negativeParameter (position : Nat) (field : String)
  | parameterOutOfBounds (position : Nat) (field : String)
  | wrongFormat (position : Nat) (fault : FormatFault)
  deriving DecidableEq

namespace TermError

def position : TermError → Nat
  | unsupportedSymbol p _ _ | emptyOperator p | invalidGrouping p _ | qubitOutOfRange p _ _
  | lengthMismatch p _ _ | zeroCoefficient p | negativeParameter p _ | parameterOutOfBounds p _
  | wrongFormat p _ => p

def reason : TermError → String
  | unsupportedSymbol _ symbol column => s!"unsupported Pauli symbol '{symbol}' at column {column}"
  | emptyOperator _ => "operator acts on no qubit"
  | invalidGrouping _ fault => s!"invalid basis grouping: {fault.message}"
  | qubitOutOfRange _ column numQubits =>
    s!"qubit {column} is outside a register of {numQubits} qubits"
  | lengthMismatch _ expected got => s!"Pauli string has {got} symbols, expected {expected}"
  | zeroCoefficient _ => "zero coefficient"
  | negativeParameter _ field => s!"negative parameter {field}"
  | parameterOutOfBounds _ field => s!"parameter {field} out of bounds"
  | wrongFormat _ fault => s!"wrong format: {fault.message}"

def message (e : TermError) : String := s!"line {e.position}: {e.reason}"

end TermError

/-! ## Supports -/

structure Support where
  x : List Nat := []
  y : List Nat := []
  z : List Nat := []
  deriving DecidableEq, Repr

namespace Support

def group (s : Support) : Basis → List Nat
  | .X => s.x
  | .Y => s.y
  | .Z => s.z

/-- All columns with their bases, the bases in their fixed order and each group as it stands. -/
def columns (s : Support) : List (Basis × Nat) :=
  Basis.all.flatMap fun b => (s.group b).map (b, ·)

/-- Put a column in front of the group of an operator; the identity belongs to none. -/
def cons (s : Support) (column : Nat) : Pauli → Support
  | .I => s
  | .X => { s with x := column :: s.x }
  | .Y => { s with y := column :: s.y }
  | .Z => { s with z := column :: s.z }

/-- The support of the symbols that start at the given column. -/
def ofSymbolsFrom (position column : Nat) : List Char → Except TermError Support
  | [] => .ok {}
  | c :: cs =>
    match Pauli.ofSymbol? c with
    | none => .error (.unsupportedSymbol position c column)
    | some p => (ofSymbolsFrom position (column + 1) cs).map (·.cons column p)

/-- The support of a Pauli string. The first symbol that writes no operator is an error of the term
at `position`. -/
def ofSymbols (position : Nat) (symbols : String) : Except TermError Support :=
  ofSymbolsFrom position 1 symbols.toList

/-- The search for a column in an ascending list. -/
def searchAscending (column : Nat) : List Nat → Bool
  | [] => false
  | c :: cs => if c < column then searchAscending column cs else c == column

def isAscending : List Nat → Bool
  | c :: d :: cs => c < d && isAscending (d :: cs)
  | _ => true

/-- The basis that acts on a column. -/
def basisOf? (s : Support) (column : Nat) : Option Basis :=
  Basis.all.find? fun b => searchAscending column (s.group b)

/-- The highest column that any basis acts on; the identity has none. -/
def pivot? (s : Support) : Option Nat :=
  (Basis.all.filterMap fun b => (s.group b).getLast?).max?

def size (s : Support) : Nat := s.x.length + s.y.length + s.z.length

def isIdentity (s : Support) : Bool := s.size == 0

/-- The Pauli string of the support, filled with identities up to `numQubits` or the pivot. -/
def toSymbols (s : Support) (numQubits : Nat) : String :=
  let blank := List.replicate (max numQubits (s.pivot?.getD 0)) Pauli.I.symbol
  String.ofList (s.columns.foldl (fun cs (b, column) => cs.set (column - 1) b.symbol) blank)

/-! ## Lists of columns -/

/-- The first fault of a single list, given the bases of the lists before it. -/
def listFault? (seen : List Basis) : List (Basis × List Nat) → Option GroupingFault
  | [] => none
  | (b, columns) :: rest =>
    if seen.contains b then some (.repeated b)
    else if columns.contains 0 then some (.columnZero b)
    else if !isAscending columns then some (.unordered b)
    else listFault? (b :: seen) rest

def listedFor (groups : List (Basis × List Nat)) (b : Basis) : List Nat :=
  ((groups.find? fun g => g.1 == b).map (·.2)).getD []

/-- The first column of one basis that the other acts on as well. -/
def sharedColumn? (s : Support) (b other : Basis) : Option GroupingFault :=
  ((s.group b).find? fun c => searchAscending c (s.group other)).map (.shared · b other)

def sharedFault? (s : Support) : Option GroupingFault :=
  s.sharedColumn? .X .Y <|> s.sharedColumn? .X .Z <|> s.sharedColumn? .Y .Z

/-- The support with the listed columns, if the lists are consistent. -/
def ofGroups (position : Nat) (groups : List (Basis × List Nat)) : Except TermError Support :=
  let s : Support := ⟨listedFor groups .X, listedFor groups .Y, listedFor groups .Z⟩
  let tooMany? := if 3 < groups.length then some (.tooMany groups.length) else none
  match tooMany? <|> listFault? [] groups <|> s.sharedFault? with
  | some fault => .error (.invalidGrouping position fault)
  | none => .ok s

end Support

end PauliLowering
