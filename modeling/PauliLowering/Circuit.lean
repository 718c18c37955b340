import PauliLowering.Hamiltonian

/-!
Circuits of the four gates that a term is lowered to. Instructions stand in the order in which they
are executed, and the text of a circuit is a block with one statement on each line.

Every qubit in the support of a term is turned from its basis to Z up to sign (X and Y go to minus
Z), the parity of the support is gathered on the pivot by a ladder of `cx` gates, the pivot is
rotated, and everything before the rotation is undone after it. The pivot's own change of basis is
the outermost step on either side.
-/

namespace PauliLowering

/-! ## Qubits -/

structure Qubit where
  index : Nat
  index_lt : index < 0x100000000
  deriving DecidableEq

namespace Qubit

/-- The qubit of a column: columns count from 1 and indices from 0. -/
def ofColumn? (column : Nat) : Option Qubit :=
  if h : 0 < column ∧ column ≤ 0x100000000 then some ⟨column - 1, by omega⟩ else none

def column (q : Qubit) : Nat := q.index + 1

/-- The qubit as an operand of a statement. -/
def name (q : Qubit) : String := s!"q[{q.index}]"

end Qubit

/-! ## Gates and instructions -/

inductive Angle where
  | halfPi
  | negHalfPi
  /-- The product of two numbers and a free parameter. -/
  | term (multiplier coefficient : Binary64) (parameter : Nat)
  deriving DecidableEq

inductive Gate where
  | rx (angle : Angle)
  | ry (angle : Angle)
  | rz (angle : Angle)
  | cx
  deriving DecidableEq

namespace Gate

def name : Gate → String
  | rx _ => "rx"
  | ry _ => "ry"
  | rz _ => "rz"
  | cx => "cx"

def angle? : Gate → Option Angle
  | rx a | ry a | rz a => some a
  | cx => none

def arity : Gate → Nat
  | cx => 2
  | _ => 1

end Gate

/-- A gate with its operands; the control of a `cx` comes first. -/
structure Instruction where
  gate : Gate
  qubits : List Qubit
  deriving DecidableEq

namespace Instruction

def rx (angle : Angle) (q : Qubit) : Instruction := ⟨.rx angle, [q]⟩

def ry (angle : Angle) (q : Qubit) : Instruction := ⟨.ry angle, [q]⟩

def rz (angle : Angle) (q : Qubit) : Instruction := ⟨.rz angle, [q]⟩

def cx (control target : Qubit) : Instruction := ⟨.cx, [control, target]⟩

def isEntangling (i : Instruction) : Bool := i.gate == .cx

end Instruction

/-- The gates of one term. The pivot carries the rotation about the term's angle. -/
structure Circuit where
  position : Nat
  pivot : Qubit
  instructions : List Instruction
  deriving DecidableEq

namespace Circuit

def size (c : Circuit) : Nat := c.instructions.length

def numEntangling (c : Circuit) : Nat := c.instructions.countP (·.isEntangling)

def touches (c : Circuit) (q : Qubit) : Bool := c.instructions.any (·.qubits.contains q)

end Circuit

/-! ## Blocks -/

/-- An angle as an expression; the parameter stays a reference. -/
def Angle.text : Angle → String
  | halfPi => "pi/2"
  | negHalfPi => "-pi/2"
  | term multiplier coefficient parameter =>
    s!"{multiplier.literal}*{coefficient.literal}*$[{parameter}]"

namespace Instruction

def operands (i : Instruction) : String := ", ".intercalate (i.qubits.map Qubit.name)

def text (i : Instruction) : String :=
  match i.gate.angle? with
  | some angle => s!"{i.gate.name}({angle.text}) {i.operands};"
  | none => s!"{i.gate.name} {i.operands};"

end Instruction

/-- The block opens with an empty line and a comment that names the line of the term. -/
def Circuit.block (c : Circuit) : String :=
  s!"\n// New operator from line {c.position}\n" ++
    String.join (c.instructions.map fun i => i.text ++ "\n")

/-! ## Synthesis -/

/-- A qubit in the support of a term, with the basis that acts on it. -/
structure Leg where
  basis : Basis
  qubit : Qubit
  deriving DecidableEq

namespace Leg

/-- The rotation that takes the basis to Z up to sign: X and Y go to minus Z. -/
def enter (l : Leg) : List Instruction :=
  match l.basis with
  | .X => [.ry .halfPi l.qubit]
  | .Y => [.rx .negHalfPi l.qubit]
  | .Z => []

/-- The rotation that undoes `enter`: it takes minus Z back to X or Y. -/
def leave (l : Leg) : List Instruction :=
  match l.basis with
  | .X => [.ry .negHalfPi l.qubit]
  | .Y => [.rx .halfPi l.qubit]
  | .Z => []

end Leg

namespace Circuit

/-- The legs of a support. A column without a qubit gives the error `outside`. -/
def legs (outside : TermError) (s : Support) : Except TermError (List Leg) :=
  s.columns.mapM fun (basis, column) =>
    match Qubit.ofColumn? column with
    | some qubit => .ok { basis, qubit }
    | none => .error outside

/-- The instructions around a central one. The leg taken up first stands next to the center. -/
def assemble (pivot : Qubit) (legs : List Leg) (center : Instruction) : List Instruction :=
  let pivotLegs := legs.filter (·.qubit == pivot)
  let ladder := legs.filter (·.qubit != pivot)
  let rising := ladder.reverse.flatMap fun l => l.enter ++ [.cx l.qubit pivot]
  let falling := ladder.flatMap fun l => .cx l.qubit pivot :: l.leave
  pivotLegs.flatMap Leg.enter ++ rising ++ center :: falling ++ pivotLegs.flatMap Leg.leave

def synthesize (t : Term) (s : Support) (numQubits : Nat) (multiplier : Binary64) :
    Except TermError Circuit :=
  match s.pivot? with
  | none => .error (.emptyOperator t.position)
  | some column =>
    let outside := .qubitOutOfRange t.position column numQubits
    if numQubits < column then .error outside
    else
      match Qubit.ofColumn? column with
      | none => .error outside
      | some pivot => do
        let center := .rz (.term multiplier t.coefficient t.parameter) pivot
        return ⟨t.position, pivot, assemble pivot (← legs outside s) center⟩

end Circuit

end PauliLowering
