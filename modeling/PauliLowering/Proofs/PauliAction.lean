import Mathlib.Algebra.BigOperators.Ring.Finset
import Mathlib.Data.ZMod.Basic
import Mathlib.Tactic.Ring
import PauliLowering.Circuit
import PauliLowering.Support

/-!
Gates as conjugations of Pauli strings.

A Pauli string carries a power of the imaginary unit, so that strings can be multiplied; the signed
strings are those with the phases 0 and 2. The rotations act by a table, on the quarter turns alone,
and `cx` acts by the images of the operators on its control and on its target. `conjugate_mul` says
that conjugation respects products, so a gate is known by what it does to the generators.
-/

namespace PauliLowering

/-- The product of two operators, with the power of the imaginary unit in front of it. -/
def Pauli.times : Pauli → Pauli → ZMod 4 × Pauli
  | .I, p | p, .I => (0, p)
  | .X, .X | .Y, .Y | .Z, .Z => (0, .I)
  | .X, .Y => (1, .Z)
  | .Y, .Z => (1, .X)
  | .Z, .X => (1, .Y)
  | .Y, .X => (3, .Z)
  | .Z, .Y => (3, .X)
  | .X, .Z => (3, .Y)

/-- An operator on every qubit, times a power of the imaginary unit. -/
@[ext]
structure PauliString where
  phase : ZMod 4
  letter : Qubit → Pauli

namespace PauliString

/-- The operators with the sign `(-1) ^ negations`. -/
def signed (negations : Nat) (letter : Qubit → Pauli) : PauliString := ⟨2 * negations, letter⟩

/-- One operator on a qubit and the identity on all others, with the sign `(-1) ^ negations`. -/
def single (negations : Nat) (q : Qubit) (p : Pauli) : PauliString :=
  signed negations (Function.update (fun _ => .I) q p)

end PauliString

/-! ## The action of a gate -/

/-- The image of the operator on the qubit of a quarter turn. -/
def Gate.turn? : Gate → Pauli → Option (ZMod 4 × Pauli)
  | .rx .halfPi, .Y => some (0, .Z)
  | .rx .halfPi, .Z => some (2, .Y)
  | .rx .negHalfPi, .Y => some (2, .Z)
  | .rx .negHalfPi, .Z => some (0, .Y)
  | .ry .halfPi, .X => some (2, .Z)
  | .ry .halfPi, .Z => some (0, .X)
  | .ry .negHalfPi, .X => some (0, .Z)
  | .ry .negHalfPi, .Z => some (2, .X)
  | .rx .halfPi, p | .rx .negHalfPi, p | .ry .halfPi, p | .ry .negHalfPi, p => some (0, p)
  | _, _ => none

/-- The image under `cx` of an operator on the control, as operators on control and target. -/
def Pauli.throughControl : Pauli → Pauli × Pauli
  | .I => (.I, .I)
  | .X => (.X, .X)
  | .Y => (.Y, .X)
  | .Z => (.Z, .I)

/-- The image under `cx` of an operator on the target, as operators on control and target. -/
def Pauli.throughTarget : Pauli → Pauli × Pauli
  | .I => (.I, .I)
  | .X => (.I, .X)
  | .Y => (.Z, .Y)
  | .Z => (.Z, .Z)

/-- The image under `cx` of a pair of operators: the product of the images of the two. -/
def cxImage (control target : Pauli) : ZMod 4 × Pauli × Pauli :=
  let c := control.throughControl.1.times target.throughTarget.1
  let t := control.throughControl.2.times target.throughTarget.2
  (c.1 + t.1, c.2, t.2)

/-- Conjugation of a string by an instruction. It is not defined for a rotation by another angle
than a quarter turn, nor for operands that the gate is not made for. -/
def Instruction.conjugate (i : Instruction) (s : PauliString) : Option PauliString :=
  match i.gate, i.qubits with
  | .cx, [c, t] =>
    if c = t then none
    else
      let image := cxImage (s.letter c) (s.letter t)
      some ⟨s.phase + image.1,
        Function.update (Function.update s.letter c image.2.1) t image.2.2⟩
  | gate, [q] =>
    (gate.turn? (s.letter q)).map fun image =>
      ⟨s.phase + image.1, Function.update s.letter q image.2⟩
  | _, _ => none

/-- A string after the instructions in the order of their execution. -/
def PauliString.through (s : PauliString) : List Instruction → Option PauliString
  | [] => some s
  | i :: rest => (i.conjugate s).bind (·.through rest)

@[simp] theorem PauliString.through_nil (s : PauliString) : s.through [] = some s := rfl

theorem PauliString.through_append (s : PauliString) (first second : List Instruction) :
    s.through (first ++ second) = (s.through first).bind (·.through second) := by
  induction first generalizing s with
  | nil => rfl
  | cons i first ih =>
    rw [List.cons_append, through, through, Option.bind_assoc]
    congr 1
    funext r
    exact ih r

@[simp] theorem PauliString.through_singleton (s : PauliString) (i : Instruction) :
    s.through [i] = i.conjugate s := by
  cases h : i.conjugate s <;> simp [through, h]

theorem conjugate_rotation (gate : Gate) (q : Qubit) (s : PauliString) :
    (Instruction.mk gate [q]).conjugate s = (gate.turn? (s.letter q)).map fun image =>
      ⟨s.phase + image.1, Function.update s.letter q image.2⟩ := by
  cases gate <;> rfl

theorem conjugate_cx {c t : Qubit} (hne : c ≠ t) (s : PauliString) :
    (Instruction.cx c t).conjugate s = some
      ⟨s.phase + (cxImage (s.letter c) (s.letter t)).1,
        Function.update (Function.update s.letter c (cxImage (s.letter c) (s.letter t)).2.1) t
          (cxImage (s.letter c) (s.letter t)).2.2⟩ := by
  simp [Instruction.conjugate, Instruction.cx, hne]

/-! ## Conjugation respects products -/

instance : Fintype Qubit :=
  Fintype.ofEquiv (Fin 0x100000000)
    ⟨fun i => ⟨i, i.isLt⟩, fun q => ⟨q.index, q.index_lt⟩, fun _ => rfl, fun _ => rfl⟩

/-- The product of two strings, qubit by qubit. -/
instance : Mul PauliString where
  mul s t :=
    ⟨s.phase + t.phase + ∑ q, ((s.letter q).times (t.letter q)).1,
      fun q => ((s.letter q).times (t.letter q)).2⟩

theorem PauliString.mul_phase (s t : PauliString) :
    (s * t).phase = s.phase + t.phase + ∑ q, ((s.letter q).times (t.letter q)).1 := rfl

theorem PauliString.mul_letter (s t : PauliString) :
    (s * t).letter = fun q => ((s.letter q).times (t.letter q)).2 := rfl

theorem sum_update (f : Qubit → ZMod 4) (q : Qubit) (v : ZMod 4) :
    ∑ r, Function.update f q v r = ∑ r, f r + (v - f q) := by
  have hnew := Finset.sum_update_of_mem (Finset.mem_univ q) f v
  have hold := Finset.sum_update_of_mem (Finset.mem_univ q) f (f q)
  rw [Function.update_eq_self] at hold
  rw [hnew, hold]
  ring

theorem sum_times_update (f g : Qubit → Pauli) (q : Qubit) (a b : Pauli) :
    ∑ r, ((Function.update f q a r).times (Function.update g q b r)).1 =
      ∑ r, ((f r).times (g r)).1 + ((a.times b).1 - ((f q).times (g q)).1) := by
  rw [← sum_update]
  congr 1
  funext r
  exact Function.apply_update₂ (fun _ x y => (x.times y).1) f g q a b r

theorem letter_times_update (f g : Qubit → Pauli) (q : Qubit) (a b : Pauli) :
    (fun r => ((Function.update f q a r).times (Function.update g q b r)).2) =
      Function.update (fun r => ((f r).times (g r)).2) q (a.times b).2 := by
  funext r
  exact Function.apply_update₂ (fun _ x y => (x.times y).2) f g q a b r

theorem turn?_times {g : Gate} {a b : Pauli} {ia ib : ZMod 4 × Pauli}
    (ha : g.turn? a = some ia) (hb : g.turn? b = some ib) :
    g.turn? (a.times b).2 =
      some (ia.1 + ib.1 + (ia.2.times ib.2).1 - (a.times b).1, (ia.2.times ib.2).2) := by
  cases g with
  | rz angle => simp [Gate.turn?] at ha
  | cx => simp [Gate.turn?] at ha
  | rx angle =>
    cases angle with
    | term => simp [Gate.turn?] at ha
    | halfPi | negHalfPi =>
      cases a <;> cases b <;> obtain rfl := Option.some.inj ha <;>
        obtain rfl := Option.some.inj hb <;> decide
  | ry angle =>
    cases angle with
    | term => simp [Gate.turn?] at ha
    | halfPi | negHalfPi =>
      cases a <;> cases b <;> obtain rfl := Option.some.inj ha <;>
        obtain rfl := Option.some.inj hb <;> decide

theorem cxImage_times (a b a' b' : Pauli) :
    cxImage (a.times a').2 (b.times b').2 =
      ((cxImage a b).1 + (cxImage a' b').1 +
          ((cxImage a b).2.1.times (cxImage a' b').2.1).1 +
          ((cxImage a b).2.2.times (cxImage a' b').2.2).1 - (a.times a').1 - (b.times b').1,
        ((cxImage a b).2.1.times (cxImage a' b').2.1).2,
        ((cxImage a b).2.2.times (cxImage a' b').2.2).2) := by
  cases a <;> cases b <;> cases a' <;> cases b' <;> rfl

theorem rotation_mul {gate : Gate} {q : Qubit} {s t s' t' : PauliString}
    (hs : (Instruction.mk gate [q]).conjugate s = some s')
    (ht : (Instruction.mk gate [q]).conjugate t = some t') :
    (Instruction.mk gate [q]).conjugate (s * t) = some (s' * t') := by
  rw [conjugate_rotation, Option.map_eq_some_iff] at hs ht
  obtain ⟨is, hsturn, rfl⟩ := hs
  obtain ⟨it, htturn, rfl⟩ := ht
  rw [conjugate_rotation, PauliString.mul_letter, turn?_times hsturn htturn, Option.map_some,
    Option.some.injEq]
  apply PauliString.ext
  · simp only [PauliString.mul_phase, sum_times_update]
    ring
  · rw [PauliString.mul_letter, letter_times_update]

theorem cx_mul {c t : Qubit} (hne : c ≠ t) {r s r' s' : PauliString}
    (hr : (Instruction.cx c t).conjugate r = some r')
    (hs : (Instruction.cx c t).conjugate s = some s') :
    (Instruction.cx c t).conjugate (r * s) = some (r' * s') := by
  rw [conjugate_cx hne, Option.some.injEq] at hr hs
  subst hr
  subst hs
  rw [conjugate_cx hne, Option.some.injEq]
  apply PauliString.ext
  · simp only [PauliString.mul_phase, PauliString.mul_letter, sum_times_update, cxImage_times,
      Function.update_of_ne hne.symm]
    ring
  · simp only [PauliString.mul_letter, cxImage_times]
    rw [letter_times_update, letter_times_update]

/-- Conjugation by an instruction is multiplicative. -/
theorem conjugate_mul {i : Instruction} {s t s' t' : PauliString}
    (hs : i.conjugate s = some s') (ht : i.conjugate t = some t') :
    i.conjugate (s * t) = some (s' * t') := by
  obtain ⟨gate, qubits⟩ := i
  match qubits with
  | [] => cases gate <;> simp [Instruction.conjugate] at hs
  | [q] => exact rotation_mul hs ht
  | [c, d] =>
    cases gate with
    | cx =>
      by_cases hne : c = d
      · simp [Instruction.conjugate, hne] at hs
      · exact cx_mul hne hs ht
    | rx | ry | rz => simp [Instruction.conjugate] at hs
  | _ :: _ :: _ :: _ => cases gate <;> simp [Instruction.conjugate] at hs

end PauliLowering
