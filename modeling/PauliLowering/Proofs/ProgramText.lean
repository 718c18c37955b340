import PauliLowering.Proofs.SettingsLayers
import PauliLowering.Proofs.TermLines
import PauliLowering.Proofs.TermRecovery

/-!
A program determines the Hamiltonian that it was lowered from.

Terms that were read stand in ascending order of position and have as many symbols as the register
has qubits (`Numbered.read`), so a program is its header and the blocks of the terms in their order
(`exists_circuits`). The header tells the dialect and the register (`header_inj`), and each block
its term.
-/

namespace PauliLowering

/-! ## The blocks of a program -/

section Lowers

variable {numQubits : Nat} {multiplier : Binary64} {terms : List Term}
  {lowered : List (Term × Circuit)}

theorem Lowers.finite (h : Lowers numQubits multiplier terms lowered)
    (finite : multiplier.isFinite = true) : ∀ c ∈ lowered.map Prod.snd, c.Finite := by
  intro c hc
  obtain ⟨p, hp, rfl⟩ := List.mem_map.mp hc
  exact Term.circuit_finite (h.circuit p hp) finite

end Lowers

/-- A program is its header and the blocks of the terms in their order. -/
theorem exists_circuits {settings : Settings} {h : Hamiltonian} {text : String}
    (valid : settings.validate = .ok ())
    (ascending : h.terms.Pairwise fun t u => t.position < u.position)
    (written : h.Outcome settings (.ok text)) :
    ∃ lowered, Lowers h.numQubits settings.angleMultiplier h.terms lowered ∧
      text.toList = (settings.dialect.header h.numQubits).toList ++
        lowered.flatMap fun p => p.2.block.toList := by
  obtain ⟨lowered, hlowers, rfl⟩ := (written.eq_ok_iff_of_ascending valid ascending).mp rfl
  refine ⟨lowered, hlowers, ?_⟩
  simp [String.toList_join, List.flatMap_map]

/-! ## The header -/

namespace Dialect

def beforeSize : Dialect → String
  | qasm2 => "0;\ninclude \"qelib1.inc\";\nqreg q["
  | qasm3 => "0;\ninclude \"stdgates.inc\";\nqubit["

/-- The header from the first bracket on that closes a size. -/
def afterSize (n : Nat) : Dialect → String
  | qasm2 => ";\ncreg c[" ++ n.repr ++ "];\n"
  | qasm3 => " q;\nbit[" ++ n.repr ++ "] c;\n"

theorem header_eq (d : Dialect) (n : Nat) : d.header n =
    "OPENQASM " ++ d.number.repr ++ "." ++ d.beforeSize ++ n.repr ++ "]" ++ d.afterSize n := by
  cases d with
  | qasm2 =>
    have hopening : "OPENQASM 2.0;\ninclude \"qelib1.inc\";\nqreg q[" =
        "OPENQASM " ++ qasm2.number.repr ++ "." ++ qasm2.beforeSize := by decide
    have hmiddle : "];\ncreg c[" = "]" ++ ";\ncreg c[" := by decide
    have hheader : qasm2.header n = "OPENQASM 2.0;\ninclude \"qelib1.inc\";\nqreg q[" ++ n.repr ++
        "];\ncreg c[" ++ n.repr ++ "];\n" := rfl
    rw [hheader, hopening, hmiddle]
    simp only [afterSize, String.append_assoc]
  | qasm3 =>
    have hopening : "OPENQASM 3.0;\ninclude \"stdgates.inc\";\nqubit[" =
        "OPENQASM " ++ qasm3.number.repr ++ "." ++ qasm3.beforeSize := by decide
    have hmiddle : "] q;\nbit[" = "]" ++ " q;\nbit[" := by decide
    have hheader : qasm3.header n = "OPENQASM 3.0;\ninclude \"stdgates.inc\";\nqubit[" ++ n.repr ++
        "] q;\nbit[" ++ n.repr ++ "] c;\n" := rfl
    rw [hheader, hopening, hmiddle]
    simp only [afterSize, String.append_assoc]

theorem header_inj {d d' : Dialect} {n n' : Nat} {r r' : List Char}
    (same : (d.header n).toList ++ r = (d'.header n').toList ++ r') : d = d' ∧ n = n' ∧ r = r' := by
  have htext : ∀ (d : Dialect) (n : Nat) (r : List Char), (d.header n).toList ++ r =
      "OPENQASM ".toList ++ (Numeral.digits d.number ++ '.' :: (d.beforeSize.toList ++
        (Numeral.digits n ++ ']' :: ((d.afterSize n).toList ++ r)))) := by
    intro d n r
    simp [header_eq, Numeral.digits]
  rw [htext, htext] at same
  obtain ⟨hnumber, hrest⟩ := append_sep_inj (Numeral.notMem_digits (by decide) _)
    (Numeral.notMem_digits (by decide) _) (List.append_cancel_left same)
  obtain rfl : d = d' := by
    cases d <;> cases d' <;> first | rfl | cases Numeral.digits_injective hnumber
  obtain ⟨hsize, hrest⟩ := append_sep_inj (Numeral.notMem_digits (by decide) _)
    (Numeral.notMem_digits (by decide) _) (List.append_cancel_left hrest)
  obtain rfl := Numeral.digits_injective hsize
  exact ⟨rfl, rfl, List.append_cancel_left hrest⟩

end Dialect

/-! ## The program -/

theorem Lowers.eq_of_blocks {numQubits : Nat} {multiplier multiplier' : Binary64}
    {terms terms' : List Term} {lowered lowered' : List (Term × Circuit)}
    (h : Lowers numQubits multiplier terms lowered)
    (h' : Lowers numQubits multiplier' terms' lowered')
    (uniform : ∀ t ∈ terms, t.numSymbols = numQubits)
    (uniform' : ∀ t ∈ terms', t.numSymbols = numQubits)
    (same : (lowered.map fun p => (p.2.position, p.2.instructions)) =
      lowered'.map fun p => (p.2.position, p.2.instructions)) :
    terms = terms' ∧ (terms ≠ [] → multiplier = multiplier') := by
  obtain ⟨rfl, hcircuit⟩ := h
  obtain ⟨rfl, hcircuit'⟩ := h'
  induction lowered generalizing lowered' with
  | nil => cases lowered' with
    | nil => exact ⟨rfl, fun hne => absurd rfl hne⟩
    | cons p' rest' => simp at same
  | cons p rest ih => cases lowered' with
    | nil => simp at same
    | cons p' rest' =>
      simp only [List.map_cons, List.cons.injEq, Prod.mk.injEq] at same
      obtain ⟨⟨hposition, hinstructions⟩, hrest⟩ := same
      simp only [List.map_cons, List.forall_mem_cons] at uniform uniform' hcircuit hcircuit' ⊢
      obtain ⟨hterm, hmultiplier⟩ := Term.eq_of_circuit hcircuit.1 hcircuit'.1
        (uniform.1.trans uniform'.1.symm) hposition hinstructions
      obtain ⟨hterms, _⟩ := ih hrest hcircuit.2 uniform.2 hcircuit'.2 uniform'.2
      exact ⟨by rw [hterm, hterms], fun _ => hmultiplier⟩

/-- **No information is lost.** Two Hamiltonians that were read and are lowered to the same program,
each under valid settings of its own and under any schedule, have the same dialect, the same
register and the same terms, and if there are terms at all also the same multiplier. -/
theorem program_determines_input {input input' : String} {h h' : Hamiltonian}
    {settings settings' : Settings} {text : String} (hread : Hamiltonian.read input = .ok h)
    (hread' : Hamiltonian.read input' = .ok h') (valid : settings.validate = .ok ())
    (valid' : settings'.validate = .ok ()) (written : h.Outcome settings (.ok text))
    (written' : h'.Outcome settings' (.ok text)) :
    settings.dialect = settings'.dialect ∧ h.numQubits = h'.numQubits ∧ h.terms = h'.terms ∧
      (h.terms ≠ [] → settings.angleMultiplier = settings'.angleMultiplier) := by
  obtain ⟨_, hnumbered⟩ := Numbered.read hread
  obtain ⟨_, hnumbered'⟩ := Numbered.read hread'
  obtain ⟨lowered, hlowers, htext⟩ := exists_circuits valid hnumbered.ascending written
  obtain ⟨lowered', hlowers', htext'⟩ := exists_circuits valid' hnumbered'.ascending written'
  obtain ⟨hdialect, hregister, hblocks⟩ := Dialect.header_inj (htext.symm.trans htext')
  rw [← hregister] at hlowers'
  have hfinite := (Settings.validate_eq_ok.mp valid).finite
  have hfinite' := (Settings.validate_eq_ok.mp valid').finite
  have hsame := Circuit.blocks_inj (hlowers.finite hfinite) (hlowers'.finite hfinite')
    (by simpa [List.flatMap_map] using hblocks)
  rw [List.map_map, List.map_map] at hsame
  obtain ⟨hterms, hmultiplier⟩ := hlowers.eq_of_blocks hlowers' hnumbered.uniform
    (by rw [hregister]; exact hnumbered'.uniform) hsame
  exact ⟨hdialect, hregister, hterms, hmultiplier⟩

def xzTerm : Term := .first "XZ" (by decide)

def xzProgram : String :=
  "OPENQASM 2.0;\ninclude \"qelib1.inc\";\nqreg q[2];\ncreg c[2];\n" ++
  "\n// New operator from line 1\nry(pi/2) q[0];\ncx q[0], q[1];\nrz(0.5*0.5*$[1]) q[1];\n" ++
  "cx q[0], q[1];\nry(-pi/2) q[0];\n"

theorem program_determines_input_xz :
    ∃ h h', Hamiltonian.read "XZ 0.5 0" = .ok h ∧ Hamiltonian.read "XZ 5e-1 1 note" = .ok h' ∧
      Settings.validate {} = .ok () ∧ Settings.validate { execution := .sequential } = .ok () ∧
      h.Outcome {} (.ok xzProgram) ∧ h'.Outcome { execution := .sequential } (.ok xzProgram) ∧
      h.terms = h'.terms ∧ h.terms ≠ [] := by
  have hread : Hamiltonian.read "XZ 0.5 0" = .ok ⟨2, [xzTerm]⟩ :=
    toOption_eq_some.mp (by decide +kernel)
  have hread' : Hamiltonian.read "XZ 5e-1 1 note" = .ok ⟨2, [xzTerm]⟩ :=
    toOption_eq_some.mp (by decide +kernel)
  have hprogram : (Hamiltonian.mk 2 [xzTerm]).program {} = .ok xzProgram :=
    toOption_eq_some.mp (by decide +kernel)
  have hprogram' : (Hamiltonian.mk 2 [xzTerm]).program { execution := .sequential } =
      .ok xzProgram := toOption_eq_some.mp (by decide +kernel)
  have hwritten : (Hamiltonian.mk 2 [xzTerm]).Outcome {} (.ok xzProgram) := hprogram ▸ .direct
  have hwritten' : (Hamiltonian.mk 2 [xzTerm]).Outcome { execution := .sequential }
      (.ok xzProgram) := hprogram' ▸ .direct
  obtain ⟨_, _, hterms, _⟩ := program_determines_input hread hread' rfl rfl hwritten hwritten'
  exact ⟨_, _, hread, hread', rfl, rfl, hwritten, hwritten', hterms, List.cons_ne_nil _ _⟩

end PauliLowering
