import Mathlib.Data.List.DropRight
import PauliLowering.Command.Host
import PauliLowering.Proofs.ProgramOrder
import PauliLowering.Proofs.SettingsLayers

/-!
What a call of the command line does to the files and to the output stream.

A write puts one file in its place and no directory out of it, so paths lead to the same places as
before and the file is found again (`FileTree.write_eq_ok`, `FileTree.read_insert`). A call prepares
its program before it writes anything (`Command.prepare_program_iff`), so it either delivers the
whole program or has no effect but its lines on the error stream.
-/

namespace PauliLowering

/-! ## Paths -/

namespace FileTree

def locate (t : FileTree) (path : String) : Except FileFault Path :=
  (path.splitOn "/").foldlM t.follow (t.start (path.splitOn "/"))

variable {t t' : FileTree}

theorem enter_eq_ok {p : Path} : t.enter p = .ok () ↔ t.entry? p = some .directory := by
  unfold enter
  split <;> simp_all

theorem follow_of_directory {p : Path} {name : String} (directory : t.entry? p = some .directory)
    (nonempty : name ≠ "") (dot : name ≠ ".") (dots : name ≠ "..") :
    t.follow p name = .ok (p ++ [name]) := by
  rw [follow, enter_eq_ok.mpr directory]
  · rfl
  · exact nonempty
  · exact dot
  · exact dots

def SameDirectories (t t' : FileTree) : Prop :=
  ∀ p, t.entry? p = some .directory ↔ t'.entry? p = some .directory

theorem follow_congr (same : t.SameDirectories t') {p r : Path} {name : String}
    (h : t.follow p name = .ok r) : t'.follow p name = .ok r := by
  obtain ⟨_, henter, hstep⟩ := bind_eq_ok.mp h
  exact bind_eq_ok.mpr ⟨(), enter_eq_ok.mpr ((same p).mp (enter_eq_ok.mp henter)), hstep⟩

theorem foldlM_follow_congr (same : t.SameDirectories t') {names : List String} {p r : Path}
    (h : names.foldlM t.follow p = .ok r) : names.foldlM t'.follow p = .ok r := by
  induction names generalizing p with
  | nil => exact h
  | cons name names ih =>
    rw [List.foldlM_cons] at h ⊢
    obtain ⟨q, hq, hrest⟩ := bind_eq_ok.mp h
    exact bind_eq_ok.mpr ⟨q, follow_congr same hq, ih hrest⟩

/-! ## Writing -/

theorem entry?_insert_self {place : Path} (hne : place ≠ []) (e : Entry) :
    entry? (t.insert place e) place = some e := by
  simp [insert, entry?, hne]

theorem entry?_insert_of_ne {place q : Path} (hne : q ≠ place) (e : Entry) :
    entry? (t.insert place e) q = t.entry? q := by
  simp [insert, entry?, hne]

theorem sameDirectories_insert {place : Path} (hne : place ≠ [])
    (free : t.entry? place ≠ some .directory) (content : ByteArray) :
    t.SameDirectories (t.insert place (.file content)) := by
  intro p
  by_cases hp : p = place
  · subst hp
    simp [entry?_insert_self hne, free]
  · rw [entry?_insert_of_ne hp]

/-- A file that was put where no directory is can be read by every path that led there. -/
theorem read_insert {path : String} {place : Path} (nonempty : path ≠ "") (hne : place ≠ [])
    (located : t.locate path = .ok place) (free : t.entry? place ≠ some .directory)
    (content : ByteArray) : (t.insert place (.file content)).read path = .ok content := by
  have hlocated : (t.insert place (.file content)).locate path = .ok place :=
    foldlM_follow_congr (sameDirectories_insert hne free content) located
  have hempty : path.isEmpty = false := by simpa using nonempty
  simp only [locate] at hlocated
  simp only [read, hempty, Bool.false_eq_true, ↓reduceIte, hlocated, bind, Except.bind,
    entry?_insert_self hne]
  rfl

/-- The names of a path without a trailing slash, the last of them apart. -/
theorem exists_last_name {all : List String}
    (kept : ¬ (all.reverse.dropWhile String.isEmpty).reverse.length < all.length)
    (named : (all.reverse.dropWhile String.isEmpty).reverse.getLast?.getD "." ≠ ".") :
    ∃ front name, all = front ++ [name] ∧ name ≠ "" ∧
      (all.reverse.dropWhile String.isEmpty).reverse = all := by
  have hself : all.rdropWhile String.isEmpty = all :=
    (List.rdropWhile_prefix _ all).eq_of_length_le (Nat.le_of_not_lt kept)
  have hne : all ≠ [] := by
    rintro rfl
    exact named rfl
  refine ⟨all.dropLast, all.getLast hne, (List.dropLast_concat_getLast hne).symm, ?_, hself⟩
  simpa using List.rdropWhile_eq_self_iff.mp hself hne

/-- A write puts a file at the place that the path leads to, where no directory was. -/
theorem write_eq_ok {path : String} {content : ByteArray} (h : t.write path content = .ok t') :
    path ≠ "" ∧ ∃ place, place ≠ [] ∧ t.locate path = .ok place ∧
      t.entry? place ≠ some .directory ∧ t' = t.insert place (.file content) := by
  unfold write at h
  simp only at h
  split at h
  · cases h
  next hempty =>
  obtain ⟨parent, hparent, hrest⟩ := bind_eq_ok.mp h
  obtain ⟨_, henter, hrest⟩ := bind_eq_ok.mp hrest
  split at hrest
  · cases hrest
  next hname =>
  simp only [Bool.or_eq_true, decide_eq_true_eq, beq_iff_eq, not_or] at hname
  obtain ⟨⟨hkept, hdot⟩, hdots⟩ := hname
  obtain ⟨front, name, hall, hne, hself⟩ := exists_last_name hkept hdot
  rw [hself, hall] at hparent hdot hdots hrest
  simp only [List.dropLast_concat, List.getLast?_concat, Option.getD_some]
    at hparent hdot hdots hrest
  have hlocate : t.locate path = .ok (parent ++ [name]) := by
    rw [locate, hall, List.foldlM_append]
    refine bind_eq_ok.mpr ⟨parent, hparent, ?_⟩
    rw [List.foldlM_cons, follow_of_directory (enter_eq_ok.mp henter) hne hdot hdots]
    rfl
  refine ⟨by simpa using hempty, parent ++ [name], by simp, hlocate, ?_⟩
  split at hrest
  · cases hrest
  next hfree => exact ⟨hfree, (Except.ok.inj hrest).symm⟩

end FileTree

/-! ## The program of a call -/

theorem Hamiltonian.ofFile_eq_ok {read : FileReader} {path : String} {h : Hamiltonian} :
    Hamiltonian.ofFile read path = .ok h ↔
      ∃ text, (read path >>= decodeText) = .ok text ∧ Hamiltonian.read text = .ok h := by
  rw [Hamiltonian.ofFile]
  simp only [bind_eq_ok, mapError_eq_ok]

/-- A run succeeds on a machine exactly if it does on workers that start, and these do start if
there are to be any. -/
theorem Hamiltonian.runOn_eq_ok {poolFault? : Option Nat → Option String} {settings : Settings}
    {h : Hamiltonian} {blocks : Blocks} :
    (h.runOn poolFault? settings).outcome = .ok blocks ↔
      (settings.execution = .parallel → poolFault? settings.threads = none) ∧
        (h.run settings).outcome = .ok blocks := by
  unfold runOn
  split
  · next hexecution hfault => simp [hexecution, hfault]
  · next hstarts =>
    refine (and_iff_right fun hexecution => ?_).symm
    rw [Option.eq_none_iff_forall_ne_some]
    exact fun reason hfault => hstarts reason hexecution hfault

namespace Command

/-- The settings of a call are valid. -/
theorem validate_of_resolve {parse : SettingsParser} {read : FileReader} {env : Environment}
    {o : Options} {settings : Settings} (h : resolve parse read env o = .ok settings) :
    settings.validate = .ok () := by
  obtain ⟨base, _, hoverride⟩ := bind_eq_ok.mp h
  obtain ⟨_, valid, rfl⟩ := override_eq_ok.mp hoverride
  exact Settings.validate_eq_ok.mpr valid

/-- All stages before the writing succeed and come to this program: the settings are resolved, the
input is read as text, the text is read as terms, workers can be started if there are to be any, and
the terms are lowered. -/
inductive Yields (host : Host) (read : FileReader) (input : String) (o : Options) : String → Prop
  | intro {settings : Settings} {text : String} {h : Hamiltonian} {program : String}
      (resolved : resolve host.parseSettings read host.environment o = .ok settings)
      (loaded : (read input >>= decodeText) = .ok text) (parsed : Hamiltonian.read text = .ok h)
      (started : settings.execution = .parallel → host.poolFault? settings.threads = none)
      (lowered : h.program settings = .ok program) : Yields host read input o program

section Prepare

variable {host : Host} {read : FileReader} {input : String} {o : Options} {settings : Settings}
  {h : Hamiltonian} {program : String}

theorem prepare_of_loaded (verbosity : Nat)
    (resolved : resolve host.parseSettings read host.environment o = .ok settings)
    (loaded : Hamiltonian.ofFile read input = .ok h) :
    (prepare host read verbosity input o).program = .ok program ↔
      ∃ blocks, (h.runOn host.poolFault? settings).outcome = .ok blocks ∧
        h.assemble settings blocks = program := by
  simp only [prepare, resolved, loaded]
  cases (h.runOn host.poolFault? settings).outcome <;> simp

theorem prepare_program_iff (verbosity : Nat) :
    (prepare host read verbosity input o).program = .ok program ↔
      Yields host read input o program := by
  constructor
  · intro hprogram
    cases hresolved : resolve host.parseSettings read host.environment o with
    | error failure => simp [prepare, hresolved] at hprogram
    | ok settings =>
      cases hfile : Hamiltonian.ofFile read input with
      | error e => simp [prepare, hresolved, hfile] at hprogram
      | ok h =>
        obtain ⟨text, hloaded, hparsed⟩ := Hamiltonian.ofFile_eq_ok.mp hfile
        obtain ⟨blocks, hrun, rfl⟩ := (prepare_of_loaded verbosity hresolved hfile).mp hprogram
        obtain ⟨hstarted, hrun⟩ := Hamiltonian.runOn_eq_ok.mp hrun
        refine .intro hresolved hloaded hparsed hstarted ?_
        rw [Hamiltonian.program, h.lower_eq_run settings (validate_of_resolve hresolved), hrun]
        rfl
  · intro hyields
    obtain @⟨settings, text, h, _, hresolved, hloaded, hparsed, hstarted, hlowered⟩ := hyields
    have hfile : Hamiltonian.ofFile read input = .ok h :=
      Hamiltonian.ofFile_eq_ok.mpr ⟨text, hloaded, hparsed⟩
    rw [Hamiltonian.program, h.lower_eq_run settings (validate_of_resolve hresolved)] at hlowered
    obtain ⟨blocks, hrun, hpure⟩ := bind_eq_ok.mp hlowered
    exact (prepare_of_loaded verbosity hresolved hfile).mpr
      ⟨blocks, Hamiltonian.runOn_eq_ok.mpr ⟨hstarted, hrun⟩, Except.ok.inj hpure⟩

end Prepare

/-! ## The effects of a call -/

/-- Every stage of a call succeeds, and so does the writing if there is an output file. -/
def Succeeds (host : Host) (tree : FileTree) (input : String) (o : Options) (program : String) :
    Prop :=
  Yields host tree.read input o program ∧
    ∀ path ∈ o.output, ∃ written, tree.write path program.toUTF8 = .ok written

/-- The call has no effect but its exit code and its lines on the error stream. -/
structure Refused (tree : FileTree) (report : Report) (after : FileTree) : Prop where
  code : report.code = 1
  stdout : report.stdout = ""
  unchanged : after = tree

/-- The program is on the output stream, and the files are as they were. -/
structure Printed (program : String) (tree : FileTree) (report : Report)
    (after : FileTree) : Prop where
  code : report.code = 0
  stdout : report.stdout = program
  unchanged : after = tree

/-- The file at the path is the program, and at every other place is what was there before. -/
structure Saved (program path : String) (tree : FileTree) (report : Report) (after : FileTree) :
    Prop where
  code : report.code = 0
  stdout : report.stdout = ""
  content : after.read path = .ok program.toUTF8
  unchanged : ∃ place, tree.locate path = .ok place ∧
    ∀ q, q ≠ place → after.entries q = tree.entries q
  workingDirectory : after.workingDirectory = tree.workingDirectory

section RunLower

variable {host : Host} {tree after : FileTree} {verbosity : Nat} {input : String} {o : Options}
  {report : Report} {program : String}

theorem refused_of_not_yields
    (ran : runLower host tree verbosity input o = (report, after))
    (fails : ∀ program, ¬ Yields host tree.read input o program) : Refused tree report after := by
  cases hprogram : (prepare host tree.read verbosity input o).program with
  | ok program => exact absurd ((prepare_program_iff verbosity).mp hprogram) (fails program)
  | error failure =>
    simp only [runLower, hprogram, Prepared.print] at ran
    obtain ⟨rfl, rfl⟩ := Prod.mk.inj ran
    exact ⟨rfl, rfl, rfl⟩

theorem printed_of_yields (ran : runLower host tree verbosity input o = (report, after))
    (yields : Yields host tree.read input o program) (output : o.output = none) :
    Printed program tree report after := by
  have hprogram := (prepare_program_iff verbosity).mpr yields
  simp only [runLower, hprogram, output, Prepared.print] at ran
  obtain ⟨rfl, rfl⟩ := Prod.mk.inj ran
  exact ⟨rfl, rfl, rfl⟩

theorem refused_of_write_error {path : String} {fault : FileFault}
    (ran : runLower host tree verbosity input o = (report, after))
    (yields : Yields host tree.read input o program) (output : o.output = some path)
    (failed : tree.write path program.toUTF8 = .error fault) : Refused tree report after := by
  have hprogram := (prepare_program_iff verbosity).mpr yields
  simp only [runLower, hprogram, output, failed, Prepared.saved] at ran
  obtain ⟨rfl, rfl⟩ := Prod.mk.inj ran
  exact ⟨rfl, rfl, rfl⟩

theorem saved_of_write_ok {path : String} {written : FileTree}
    (ran : runLower host tree verbosity input o = (report, after))
    (yields : Yields host tree.read input o program) (output : o.output = some path)
    (ok : tree.write path program.toUTF8 = .ok written) : Saved program path tree report after := by
  have hprogram := (prepare_program_iff verbosity).mpr yields
  simp only [runLower, hprogram, output, ok, Prepared.saved] at ran
  obtain ⟨rfl, rfl⟩ := Prod.mk.inj ran
  obtain ⟨hpath, place, hne, hlocate, hfree, rfl⟩ := FileTree.write_eq_ok ok
  refine ⟨rfl, rfl, FileTree.read_insert hpath hne hlocate hfree _, ⟨place, hlocate, ?_⟩, rfl⟩
  intro q hq
  simp [FileTree.insert, hq]

end RunLower

end Command

open Command

/-- **A call delivers the whole program or nothing.** If a stage of a lowering call fails on a
machine of any kind, it ends with code 1, prints nothing on the output stream and leaves the files
as they were. If all stages succeed, the program that the input is lowered to under the resolved
settings goes to the output stream, or, with an output file, to that file and nowhere else, also
where it is the input. -/
theorem lower_command_atomic {host : Host} {tree after : FileTree} {verbosity : Nat}
    {input : String} {o : Options} {report : Report}
    (ran : runLower host tree verbosity input o = (report, after)) :
    ((∀ program, ¬ Succeeds host tree input o program) → Refused tree report after) ∧
    ∀ program, Succeeds host tree input o program →
      match o.output with
      | none => Printed program tree report after
      | some path => Saved program path tree report after := by
  constructor
  · intro fails
    by_cases hyields : ∃ program, Yields host tree.read input o program
    · obtain ⟨program, hyields⟩ := hyields
      cases houtput : o.output with
      | none => exact absurd ⟨hyields, by simp [houtput]⟩ (fails program)
      | some path =>
        cases hwrite : tree.write path program.toUTF8 with
        | ok written =>
          refine absurd ⟨hyields, fun other hother => ?_⟩ (fails program)
          obtain rfl := Option.some.inj (houtput.symm.trans hother)
          exact ⟨written, hwrite⟩
        | error fault => exact refused_of_write_error ran hyields houtput hwrite
    · exact refused_of_not_yields ran fun program hprogram => hyields ⟨program, hprogram⟩
  · rintro program ⟨hyields, hwritten⟩
    cases houtput : o.output with
    | none => exact printed_of_yields ran hyields houtput
    | some path =>
      obtain ⟨written, hwrite⟩ := hwritten path houtput
      exact saved_of_write_ok ran hyields houtput hwrite

def oneFile : FileTree where
  workingDirectory := []
  entries p := if p = ["h"] then some (.file "ZZ 0.5 0\n".toUTF8) else none

def zzTerm : Term := .first "ZZ" (by decide)

def zzProgram : String :=
  "OPENQASM 2.0;\ninclude \"qelib1.inc\";\nqreg q[2];\ncreg c[2];\n" ++
  "\n// New operator from line 1\ncx q[0], q[1];\nrz(0.5*0.5*$[1]) q[1];\ncx q[0], q[1];\n"

def plainHost : Host := .standard (fun _ => none) 1

/-- The input file is replaced by the program. -/
theorem lower_command_atomic_in_place :
    ∃ report after, runLower plainHost oneFile 0 "h" { output := some "h" } = (report, after) ∧
      Saved zzProgram "h" oneFile report after := by
  have hsplit : "h".splitOn "/" = ["h"] := by
    rw [String.splitOn, if_neg (by decide), String.splitOnAux, if_neg (by decide),
      if_neg (by decide +kernel), String.splitOnAux, if_pos (by decide +kernel)]
    decide +kernel
  have hread : oneFile.read "h" = .ok "ZZ 0.5 0\n".toUTF8 := by
    simp only [FileTree.read, hsplit]
    rfl
  have hwrite : oneFile.write "h" zzProgram.toUTF8 =
      .ok (oneFile.insert ["h"] (.file zzProgram.toUTF8)) := by
    simp only [FileTree.write, hsplit]
    rfl
  have hloaded : (oneFile.read "h" >>= decodeText) = .ok "ZZ 0.5 0\n" := by
    rw [hread]
    exact toOption_eq_some.mp (by decide +kernel)
  have hparsed : Hamiltonian.read "ZZ 0.5 0\n" = .ok ⟨2, [zzTerm]⟩ :=
    toOption_eq_some.mp (by decide +kernel)
  have hlowered : (Hamiltonian.mk 2 [zzTerm]).program {} = .ok zzProgram :=
    toOption_eq_some.mp (by decide +kernel)
  obtain ⟨report, after, hran⟩ : ∃ report after,
      runLower plainHost oneFile 0 "h" { output := some "h" } = (report, after) := ⟨_, _, rfl⟩
  refine ⟨report, after, hran, (lower_command_atomic hran).2 zzProgram ⟨?_, ?_⟩⟩
  · exact .intro rfl hloaded hparsed (fun _ => rfl) hlowered
  · intro path hpath
    obtain rfl := Option.some.inj hpath
    exact ⟨_, hwrite⟩

end PauliLowering
