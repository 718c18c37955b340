import PauliLowering.Proofs.SettingsLayers
import PauliLowering.Proofs.Spelling

/-!
Which environments are refused.

Each variable has its spellings (`Settings.Field.Spelled`), and the readers of the variables accept
exactly these (`Settings.Field.parse?_isSome`). The values of variables are bytes, though. Bytes
that encode a text which is no spelling are always an error. Bytes that encode no text are not: the
variable then counts as unset, and whatever lies below it is used.
-/

namespace PauliLowering

/-! ## Bytes and texts -/

/-- The bytes are the UTF-8 form of some text. -/
def IsText (bytes : ByteArray) : Prop := ∃ text : String, bytes = text.toUTF8

theorem toUTF8_injective {text text' : String} (h : text.toUTF8 = text'.toUTF8) : text = text' :=
  Option.some.inj ((fromUTF8?_eq_some.mpr rfl).symm.trans (fromUTF8?_eq_some.mpr h))

namespace Environment

def unset (env : Environment) (name : String) : Environment :=
  fun other => if other = name then none else env other

theorem text?_eq_some {env : Environment} {name text : String} :
    env.text? name = some text ↔ env name = some text.toUTF8 := by
  simp [text?, Option.bind_eq_some_iff, fromUTF8?_eq_some]

theorem text?_unset {env : Environment} {name : String} {bytes : ByteArray}
    (set : env name = some bytes) (notText : ¬ IsText bytes) :
    (env.unset name).text? = env.text? := by
  funext other
  by_cases h : other = name
  · have hnone : env.text? name = none := by
      rw [Option.eq_none_iff_forall_ne_some]
      intro text htext
      exact notText ⟨text, Option.some.inj (set.symm.trans (text?_eq_some.mp htext))⟩
    rw [h, hnone]
    simp [text?, unset]
  · simp [text?, unset, h]

end Environment

namespace Settings

/-! ## Spellings of the variables -/

def Field.Word : Field → List Char → Prop
  | dialect => fun cs => String.ofList cs ∈ ["2", "2.0", "3", "3.0"]
  | angleMultiplier => Binary64.RealWord
  | execution => Text.Names ["parallel", "par", "sequential", "seq"]
  | threads => Numeral.CountWord

theorem Field.Word.visible (f : Field) (cs : List Char) (h : f.Word cs) :
    cs.all isVisible = true := by
  cases f with
  | dialect =>
    have hall : ["2", "2.0", "3", "3.0"].all (·.toList.all isVisible) = true := by decide
    simpa using List.all_eq_true.mp hall _ h
  | angleMultiplier => exact Binary64.RealWord.visible h
  | execution => exact Text.Names.visible h (by decide)
  | threads => exact Numeral.CountWord.visible h

/-- The text is a spelling of a value of the setting. -/
def Field.Spelled (f : Field) (text : String) : Prop := Text.Padded f.Word text.toList

theorem dialect_isSome {v : String} :
    (Field.dialect.parse? v).isSome ↔ Field.dialect.Word (Text.trim v.toList) := by
  show (Dialect.ofText v).toOption.isSome ↔ Text.trimmed v ∈ ["2", "2.0", "3", "3.0"]
  unfold Dialect.ofText
  split <;> simp_all [Except.toOption]

theorem execution_isSome {v : String} :
    (Field.execution.parse? v).isSome ↔ Field.execution.Word (Text.trim v.toList) := by
  rw [Field.Word, ← Text.lowercase_mem_iff (by decide)]
  show (Execution.ofText v).toOption.isSome ↔ _
  unfold Execution.ofText
  split <;> simp_all [Except.toOption]

/-- The reader of a variable accepts exactly the spellings. -/
theorem Field.parse?_isSome (f : Field) (v : String) : (f.parse? v).isSome ↔ f.Spelled v := by
  rw [Spelled, Text.padded_iff (Word.visible f)]
  cases f with
  | dialect => exact dialect_isSome
  | angleMultiplier => exact Binary64.read?_isSome
  | execution => exact execution_isSome
  | threads =>
    rw [parse?, Option.isSome_map]
    exact Numeral.readUpTo?_isSome

/-! ## Refused environments -/

def Field.Accepts (f : Field) (bytes : ByteArray) : Prop :=
  ∃ text : String, bytes = text.toUTF8 ∧ f.Spelled text

theorem Field.accepts_toUTF8 {f : Field} {text : String} :
    f.Accepts text.toUTF8 ↔ f.Spelled text := by
  constructor
  · rintro ⟨text', hbytes, spelled⟩
    rwa [toUTF8_injective hbytes]
  · intro spelled
    exact ⟨text, rfl, spelled⟩

theorem not_readable_iff {env : Environment} :
    ¬ Readable env.text? ↔
      ∃ f : Field, ∃ bytes, env f.variable = some bytes ∧ IsText bytes ∧ ¬ f.Accepts bytes := by
  simp only [Readable, not_forall, Environment.text?_eq_some, Field.parse?_isSome]
  constructor
  · rintro ⟨f, text, hset, unspelled⟩
    exact ⟨f, text.toUTF8, hset, ⟨text, rfl⟩, fun h => unspelled (Field.accepts_toUTF8.mp h)⟩
  · rintro ⟨f, _, hset, ⟨text, rfl⟩, refused⟩
    exact ⟨f, text, hset, fun h => refused (Field.accepts_toUTF8.mpr h)⟩

section Load

variable {parse : SettingsParser} {read : FileReader} {env : Environment} {path? : Option String}

theorem load_congr {env' : Environment} (same : env.text? = env'.text?) :
    load parse read env path? = load parse read env' path? := by
  unfold load
  rw [same]

/-- **Malformed variables.** On top of valid settings of a file, whatever its format, an environment
is refused exactly if a variable is set to a text that is no spelling of it, or the settings with
the variables on top are not valid. A variable whose bytes are no text is as good as unset. -/
theorem malformed_variable_refused {file : Settings} (h : InFile parse read path? file)
    (valid : file.Valid) :
    ((∃ e, load parse read env path? = .error e) ↔
      (∃ f : Field, ∃ bytes, env f.variable = some bytes ∧ IsText bytes ∧ ¬ f.Accepts bytes) ∨
        ¬ (file.overlay (.ofLookup env.text?)).Valid) ∧
    ∀ (f : Field) bytes, env f.variable = some bytes → ¬ IsText bytes →
      load parse read env path? = load parse read (env.unset f.variable) path? := by
  constructor
  · rw [exists_error_iff, ← not_readable_iff, ← not_and_or]
    simp only [load_eq_ok h, valid, true_and]
    constructor
    · exact fun hnone ⟨readable, hvalid⟩ => hnone ⟨_, readable, hvalid, rfl⟩
    · exact fun hwrong ⟨_, readable, hvalid, _⟩ => hwrong ⟨readable, hvalid⟩
  · intro f bytes hset notText
    exact load_congr (Environment.text?_unset hset notText).symm

end Load

/-- The bytes of no text. -/
theorem not_isText_ff : ¬ IsText ⟨#[0xFF]⟩ := by
  rintro ⟨text, h⟩
  have hnone : String.fromUTF8? ⟨#[0xFF]⟩ = none := by decide +kernel
  rw [fromUTF8?_eq_some.mpr h] at hnone
  cases hnone

def noFiles : FileReader := fun _ => .error .missing

/-- Bytes that are no text for the execution mode, and a text that is no count for the workers. -/
def faultyVariables : Environment
  | "PAULIQ_EXECUTION" => some ⟨#[0xFF]⟩
  | "PAULIQ_THREADS" => some "many".toUTF8
  | _ => none

/-- The count is refused, with the execution mode set or unset. -/
theorem malformed_variable_refused_count :
    InFile parseYaml noFiles none {} ∧ Valid {} ∧
    (∃ e, load parseYaml noFiles faultyVariables none = .error e) ∧
    load parseYaml noFiles faultyVariables none =
      load parseYaml noFiles (faultyVariables.unset "PAULIQ_EXECUTION") none := by
  have hcount : ¬ Field.threads.Spelled "many" := by
    rw [← Field.parse?_isSome]
    decide +kernel
  obtain ⟨hrefused, hunset⟩ :=
    @malformed_variable_refused parseYaml noFiles faultyVariables _ _ .defaults valid_defaults
  refine ⟨.defaults, valid_defaults, hrefused.mpr (.inl ?_), hunset .execution _ rfl not_isText_ff⟩
  exact ⟨.threads, _, rfl, ⟨"many", rfl⟩, fun h => hcount (Field.accepts_toUTF8.mp h)⟩

def undecodableCount : Environment
  | "PAULIQ_THREADS" => some ⟨#[0xFF]⟩
  | _ => none

/-- A variable that is set, and to no spelling, goes unnoticed if its bytes are no text. -/
theorem undecodable_count_ignored :
    (∃ bytes, undecodableCount Field.threads.variable = some bytes ∧
      ¬ Field.threads.Accepts bytes) ∧
      Valid {} ∧ load parseYaml noFiles undecodableCount none = .ok {} := by
  refine ⟨⟨_, rfl, ?_⟩, valid_defaults, toOption_eq_some.mp (by decide +kernel)⟩
  rintro ⟨text, hbytes, _⟩
  exact not_isText_ff ⟨text, hbytes⟩

end Settings

end PauliLowering
