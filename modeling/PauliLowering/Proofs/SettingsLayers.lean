import PauliLowering.Command
import PauliLowering.Proofs.TermCircuit
import PauliLowering.Yaml.Settings

/-!
The layers that the settings of a call come from: a file, the environment, the options.

A layer gives some of the settings a value, and every setting takes its value from the highest layer
that has one for it (`Settings.get_overlay`). Reading the environment and taking up the options are
both such layers (`Settings.withEnvironment_eq_ok`, `Command.override_eq_ok`). The settings are
checked after each layer, so a layer that is wrong stays wrong under whatever lies on top of it.
-/

namespace PauliLowering

namespace Settings

/-! ## Valid settings -/

/-- The multiplier is finite and not zero, and if the workers are counted there is one. -/
structure Valid (s : Settings) : Prop where
  finite : s.angleMultiplier.isFinite = true
  nonzero : s.angleMultiplier.isZero = false
  workers : s.threads ≠ some 0

theorem validate_eq_ok {s : Settings} {u : Unit} : s.validate = .ok u ↔ s.Valid := by
  have hfault : s.fault? = none ↔ s.Valid := by
    unfold fault?
    constructor
    · intro h
      split at h <;> try cases h
      next hfinite =>
      split at h <;> try cases h
      next hzero =>
      split at h <;> try cases h
      next hthreads => exact ⟨by simpa using hfinite, by simpa using hzero, hthreads⟩
    · rintro ⟨hfinite, hzero, hthreads⟩
      simp [hfinite, hzero, hthreads]
  rw [← hfault, validate]
  cases s.fault? <;> simp

/-! ## Layers -/

abbrev Field.Value : Field → Type
  | dialect => Dialect
  | angleMultiplier => Binary64
  | execution => Execution
  | threads => Option Nat

def get (s : Settings) : (f : Field) → f.Value
  | .dialect => s.dialect
  | .angleMultiplier => s.angleMultiplier
  | .execution => s.execution
  | .threads => s.threads

/-- The values that a layer gives to some of the settings. -/
abbrev Layer := (f : Field) → Option f.Value

/-- The settings with a layer on top of them. -/
def overlay (s : Settings) (layer : Layer) : Settings where
  dialect := (layer .dialect).getD s.dialect
  angleMultiplier := (layer .angleMultiplier).getD s.angleMultiplier
  execution := (layer .execution).getD s.execution
  threads := (layer .threads).getD s.threads

theorem get_overlay (s : Settings) (layer : Layer) (f : Field) :
    (s.overlay layer).get f = (layer f).getD (s.get f) := by
  cases f <;> rfl

/-! ## The environment -/

def Field.variable : Field → String
  | dialect => "PAULIQ_QASM_VERSION"
  | angleMultiplier => "PAULIQ_ANGLE_MULTIPLIER"
  | execution => "PAULIQ_EXECUTION"
  | threads => "PAULIQ_THREADS"

def Field.parse? : (f : Field) → String → Option f.Value
  | dialect, v => (Dialect.ofText v).toOption
  | angleMultiplier, v => Binary64.read? (Text.trim v.toList)
  | execution, v => (Execution.ofText v).toOption
  | threads, v => (Numeral.readUpTo? Numeral.word (Text.trim v.toList)).map some

def Layer.ofLookup (lookup : String → Option String) : Layer :=
  fun f => (lookup f.variable).bind f.parse?

/-- Every variable that is set stands for a value. -/
def Readable (lookup : String → Option String) : Prop :=
  ∀ f : Field, ∀ v, lookup f.variable = some v → (f.parse? v).isSome

/-- One variable: unset it leaves the setting as it is, and set it has to stand for a value. -/
theorem withVariable_eq_ok {α : Type} {ofText : String → Except SettingFault α}
    {parse? : String → Option α} (hparse : ∀ v a, ofText v = .ok a ↔ parse? v = some a)
    {text? : Option String} {old a : α} :
    withVariable text? old ofText = .ok a ↔
      (∀ v, text? = some v → (parse? v).isSome) ∧ a = (text?.bind parse?).getD old := by
  cases text? with
  | none =>
    simp only [withVariable, Except.ok.injEq, Option.bind_none, Option.getD_none]
    constructor
    · rintro rfl
      exact ⟨by simp, rfl⟩
    · rintro ⟨_, rfl⟩
      rfl
  | some v =>
    rw [withVariable, hparse, Option.bind_some]
    constructor
    · intro h
      simp [h]
    · rintro ⟨hsome, rfl⟩
      obtain ⟨b, hb⟩ := Option.isSome_iff_exists.mp (hsome v rfl)
      rw [hb, Option.getD_some]

theorem dialectOfText_eq_ok (v : String) (d : Dialect) :
    dialectOfText v = .ok d ↔ Field.dialect.parse? v = some d := by
  rw [dialectOfText, mapError_eq_ok]
  exact toOption_eq_some.symm

theorem multiplierOfText_eq_ok (v : String) (m : Binary64) :
    multiplierOfText v = .ok m ↔ Field.angleMultiplier.parse? v = some m := by
  rw [multiplierOfText, Field.parse?]
  cases Binary64.read? (Text.trim v.toList) <;> simp

theorem executionOfText_eq_ok (v : String) (e : Execution) :
    Execution.ofText v = .ok e ↔ Field.execution.parse? v = some e :=
  toOption_eq_some.symm

theorem threadsOfText_eq_ok (v : String) (n : Option Nat) :
    threadsOfText v = .ok n ↔ Field.threads.parse? v = some n := by
  rw [threadsOfText, Field.parse?]
  cases Numeral.readUpTo? Numeral.word (Text.trim v.toList) <;> simp

theorem withEnvironment_eq_ok {s s' : Settings} {lookup : String → Option String} :
    s.withEnvironment lookup = .ok s' ↔ Readable lookup ∧ s' = s.overlay (.ofLookup lookup) := by
  simp only [withEnvironment, bind_eq_ok, withVariable_eq_ok dialectOfText_eq_ok,
    withVariable_eq_ok multiplierOfText_eq_ok, withVariable_eq_ok executionOfText_eq_ok,
    withVariable_eq_ok threadsOfText_eq_ok]
  constructor
  · rintro ⟨_, ⟨hdialect, rfl⟩, _, ⟨hmultiplier, rfl⟩, _, ⟨hexecution, rfl⟩, _, ⟨hthreads, rfl⟩, hs⟩
    refine ⟨?_, (Except.ok.inj hs).symm⟩
    intro f
    cases f with
    | dialect => exact hdialect
    | angleMultiplier => exact hmultiplier
    | execution => exact hexecution
    | threads => exact hthreads
  · rintro ⟨readable, rfl⟩
    exact ⟨_, ⟨readable .dialect, rfl⟩, _, ⟨readable .angleMultiplier, rfl⟩, _,
      ⟨readable .execution, rfl⟩, _, ⟨readable .threads, rfl⟩, rfl⟩

end Settings

/-- Bytes are text exactly if a text is encoded by them. -/
theorem fromUTF8?_eq_some {bytes : ByteArray} {text : String} :
    String.fromUTF8? bytes = some text ↔ bytes = text.toUTF8 := by
  unfold String.fromUTF8?
  constructor
  · intro h
    split at h
    · obtain rfl := Option.some.inj h
      rfl
    · cases h
  · rintro rfl
    rw [dif_pos (show text.toUTF8.IsValidUTF8 from text.isValidUTF8)]
    rfl

def Environment.ofTexts (lookup : String → Option String) : Environment :=
  fun name => (lookup name).map String.toUTF8

theorem Environment.text?_ofTexts (lookup : String → Option String) :
    (ofTexts lookup).text? = lookup := by
  funext name
  cases h : lookup name with
  | none => simp [text?, ofTexts, h]
  | some text => simp [text?, ofTexts, h, fromUTF8?_eq_some]

namespace Settings

/-! ## Files -/

/-- The settings that a file holds, before they are checked. Without a file these are the defaults.
-/
inductive InFile (parse : SettingsParser) (read : FileReader) : Option String → Settings → Prop
  | defaults : InFile parse read none {}
  | text {path text : String} {s : Settings} (loaded : (read path >>= decodeText) = .ok text)
      (parsed : parse text = .ok s) : InFile parse read (some path) s

theorem valid_defaults : Valid {} := validate_eq_ok.mp rfl

/-- A check that is made before settings are handed on. -/
theorem checked_eq_ok {s s' : Settings} :
    (do s.validate; return s : Except SettingsError Settings) = .ok s' ↔ s.Valid ∧ s' = s := by
  rw [bind_eq_ok]
  simp only [validate_eq_ok]
  constructor
  · rintro ⟨_, hvalid, hs⟩
    exact ⟨hvalid, (Except.ok.inj hs).symm⟩
  · rintro ⟨hvalid, rfl⟩
    exact ⟨(), hvalid, rfl⟩

variable {parse : SettingsParser} {read : FileReader} {env : Environment} {path? : Option String}
  {file s : Settings}

theorem ofFile_eq_ok {path text : String} (loaded : (read path >>= decodeText) = .ok text)
    (parsed : parse text = .ok file) : ofFile parse read path = .ok s ↔ file.Valid ∧ s = file := by
  rw [ofFile, loaded]
  show ofText parse text = .ok s ↔ _
  rw [ofText, parsed]
  exact checked_eq_ok

/-- The settings of a file with the environment on top, checked. -/
theorem underEnvironment_eq_ok :
    (do let settings ← (file.withEnvironment env.text?).mapError SettingsError.invalid
        settings.validate
        return settings) = .ok s ↔
      Readable env.text? ∧ (file.overlay (.ofLookup env.text?)).Valid ∧
        s = file.overlay (.ofLookup env.text?) := by
  rw [bind_eq_ok]
  simp only [mapError_eq_ok, withEnvironment_eq_ok, checked_eq_ok]
  constructor
  · rintro ⟨_, ⟨readable, rfl⟩, valid, rfl⟩
    exact ⟨readable, valid, rfl⟩
  · rintro ⟨readable, valid, rfl⟩
    exact ⟨_, ⟨readable, rfl⟩, valid, rfl⟩

theorem load_eq_ok (h : InFile parse read path? file) :
    load parse read env path? = .ok s ↔ file.Valid ∧ Readable env.text? ∧
      (file.overlay (.ofLookup env.text?)).Valid ∧ s = file.overlay (.ofLookup env.text?) := by
  rw [← underEnvironment_eq_ok]
  cases h with
  | defaults => exact (and_iff_right valid_defaults).symm
  | @text path _ _ loaded parsed =>
    have hload : load parse read env (some path) = (ofFile parse read path >>= fun file => do
        let settings ← (file.withEnvironment env.text?).mapError SettingsError.invalid
        settings.validate
        return settings) := rfl
    rw [hload, bind_eq_ok]
    simp only [ofFile_eq_ok loaded parsed]
    constructor
    · rintro ⟨_, ⟨valid, rfl⟩, hrest⟩
      exact ⟨valid, hrest⟩
    · rintro ⟨valid, hrest⟩
      exact ⟨_, ⟨valid, rfl⟩, hrest⟩

end Settings

namespace Command

open Settings (Layer InFile Readable)

/-! ## Options -/

/-- The layer of the options. The flag for sequential execution can only switch it on. -/
def Options.layer (o : Options) : Layer
  | .dialect => o.dialect.bind Dialect.ofNumber?
  | .angleMultiplier => o.multiplier
  | .execution => if o.sequential then some .sequential else none
  | .threads => o.threads.map some

/-- The version that the options ask for, if they do, is one of the two that there are. -/
def Options.Supported (o : Options) : Prop := ∀ n ∈ o.dialect, n = 2 ∨ n = 3

theorem ofNumber?_isSome {n : Nat} : (Dialect.ofNumber? n).isSome ↔ n = 2 ∨ n = 3 := by
  unfold Dialect.ofNumber?
  split <;> simp_all

theorem overlay_layer (base : Settings) (o : Options) :
    base.overlay o.layer = {
      dialect := (o.dialect.bind Dialect.ofNumber?).getD base.dialect
      angleMultiplier := o.multiplier.getD base.angleMultiplier
      execution := if o.sequential then .sequential else base.execution
      threads := o.threads <|> base.threads } := by
  have hexecution : (o.layer .execution).getD base.execution =
      if o.sequential then .sequential else base.execution := by
    cases h : o.sequential <;> simp [Options.layer, h]
  have hthreads : (o.layer .threads).getD base.threads = (o.threads <|> base.threads) := by
    cases h : o.threads <;> simp [Options.layer, h]
  rw [Settings.overlay, hexecution, hthreads]
  rfl

theorem override_eq_ok {base s : Settings} {o : Options} :
    override base o = .ok s ↔
      o.Supported ∧ (base.overlay o.layer).Valid ∧ s = base.overlay o.layer := by
  have hlast : (do (base.overlay o.layer).validate.mapError Failure.settings
                   return base.overlay o.layer) = .ok s ↔
      (base.overlay o.layer).Valid ∧ s = base.overlay o.layer := by
    rw [bind_eq_ok]
    simp only [mapError_eq_ok, Settings.validate_eq_ok]
    constructor
    · rintro ⟨_, valid, hs⟩
      exact ⟨valid, (Except.ok.inj hs).symm⟩
    · rintro ⟨valid, rfl⟩
      exact ⟨(), valid, rfl⟩
  rw [← hlast, overlay_layer]
  cases hdialect : o.dialect with
  | none => simp [override, Options.Supported, hdialect]
  | some n =>
    have hsupported : o.Supported ↔ (Dialect.ofNumber? n).isSome := by
      simp [Options.Supported, hdialect, ofNumber?_isSome]
    rw [hsupported]
    cases hnumber : Dialect.ofNumber? n with
    | none =>
      have hrefused : override base o = .error (.unsupportedDialect n) := by
        simp only [override, hdialect, hnumber]
        rfl
      simp [hrefused]
    | some d => simp [override, hdialect, hnumber]

section Resolve

variable {parse : SettingsParser} {read : FileReader} {env : Environment} {o : Options}
  {file : Settings}

theorem resolve_eq_ok {s : Settings} (h : InFile parse read o.config file) :
    resolve parse read env o = .ok s ↔
      file.Valid ∧ Readable env.text? ∧ (file.overlay (.ofLookup env.text?)).Valid ∧ o.Supported ∧
        ((file.overlay (.ofLookup env.text?)).overlay o.layer).Valid ∧
        s = (file.overlay (.ofLookup env.text?)).overlay o.layer := by
  rw [resolve, bind_eq_ok]
  simp only [mapError_eq_ok, Settings.load_eq_ok h, override_eq_ok]
  constructor
  · rintro ⟨_, ⟨hfile, readable, henv, rfl⟩, hrest⟩
    exact ⟨hfile, readable, henv, hrest⟩
  · rintro ⟨hfile, readable, henv, hrest⟩
    exact ⟨_, ⟨hfile, readable, henv, rfl⟩, hrest⟩

/-- **The layers of settings.** With what the reader finds in a file, or the defaults, as the lowest
layer, a call has settings if and only if the file's are valid, every variable that is set stands
for a value, the settings with the variables on top are valid, the version asked for is one of the
two, and the settings with the options on top are valid. Then each setting by itself is that of the
options, or else that of its variable, or else that of the file. So no layer makes up for a wrong
one below it, and a setting that no layer sets is the file's. -/
theorem settings_layered (h : InFile parse read o.config file) :
    ((∃ s, resolve parse read env o = .ok s) ↔
      file.Valid ∧ Readable env.text? ∧ (file.overlay (.ofLookup env.text?)).Valid ∧ o.Supported ∧
        ((file.overlay (.ofLookup env.text?)).overlay o.layer).Valid) ∧
    (∀ s, resolve parse read env o = .ok s → ∀ f,
      s.get f = ((o.layer f).or (Layer.ofLookup env.text? f)).getD (file.get f)) ∧
    (¬ file.Valid → ∀ env' o', o'.config = o.config → ∃ e, resolve parse read env' o' = .error e) ∧
    (¬ Readable env.text? ∨ ¬ (file.overlay (.ofLookup env.text?)).Valid →
      ∀ o', o'.config = o.config → ∃ e, resolve parse read env o' = .error e) ∧
    ∀ s, resolve parse read env o = .ok s → ∀ f, o.layer f = none → env.text? f.variable = none →
      s.get f = file.get f := by
  have hfield : ∀ s, resolve parse read env o = .ok s → ∀ f,
      s.get f = ((o.layer f).or (Layer.ofLookup env.text? f)).getD (file.get f) := by
    intro s hs f
    obtain ⟨_, _, _, _, _, rfl⟩ := (resolve_eq_ok h).mp hs
    rw [Settings.get_overlay, Settings.get_overlay]
    cases o.layer f <;> rfl
  refine ⟨?_, hfield, ?_, ?_, ?_⟩
  · simp only [resolve_eq_ok h]
    constructor
    · rintro ⟨_, hfile, readable, henv, supported, valid, _⟩
      exact ⟨hfile, readable, henv, supported, valid⟩
    · rintro ⟨hfile, readable, henv, supported, valid⟩
      exact ⟨_, hfile, readable, henv, supported, valid, rfl⟩
  · intro invalid env' o' hconfig
    refine exists_error_iff.mpr ?_
    rintro ⟨s, hs⟩
    exact invalid ((resolve_eq_ok (hconfig ▸ h)).mp hs).1
  · intro wrong o' hconfig
    refine exists_error_iff.mpr ?_
    rintro ⟨s, hs⟩
    obtain ⟨_, readable, henv, _⟩ := (resolve_eq_ok (hconfig ▸ h)).mp hs
    rcases wrong with unreadable | invalid
    · exact unreadable readable
    · exact invalid henv
  · intro s hs f hflag hvariable
    rw [hfield s hs f, hflag, Layer.ofLookup, hvariable]
    rfl

end Resolve

def layeredFiles : FileReader :=
  fun path => if path = "s" then .ok "qasm_version: 3\nthreads: 4\n".toUTF8 else .error .missing

def layeredTexts : String → Option String
  | "PAULIQ_QASM_VERSION" => some " 2.0"
  | "PAULIQ_ANGLE_MULTIPLIER" => some "1e3"
  | _ => none

def layeredOptions : Options := { config := some "s", multiplier := some .half, sequential := true }

/-- The version is that of the variable, the multiplier and the mode are those of the options, and
the number of workers is that of the file. -/
theorem settings_layered_mixed :
    InFile Settings.parseYaml layeredFiles layeredOptions.config
      { dialect := .qasm3, threads := some 4 } ∧
    ∃ s, resolve Settings.parseYaml layeredFiles (.ofTexts layeredTexts) layeredOptions = .ok s ∧
      s.dialect = .qasm2 ∧ s.angleMultiplier = .half ∧ s.execution = .sequential ∧
      s.threads = some 4 := by
  have hloaded : (layeredFiles "s" >>= decodeText) = .ok "qasm_version: 3\nthreads: 4\n" := by
    show decodeText "qasm_version: 3\nthreads: 4\n".toUTF8 = _
    rw [decodeText, fromUTF8?_eq_some.mpr rfl]
  have hfile : InFile Settings.parseYaml layeredFiles layeredOptions.config
      { dialect := .qasm3, threads := some 4 } :=
    .text hloaded (toOption_eq_some.mp (by decide +kernel))
  obtain ⟨hiff, hfield, _⟩ := @settings_layered _ _ (.ofTexts layeredTexts) _ _ hfile
  rw [Environment.text?_ofTexts] at hiff hfield
  have hreadable : Readable layeredTexts := by
    intro f v hv
    cases f with
    | dialect =>
      obtain rfl : " 2.0" = v := Option.some.inj hv
      decide +kernel
    | angleMultiplier =>
      obtain rfl : "1e3" = v := Option.some.inj hv
      decide +kernel
    | execution => cases hv
    | threads => cases hv
  obtain ⟨s, hs⟩ := hiff.mpr ⟨⟨rfl, rfl, by decide⟩, hreadable,
    ⟨by decide +kernel, by decide +kernel, by decide +kernel⟩,
    by simp [Options.Supported, layeredOptions], ⟨rfl, rfl, by decide +kernel⟩⟩
  refine ⟨hfile, s, hs, ?_, ?_, ?_, ?_⟩
  · exact (hfield s hs .dialect).trans (by decide +kernel)
  · exact hfield s hs .angleMultiplier
  · exact hfield s hs .execution
  · exact hfield s hs .threads

end Command

end PauliLowering
