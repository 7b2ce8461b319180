import DesignTokens.Proofs.Settings.Put
import DesignTokens.Settings.Configuration
import Mathlib.Data.List.Forall2

/-!
# Reading a configuration

A configuration is made of six settings (`SettingKey`), and it is read from their values alone,
whatever else stands in the settings. `Configuration.Reads` says when values make a configuration:
texts where texts are expected, formats that are known, and a name that may stand in a stylesheet.

* `Configuration.ofSettings_iff`: reading succeeds exactly with the configurations that the six
  values make.
-/

namespace DesignTokens

/-- The settings that a configuration is made of. -/
inductive SettingKey where
  | rootPath
  | tokensPath
  | sourceFile
  | outputPath
  | space
  | formats
  deriving DecidableEq, Repr

namespace SettingKey

/-- The keys that lead to a setting. -/
def names : SettingKey → List String
  | rootPath => ["root_path"]
  | tokensPath => ["tokens_path"]
  | sourceFile => ["tokens", "source_file"]
  | outputPath => ["tokens", "output_path"]
  | space => ["tokens", "namespace"]
  | formats => ["tokens", "formats"]

/-- The path of a setting, as it is written. -/
def text (k : SettingKey) : String :=
  String.intercalate "." k.names

end SettingKey

/-- The path that a setting names, which may be missing or empty. -/
def Setting.NamesPath : Option Setting → Option Path → Prop
  | none, path => path = none
  | some nil, path => path = none
  | some s, path => ∃ words, s.text? = some words ∧ path = some ⟨words⟩

/-- The values of the settings make a configuration. -/
structure Configuration.Reads (value : SettingKey → Option Setting) (config : Configuration) :
    Prop where
  rootPath : (value .rootPath).bind Setting.text? = some config.rootPath.text
  tokensPath : (value .tokensPath).bind Setting.text? = some config.tokensPath.text
  sourceFile : (value .sourceFile).bind Setting.text? = some config.tokens.sourceFile.text
  outputPath : Setting.NamesPath (value .outputPath) config.tokens.outputPath
  space : (value .space).bind Setting.text? = some config.tokens.space
  /-- Every item of the list names a format. -/
  formats : ∃ items, value .formats = some (.list items) ∧
    List.Forall₂ (fun s format => s.text?.bind OutputFormat.ofText? = some format) items
      config.tokens.formats
  space_ne : config.tokens.space ≠ ""
  space_chars : ∀ c ∈ config.tokens.space.toList, Configuration.isNameChar c

/-! ## Steps that may fail -/

section

variable {ε α β : Type} {x : Except ε α}

theorem bind_eq_ok {f : α → Except ε β} {b : β} :
    (x >>= f) = .ok b ↔ ∃ a, x = .ok a ∧ f a = .ok b := by
  cases x <;> simp [bind, Except.bind]

theorem exists_of_isOk (h : x.isOk) : ∃ a, x = .ok a := by
  cases x with
  | error e => exact absurd h (by simp [Except.isOk, Except.toBool])
  | ok a => exact ⟨a, rfl⟩

theorem mapM_eq_ok {f : α → Except ε β} {as : List α} {bs : List β} :
    as.mapM f = .ok bs ↔ List.Forall₂ (fun a b => f a = .ok b) as bs := by
  induction as generalizing bs with
  | nil => cases bs <;> simp [pure, Except.pure]
  | cons a as ih =>
    rw [List.mapM_cons, bind_eq_ok]
    simp only [bind_eq_ok, ih, pure, Except.pure, Except.ok.injEq]
    constructor
    · rintro ⟨b, hb, bs, hbs, rfl⟩
      exact .cons hb hbs
    · rintro (_ | ⟨hb, hbs⟩)
      exact ⟨_, hb, _, hbs, rfl⟩

end

/-! ## Values -/

namespace Setting

theorem expectText_eq_ok {s : Setting} {words : String} :
    s.expectText = .ok words ↔ s.text? = some words := by
  unfold expectText
  cases s.text? <;> simp

theorem requiredText_eq_ok {s : Option Setting} {words : String} :
    requiredText s = .ok words ↔ s.bind text? = some words := by
  unfold requiredText
  rw [expectText_eq_ok]
  cases s <;> rfl

theorem path?_eq_ok {s : Option Setting} {path : Option Path} :
    path? s = .ok path ↔ NamesPath s path := by
  have htext : ∀ s : Setting,
      (do return some ⟨← s.expectText⟩ : Except _ (Option Path)) = .ok path ↔
        ∃ words, s.text? = some words ∧ path = some ⟨words⟩ := by
    intro s
    rw [bind_eq_ok]
    simp only [expectText_eq_ok, pure, Except.pure, Except.ok.injEq]
    exact exists_congr fun _ => and_congr_right fun _ => eq_comm
  cases s with
  | none => simp [path?, NamesPath, eq_comm]
  | some s =>
    cases s with
    | nil => simp [path?, NamesPath, eq_comm]
    | _ => exact htext _

theorem format_eq_ok {s : Setting} {format : OutputFormat} :
    s.format = .ok format ↔ s.text?.bind OutputFormat.ofText? = some format := by
  unfold Setting.format
  rw [bind_eq_ok, Option.bind_eq_some_iff]
  refine exists_congr fun words => and_congr expectText_eq_ok ?_
  cases OutputFormat.ofText? words <;> simp [pure, Except.pure]

theorem formats_eq_ok {s : Option Setting} {formats : List OutputFormat} :
    Setting.formats s = .ok formats ↔ ∃ items, s = some (.list items) ∧
      List.Forall₂ (fun s format => s.text?.bind OutputFormat.ofText? = some format) items
        formats := by
  unfold Setting.formats
  split
  · rename_i items
    simp only [mapM_eq_ok, format_eq_ok, Option.some.injEq, Setting.list.injEq]
    exact ⟨fun h => ⟨items, rfl, h⟩, fun ⟨_, heq, h⟩ => heq ▸ h⟩
  · rename_i hlist
    simp only [reduceCtorEq, false_iff]
    rintro ⟨items, rfl, -⟩
    exact hlist items rfl

end Setting

/-! ## The configuration -/

theorem TokenSettings.ofSetting_eq_ok {entries : Table Setting} {tokens : TokenSettings} :
    ofSetting (.table entries) = .ok tokens ↔
      (Table.get? entries "source_file").bind Setting.text? = some tokens.sourceFile.text ∧
      Setting.NamesPath (Table.get? entries "output_path") tokens.outputPath ∧
      (Table.get? entries "namespace").bind Setting.text? = some tokens.space ∧
      ∃ items, Table.get? entries "formats" = some (.list items) ∧
        List.Forall₂ (fun s format => s.text?.bind OutputFormat.ofText? = some format) items
          tokens.formats := by
  unfold ofSetting
  simp only [bind_eq_ok, Setting.requiredText_eq_ok, Setting.path?_eq_ok, Setting.formats_eq_ok,
    pure, Except.pure, Except.ok.injEq]
  constructor
  · rintro ⟨_, hsource, _, houtput, _, hspace, _, hformats, rfl⟩
    exact ⟨hsource, houtput, hspace, hformats⟩
  · rintro ⟨hsource, houtput, hspace, hformats⟩
    exact ⟨_, hsource, _, houtput, _, hspace, _, hformats, rfl⟩

namespace Configuration

theorem checkName_eq_ok {name : String} :
    checkName name = .ok () ↔ name ≠ "" ∧ ∀ c ∈ name.toList, isNameChar c := by
  unfold checkName
  by_cases hempty : name = ""
  · simp [hempty]
  · rw [if_neg (by simpa using hempty)]
    cases hfind : name.toList.find? fun c => !isNameChar c with
    | none => simpa [hempty] using hfind
    | some c =>
      have hc : ¬ isNameChar c := by simpa using List.find?_some hfind
      simp only [reduceCtorEq, false_iff, not_and, not_forall]
      exact fun _ => ⟨c, List.mem_of_find?_eq_some hfind, hc⟩

/-- **Reading a configuration from settings** whose token settings are a table. -/
theorem ofSettings_iff {s : Setting} {config : Configuration}
    (htokens : ∃ entries, s.get? ["tokens"] = some (.table entries)) :
    (ofSettings s = .ok config ∧ checkName config.tokens.space = .ok ()) ↔
      Reads (fun k => s.get? k.names) config := by
  obtain ⟨entries, htokens⟩ := htokens
  have hinner : ∀ name, s.get? ["tokens", name] = Table.get? entries name := fun name => by
    rw [Setting.get?_cons_eq_bind, htokens]
    exact Setting.get?_singleton _ name
  have hget : Table.get? s.entries "tokens" = some (.table entries) := by
    rw [← Setting.get?_singleton, htokens]
  unfold ofSettings
  rw [hget, Option.getD_some]
  simp only [bind_eq_ok, Setting.requiredText_eq_ok, TokenSettings.ofSetting_eq_ok, checkName_eq_ok, pure,
    Except.pure, Except.ok.injEq, ← hinner, ← Setting.get?_singleton]
  constructor
  · rintro ⟨⟨_, hroot, _, hpath, _, ⟨hsource, houtput, hspace, hformats⟩, rfl⟩, hne, hchars⟩
    exact ⟨hroot, hpath, hsource, houtput, hspace, hformats, hne, hchars⟩
  · rintro ⟨hroot, hpath, hsource, houtput, hspace, hformats, hne, hchars⟩
    exact ⟨⟨_, hroot, _, hpath, _, ⟨hsource, houtput, hspace, hformats⟩, rfl⟩, hne, hchars⟩

end Configuration

end DesignTokens
