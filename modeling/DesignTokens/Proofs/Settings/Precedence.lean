import DesignTokens.Proofs.Settings.Reading
import DesignTokens.Proofs.Toml.Keys
import Mathlib.Data.List.TakeWhile

/-!
# Precedence of layers

What layers make of a setting, whatever they do to the others. Files come in the order in which they
are named, and the last override of the setting comes after all of them, wherever it stands. Each
value is put over what the ones before it made of the setting (`Layer.merged`), so the last one
settles it (`Layer.winner?`), unless it is a table.

* `Layer.get?_foldl_putFile`, `Layer.get?_foldl_lastOnly`: what files and overrides leave;
* `Layer.exists_settings`: the settings that layers make;
* `Configuration.load_precedence`: when layers make a configuration, and which one;
* `Layer.settings_emptyTable`: an empty table leaves a setting as it is.
-/

namespace DesignTokens

namespace SettingKey

theorem ofText?_text (k : SettingKey) :
    KeyPath.ofText? k.text = some (Setting.keyPath k.names) := by
  cases k <;> decide +kernel

/-- No setting is a part of another one. -/
theorem not_names_prefix {k k' : SettingKey} (h : k ≠ k') : ¬ k.names <+: k'.names := by
  revert h
  cases k <;> cases k' <;> decide

theorem text_injective {k k' : SettingKey} (h : k.text = k'.text) : k = k' := by
  revert h
  cases k <;> cases k' <;> decide +kernel

theorem keyPath_injective {k k' : SettingKey}
    (h : Setting.keyPath k.names = Setting.keyPath k'.names) : k = k' := by
  by_contra hne
  have hnames : k.names = k'.names := List.map_injective_iff.mpr (fun _ _ => KeyStep.key.inj) h
  exact not_names_prefix hne (hnames ▸ List.prefix_rfl)

end SettingKey

namespace Layer

/-! ## What layers give -/

/-- Whether a layer is a file. -/
def isFile : Layer → Bool
  | file .. => true
  | override .. => false

/-- The text of the settings file that a path names, if it is there. -/
def fileText? (fs : FileSystem) (p : Path) : Option String :=
  (locateFile? fs p).bind fs.readText?

/-- The entries that a layer puts over others at once. -/
def entries? (fs : FileSystem) : Layer → Option (Table Setting)
  | file path _ => (fileText? fs path).bind Toml.table?
  | override .. => none

/-- What a file gives for a setting. -/
def fileSetting? (fs : FileSystem) (k : SettingKey) (layer : Layer) : Option Setting :=
  (layer.entries? fs).bind fun entries => (Setting.table entries).get? k.names

/-- What an override gives for a setting. -/
def overrideSetting? (k : SettingKey) : Layer → Option Setting
  | file .. => none
  | override key value => if key = k.text then some value else none

/-- What the defaults give for a setting. -/
def defaultSetting? (k : SettingKey) : Option Setting :=
  (Setting.table defaults).get? k.names

/-- What layers give for a setting: the files in their order, and then the last override. -/
def given (fs : FileSystem) (layers : List Layer) (k : SettingKey) : List Setting :=
  layers.filterMap (fileSetting? fs k) ++ (layers.filterMap (overrideSetting? k)).getLast?.toList

/-- What layers make of a setting: each value is put over what there was. -/
def merged (fs : FileSystem) (layers : List Layer) (k : SettingKey) : Option Setting :=
  (given fs layers k).foldl (fun old value => some (Setting.laidOver old value)) (defaultSetting? k)

/-- The value that comes last: that of the last override, else that of the last file that gives one,
else the default. -/
def winner? (fs : FileSystem) (layers : List Layer) (k : SettingKey) : Option Setting :=
  (layers.filterMap (overrideSetting? k)).getLast?.or
    ((layers.filterMap (fileSetting? fs k)).getLast?.or (defaultSetting? k))

/-- The value that comes last settles a setting, unless it is a table. -/
theorem merged_eq_winner? {fs : FileSystem} {layers : List Layer} {k : SettingKey}
    (h : ∀ value ∈ winner? fs layers k, value.isTable = false) :
    merged fs layers k = winner? fs layers k := by
  unfold merged winner? given at *
  cases hoverride : (layers.filterMap (overrideSetting? k)).getLast? with
  | some value =>
    have hvalue : value.isTable = false := h value (by rw [hoverride]; rfl)
    simp [Setting.laidOver_of_not_isTable hvalue]
  | none =>
    cases hfiles : (layers.filterMap (fileSetting? fs k)).getLast? with
    | some value =>
      have hvalue : value.isTable = false := h value (by rw [hoverride, hfiles]; rfl)
      obtain ⟨before, hbefore⟩ := List.getLast?_eq_some_iff.mp hfiles
      simp [hbefore, Setting.laidOver_of_not_isTable hvalue]
    | none =>
      rw [List.getLast?_eq_none_iff.mp hfiles]
      rfl

/-! ## Plain layers -/

/-- A key of a file that stands for itself, and is not read as a path with several steps. -/
def IsPlainKey (key : String) : Prop :=
  (KeyPath.ofText? key).getD [.key key] = [.key key]

/-- The keys of a file stand for themselves, and its token settings are a table, if it has any. -/
def IsPlainFile (entries : Table Setting) : Prop :=
  (∀ key ∈ Table.keys entries, IsPlainKey key)
  ∧ ∀ tokens ∈ Table.get? entries "tokens", tokens.isTable

/-- A file, if it is there, can be read and has plain keys; an override is that of a setting that a
configuration is made of. -/
def IsPlain (fs : FileSystem) : Layer → Prop
  | file path _ => ∀ text ∈ fileText? fs path, ∃ entries ∈ Toml.table? text, IsPlainFile entries
  | override key _ => ∃ k : SettingKey, key = k.text

/-- A required file that is not there. -/
def IsMissing (fs : FileSystem) : Layer → Prop
  | file path required => required = true ∧ fileText? fs path = none
  | override .. => False

instance (key : String) : Decidable (IsPlainKey key) :=
  inferInstanceAs (Decidable (_ = _))

instance (entries : Table Setting) : Decidable (IsPlainFile entries) :=
  inferInstanceAs (Decidable (_ ∧ _))

variable {fs : FileSystem} {layers : List Layer}

/-! ## Files -/

theorem readFile_eq_error {path : Path} {required : Bool}
    (hmissing : IsMissing fs (.file path required)) :
    readFile fs path required = .error .missingFile := by
  obtain ⟨rfl, htext⟩ := hmissing
  unfold readFile
  rw [← fileText?, htext]
  rfl

theorem readFile_eq_ok {path : Path} {required : Bool} (hplain : IsPlain fs (.file path required))
    (hpresent : ¬ IsMissing fs (.file path required)) :
    readFile fs path required = .ok ((entries? fs (.file path required)).getD []) := by
  unfold readFile
  rw [← fileText?, entries?]
  cases htext : fileText? fs path with
  | none =>
    have hoptional : ¬ required = true := fun hrequired => hpresent ⟨hrequired, htext⟩
    exact if_neg hoptional
  | some text =>
    obtain ⟨entries, hentries, -⟩ := hplain text htext
    have htable : Toml.table? text = some entries := hentries
    rw [Option.bind_some, htable]
    simp only [htable, Option.getD_some]

/-- A file with plain keys is put over others like a table. -/
theorem putFile_eq {entries : Table Setting} (h : IsPlainFile entries) (s : Setting) :
    putFile s entries = s.putEntries entries := by
  rw [Setting.putEntries_eq_foldl, putFile]
  refine List.foldl_ext _ _ s fun s entry hentry => ?_
  have hkey : (KeyPath.ofText? entry.1).getD [.key entry.1] = [.key entry.1] :=
    h.1 entry.1 (List.mem_map_of_mem hentry)
  rw [hkey, Setting.put]

/-- What a table leaves under a path of two keys, if the first one leads to a table. -/
theorem get?_putEntries_pair (s : Setting) {entries : Table Setting} (hkeys : Toml.Distinct entries)
    {name : String} (htable : ∀ inner ∈ Table.get? entries name, inner.isTable) (next : String) :
    (s.putEntries entries).get? [name, next] =
      Setting.updated (s.get? [name, next]) ((Setting.table entries).get? [name, next]) := by
  rw [Setting.get?_cons_eq_bind _ name, Setting.get?_putEntries s hkeys.keys,
    (Setting.table entries).get?_cons name, Setting.entries]
  cases hget : Table.get? entries name with
  | none => exact (s.get?_cons_eq_bind name [next]).symm
  | some inner =>
    cases inner with
    | table below =>
      have hbelow : (Table.keys below).Nodup := hkeys.inner name _ hget below rfl
      change (Setting.putEntries ((s.get? [name]).getD (.table [])) below).get? [next]
        = Setting.updated (s.get? [name, next]) ((Setting.table below).get? [next])
      rw [Setting.get?_putEntries _ hbelow, Setting.get?_getD_table_nil,
        ← Setting.get?_cons_eq_bind, (Setting.table below).get?_singleton, Setting.entries]
    | _ => exact absurd (htable _ hget) (by simp [Setting.isTable])

/-- What a file leaves of a setting. -/
theorem get?_putFile (s : Setting) {entries : Table Setting} (hplain : IsPlainFile entries)
    (hkeys : Toml.Distinct entries) (k : SettingKey) :
    (putFile s entries).get? k.names =
      Setting.updated (s.get? k.names) ((Setting.table entries).get? k.names) := by
  have hone : ∀ name, (s.putEntries entries).get? [name] =
      Setting.updated (s.get? [name]) ((Setting.table entries).get? [name]) := fun name => by
    rw [Setting.get?_putEntries s hkeys.keys, Setting.get?_singleton (.table entries),
      Setting.entries]
  rw [putFile_eq hplain]
  cases k with
  | rootPath => exact hone _
  | tokensPath => exact hone _
  | sourceFile => exact get?_putEntries_pair s hkeys hplain.2 _
  | outputPath => exact get?_putEntries_pair s hkeys hplain.2 _
  | space => exact get?_putEntries_pair s hkeys hplain.2 _
  | formats => exact get?_putEntries_pair s hkeys hplain.2 _

/-- The files among plain layers have plain keys, and none of them twice. -/
theorem isPlainFile_of_entries? (hplain : ∀ layer ∈ layers, layer.IsPlain fs)
    {entries : Table Setting} (h : entries ∈ layers.filterMap (entries? fs)) :
    IsPlainFile entries ∧ Toml.Distinct entries := by
  obtain ⟨layer, hlayer, hentries⟩ := List.mem_filterMap.mp h
  cases layer with
  | file path required =>
    obtain ⟨text, htext, htable⟩ := Option.bind_eq_some_iff.mp hentries
    obtain ⟨entries', htable', hfile⟩ := hplain _ hlayer text htext
    obtain rfl : entries' = entries := Option.some.inj (htable'.symm.trans htable)
    exact ⟨hfile, Toml.table?_distinct htable⟩
  | override key value => cases hentries

/-- **What files leave of a setting.** -/
theorem get?_foldl_putFile (hplain : ∀ layer ∈ layers, layer.IsPlain fs) (s : Setting)
    (k : SettingKey) :
    ((layers.filterMap (entries? fs)).foldl putFile s).get? k.names =
      (layers.filterMap (fileSetting? fs k)).foldl
        (fun old value => some (Setting.laidOver old value)) (s.get? k.names) := by
  have hfile : ∀ entries ∈ layers.filterMap (entries? fs),
      IsPlainFile entries ∧ Toml.Distinct entries := fun _ h => isPlainFile_of_entries? hplain h
  have hsettings : layers.filterMap (fileSetting? fs k) =
      (layers.filterMap (entries? fs)).filterMap fun entries =>
        (Setting.table entries).get? k.names := by
    rw [List.filterMap_filterMap]
    rfl
  rw [hsettings]
  generalize layers.filterMap (entries? fs) = files at hfile ⊢
  induction files generalizing s with
  | nil => rfl
  | cons entries files ih =>
    obtain ⟨hentries, hkeys⟩ := hfile entries List.mem_cons_self
    rw [List.foldl_cons, ih _ fun entries h => hfile entries (List.mem_cons_of_mem _ h),
      get?_putFile s hentries hkeys, List.filterMap_cons]
    cases (Setting.table entries).get? k.names <;> rfl

/-- Files that are there, or need not be, are put over each other. -/
theorem putFiles_eq_ok (hplain : ∀ layer ∈ layers, layer.IsPlain fs)
    (hpresent : ∀ layer ∈ layers, ¬ layer.IsMissing fs) (s : Setting) :
    putFiles fs s layers = .ok ((layers.filterMap (entries? fs)).foldl putFile s) := by
  induction layers generalizing s with
  | nil => rfl
  | cons layer rest ih =>
    obtain ⟨hfirst, hrest⟩ := List.forall_mem_cons.mp hplain
    obtain ⟨hthere, hothers⟩ := List.forall_mem_cons.mp hpresent
    cases layer with
    | override key value => exact ih hrest hothers s
    | file path required =>
      rw [putFiles, readFile_eq_ok hfirst hthere, List.filterMap_cons]
      cases entries? fs (.file path required) with
      | none => exact ih hrest hothers s
      | some entries => exact ih hrest hothers (putFile s entries)

/-- A required file that is not there is missed. -/
theorem putFiles_eq_error (hplain : ∀ layer ∈ layers, layer.IsPlain fs)
    (hmissing : ∃ layer ∈ layers, layer.IsMissing fs) (s : Setting) :
    putFiles fs s layers = .error .missingFile := by
  induction layers generalizing s with
  | nil => exact absurd hmissing (by simp)
  | cons layer rest ih =>
    obtain ⟨hfirst, hrest⟩ := List.forall_mem_cons.mp hplain
    rw [List.exists_mem_cons_iff] at hmissing
    cases layer with
    | override key value => exact ih hrest (hmissing.resolve_left id) s
    | file path required =>
      rw [putFiles]
      by_cases hthis : IsMissing fs (.file path required)
      · rw [readFile_eq_error hthis]
        rfl
      · rw [readFile_eq_ok hfirst hthis]
        exact ih hrest (hmissing.resolve_left hthis) _

/-! ## Overrides -/

/-- The value of an override, if it is one of the setting. -/
def pick? (k : SettingKey) (o : SettingKey × Setting) : Option Setting :=
  if o.1 = k then some o.2 else none

/-- An override with its path. -/
def keyed (o : SettingKey × Setting) : KeyPath × Setting :=
  (Setting.keyPath o.1.names, o.2)

/-- The overrides among plain layers are overrides of settings. -/
theorem exists_overrides (hplain : ∀ layer ∈ layers, layer.IsPlain fs) :
    ∃ os : List (SettingKey × Setting), overrides layers = .ok (os.map keyed)
      ∧ ∀ k, layers.filterMap (overrideSetting? k) = os.filterMap (pick? k) := by
  induction layers with
  | nil => exact ⟨[], rfl, fun _ => rfl⟩
  | cons layer rest ih =>
    obtain ⟨os, hos, hpick⟩ := ih fun l hl => hplain l (List.mem_cons_of_mem _ hl)
    cases layer with
    | file path required => exact ⟨os, hos, fun k => hpick k⟩
    | override key value =>
      obtain ⟨k', rfl⟩ := hplain _ List.mem_cons_self
      refine ⟨(k', value) :: os, ?_, fun k => ?_⟩
      · rw [overrides, SettingKey.ofText?_text, hos]
        rfl
      · have hiff : k'.text = k.text ↔ k' = k := ⟨SettingKey.text_injective, congrArg _⟩
        simp only [List.filterMap_cons, overrideSetting?, pick?, hiff, hpick]

/-- An override changes the setting that it is of, and no other one. -/
theorem get?_put_keyed (s : Setting) (o : SettingKey × Setting) (k : SettingKey) :
    (s.put (keyed o).2 (keyed o).1).get? k.names =
      Setting.updated (s.get? k.names) (pick? k o) := by
  obtain ⟨k', value⟩ := o
  by_cases hk : k' = k
  · subst hk
    rw [pick?, if_pos rfl]
    cases k' <;> exact Setting.get?_put_self ..
  · rw [pick?, if_neg hk]
    exact Setting.get?_put_of_apart s value (SettingKey.not_names_prefix hk)
      (SettingKey.not_names_prefix (Ne.symm hk))

theorem any_keyed (os : List (SettingKey × Setting)) (o : SettingKey × Setting) :
    ((os.map keyed).any fun o' => o'.1 == (keyed o).1) ↔ ∃ o' ∈ os, o'.1 = o.1 := by
  rw [List.any_map, List.any_eq_true]
  refine exists_congr fun o' => and_congr_right fun _ => beq_iff_eq.trans ?_
  exact ⟨SettingKey.keyPath_injective, congrArg fun k : SettingKey => Setting.keyPath k.names⟩

/-- **What overrides leave of a setting.** -/
theorem get?_foldl_lastOnly (os : List (SettingKey × Setting)) (s : Setting) (k : SettingKey) :
    ((lastOnly (os.map keyed)).foldl (fun s o => s.put o.2 o.1) s).get? k.names =
      Setting.updated (s.get? k.names) (os.filterMap (pick? k)).getLast? := by
  induction os generalizing s with
  | nil => rfl
  | cons o rest ih =>
    have hstep : lastOnly ((o :: rest).map keyed) =
        if (rest.map keyed).any fun o' => o'.1 == (keyed o).1 then lastOnly (rest.map keyed)
        else keyed o :: lastOnly (rest.map keyed) := rfl
    rw [hstep, List.filterMap_cons]
    by_cases hk : o.1 = k
    · have hlater : ((rest.map keyed).any fun o' => o'.1 == (keyed o).1) ↔
          rest.filterMap (pick? k) ≠ [] := by
        rw [any_keyed, hk, ne_eq, List.filterMap_eq_nil_iff]
        simp [pick?]
      rw [pick?, if_pos hk]
      split
      · -- a later override of the setting is there, and takes the place of this one
        rename_i hany
        rw [ih s, List.getLast?_cons, List.getLast?_eq_some_getLast (hlater.mp hany)]
        rfl
      · rename_i hany
        rw [List.foldl_cons, ih, not_not.mp (mt hlater.mpr hany), get?_put_keyed, pick?, if_pos hk]
        rfl
    · rw [pick?, if_neg hk]
      split
      · exact ih s
      · rw [List.foldl_cons, ih, get?_put_keyed, pick?, if_neg hk]
        rfl

/-! ## The token settings -/

/-- The token settings are a table. -/
def HasTokens (s : Setting) : Prop :=
  ∃ entries, s.get? ["tokens"] = some (.table entries)

theorem HasTokens.putFile {s : Setting} (h : HasTokens s) {entries : Table Setting}
    (hplain : IsPlainFile entries) (hkeys : Toml.Distinct entries) :
    HasTokens (putFile s entries) := by
  obtain ⟨old, hold⟩ := h
  unfold HasTokens
  rw [putFile_eq hplain, Setting.get?_putEntries s hkeys.keys, hold]
  cases hget : Table.get? entries "tokens" with
  | none => exact ⟨old, rfl⟩
  | some tokens =>
    cases tokens with
    | table incoming =>
      obtain ⟨new, hnew⟩ := Setting.exists_putEntries_table old incoming
      exact ⟨new, congrArg some hnew⟩
    | _ => exact absurd (hplain.2 _ hget) (by simp [Setting.isTable])

theorem HasTokens.put_keyed {s : Setting} (h : HasTokens s) (o : SettingKey × Setting) :
    HasTokens (s.put (keyed o).2 (keyed o).1) := by
  obtain ⟨old, hold⟩ := h
  obtain ⟨k, value⟩ := o
  -- a setting beside the token settings leaves them alone, and one of them is put into a table
  have hbeside : ∀ name, ["tokens"] ≠ [name] →
      HasTokens (s.put value (Setting.keyPath [name])) := fun name hname =>
    ⟨old, (Setting.get?_put_of_apart s value (by simpa using hname.symm)
      (by simpa using hname)).trans hold⟩
  cases k with
  | rootPath => exact hbeside _ (by decide)
  | tokensPath => exact hbeside _ (by decide)
  | sourceFile => exact Setting.get?_put_head ..
  | outputPath => exact Setting.get?_put_head ..
  | space => exact Setting.get?_put_head ..
  | formats => exact Setting.get?_put_head ..

theorem mem_of_mem_lastOnly {os : List (KeyPath × Setting)} {o : KeyPath × Setting}
    (h : o ∈ lastOnly os) : o ∈ os := by
  induction os with
  | nil => exact h
  | cons first rest ih =>
    rw [lastOnly] at h
    split at h
    · exact List.mem_cons_of_mem _ (ih h)
    · rcases List.mem_cons.mp h with rfl | h
      · exact List.mem_cons_self
      · exact List.mem_cons_of_mem _ (ih h)

/-! ## The settings -/

theorem settings_eq_ok {os : List (KeyPath × Setting)} {files : Setting}
    (hoverrides : overrides layers = .ok os)
    (hfiles : putFiles fs (.table defaults) layers = .ok files) :
    settings fs layers = .ok ((lastOnly os).foldl (fun s o => s.put o.2 o.1) files) := by
  unfold settings
  rw [hoverrides, hfiles]
  rfl

/-- **The settings that plain layers make** if no required file is missing. -/
theorem exists_settings (hplain : ∀ layer ∈ layers, layer.IsPlain fs)
    (hpresent : ∀ layer ∈ layers, ¬ layer.IsMissing fs) :
    ∃ s, settings fs layers = .ok s ∧ HasTokens s
      ∧ ∀ k : SettingKey, s.get? k.names = merged fs layers k := by
  obtain ⟨os, hos, hpick⟩ := exists_overrides hplain
  refine ⟨_, settings_eq_ok hos (putFiles_eq_ok hplain hpresent _), ?_, fun k => ?_⟩
  · refine List.foldlRecOn _ _ (List.foldlRecOn _ _ ⟨_, rfl⟩ ?_) ?_
    · intro s hs entries hentries
      obtain ⟨hfile, hkeys⟩ := isPlainFile_of_entries? hplain hentries
      exact hs.putFile hfile hkeys
    · intro s hs o ho
      obtain ⟨o, -, rfl⟩ := List.mem_map.mp (mem_of_mem_lastOnly ho)
      exact hs.put_keyed o
  · rw [get?_foldl_lastOnly, get?_foldl_putFile hplain, merged, given, List.foldl_append, hpick]
    cases (os.filterMap (pick? k)).getLast? <;> rfl

theorem settings_eq_error (hplain : ∀ layer ∈ layers, layer.IsPlain fs)
    (hmissing : ∃ layer ∈ layers, layer.IsMissing fs) :
    settings fs layers = .error .missingFile := by
  obtain ⟨os, hos, -⟩ := exists_overrides hplain
  unfold settings
  rw [hos, putFiles_eq_error hplain hmissing]
  rfl

/-! ## Where overrides stand -/

theorem overrides_filter (layers : List Layer) :
    overrides (layers.filter fun layer => !layer.isFile) = overrides layers := by
  induction layers with
  | nil => rfl
  | cons layer rest ih =>
    cases layer with
    | file path required => exact ih
    | override key value =>
      rw [List.filter_cons_of_pos rfl, overrides, overrides, ih]

theorem putFiles_filter (s : Setting) (layers : List Layer) :
    putFiles fs s (layers.filter isFile) = putFiles fs s layers := by
  induction layers generalizing s with
  | nil => rfl
  | cons layer rest ih =>
    cases layer with
    | override key value => exact ih s
    | file path required =>
      rw [List.filter_cons_of_pos rfl, putFiles, putFiles]
      exact congrArg _ (funext fun entries => ih _)

/-- The settings depend on the files in their order and on the overrides in theirs, and not on how
they stand among each other. -/
theorem settings_congr {layers' : List Layer}
    (hfiles : layers'.filter isFile = layers.filter isFile)
    (hoverrides : (layers'.filter fun layer => !layer.isFile)
      = layers.filter fun layer => !layer.isFile) :
    settings fs layers' = settings fs layers := by
  unfold settings
  rw [← overrides_filter, hoverrides, overrides_filter, ← putFiles_filter _ layers', hfiles,
    putFiles_filter]

end Layer

namespace Configuration

variable {fs : FileSystem} {layers : List Layer}

theorem load_eq_ok {config : Configuration} :
    load fs layers = .ok config ↔ ∃ s, Layer.settings fs layers = .ok s ∧
      ofSettings s = .ok config ∧ checkName config.tokens.space = .ok () := by
  unfold load
  simp only [bind_eq_ok, pure, Except.pure, Except.ok.injEq]
  constructor
  · rintro ⟨s, hs, _, hread, _, hname, rfl⟩
    exact ⟨s, hs, hread, hname⟩
  · rintro ⟨s, hs, hread, hname⟩
    exact ⟨s, hs, config, hread, (), hname, rfl⟩

/-- **Precedence of layers.** With plain layers, a required file that is not there is missed, and
otherwise the layers make a configuration exactly if the values that they make of its settings do.
The value that comes last settles a setting unless it is a table, and it does not matter how the
overrides stand among the files. -/
theorem load_precedence (hplain : ∀ layer ∈ layers, layer.IsPlain fs) :
    ((∃ layer ∈ layers, layer.IsMissing fs) → load fs layers = .error .missingFile)
    ∧ ((∀ layer ∈ layers, ¬ layer.IsMissing fs) →
      (∃ s, Layer.settings fs layers = .ok s
        ∧ ∀ k : SettingKey, s.get? k.names = Layer.merged fs layers k)
      ∧ (∀ k, (∀ value ∈ Layer.winner? fs layers k, value.isTable = false) →
        Layer.merged fs layers k = Layer.winner? fs layers k)
      ∧ ∀ config, load fs layers = .ok config ↔ config.Reads (Layer.merged fs layers))
    ∧ ∀ layers' : List Layer, layers'.filter Layer.isFile = layers.filter Layer.isFile →
      ((layers'.filter fun layer => !layer.isFile) = layers.filter fun layer => !layer.isFile) →
      load fs layers' = load fs layers := by
  refine ⟨fun hmissing => ?_, fun hpresent => ?_, fun layers' hfiles hoverrides => ?_⟩
  · unfold load
    rw [Layer.settings_eq_error hplain hmissing]
    rfl
  · obtain ⟨s, hs, htokens, hmerged⟩ := Layer.exists_settings hplain hpresent
    refine ⟨⟨s, hs, hmerged⟩, fun k => Layer.merged_eq_winner?, fun config => ?_⟩
    rw [load_eq_ok, ← funext hmerged, ← ofSettings_iff htokens]
    constructor
    · rintro ⟨s', hs', hread⟩
      rw [Except.ok.inj (hs.symm.trans hs')]
      exact hread
    · exact fun hread => ⟨s, hs, hread⟩
  · unfold load
    rw [Layer.settings_congr hfiles hoverrides]

/-- A project with two settings files. -/
def twoFiles : FileSystem where
  root := .directory [("work", .directory [
    ("base.toml", .file "root_path = \"web\"\ntokens = \x7b namespace = \"base\" \x7d\n".toUTF8),
    ("tokens.toml", .file "[tokens]\nnamespace = \"team\"\nformats = [\"json\"]\n".toUTF8)])]
  current := ["work"]

/-- Both files and one that is not there, with overrides before, between and after them. -/
def interleaved : List Layer :=
  [.override "tokens.namespace" (.text "first"), .file ⟨"base.toml"⟩ true,
    .override "tokens.output_path" (.text "dist"), .file ⟨"absent.toml"⟩ false,
    .file ⟨"tokens.toml"⟩ true, .override "tokens.namespace" (.text "last")]

theorem isPlain_interleaved : ∀ layer ∈ interleaved, layer.IsPlain twoFiles := by
  have hfile : ∀ path ∈ ([⟨"base.toml"⟩, ⟨"absent.toml"⟩, ⟨"tokens.toml"⟩] : List Path),
      ∀ text ∈ Layer.fileText? twoFiles path,
        ∃ entries ∈ Toml.table? text, Layer.IsPlainFile entries := by decide +kernel
  simp only [interleaved, List.forall_mem_cons]
  exact ⟨⟨.space, rfl⟩, hfile _ (by decide), ⟨.outputPath, rfl⟩, hfile _ (by decide),
    hfile _ (by decide), ⟨.space, rfl⟩, List.forall_mem_nil _⟩

theorem load_precedence_twoFiles :
    (∃ config, load twoFiles interleaved = .ok config
      ∧ config.rootPath = ⟨"web"⟩ ∧ config.tokens.space = "last")
    ∧ load twoFiles (interleaved.filter Layer.isFile
        ++ interleaved.filter fun layer => !layer.isFile) = load twoFiles interleaved
    ∧ load twoFiles (.file ⟨"absent.toml"⟩ true :: interleaved) = .error .missingFile := by
  have habsent : Layer.fileText? twoFiles ⟨"absent.toml"⟩ = none := by decide +kernel
  have hpresent : ∀ layer ∈ interleaved, ¬ layer.IsMissing twoFiles := by
    have hfile : ∀ path ∈ ([⟨"base.toml"⟩, ⟨"tokens.toml"⟩] : List Path),
        Layer.fileText? twoFiles path ≠ none := by decide +kernel
    simp only [interleaved, List.forall_mem_cons]
    exact ⟨id, fun h => hfile _ (by decide) h.2, id, fun h => absurd h.1 (by decide),
      fun h => hfile _ (by decide) h.2, id, List.forall_mem_nil _⟩
  obtain ⟨-, hsettled, hmoved⟩ := load_precedence isPlain_interleaved
  obtain ⟨-, hwinner, hload⟩ := hsettled hpresent
  have hroot : (Layer.merged twoFiles interleaved .rootPath).bind Setting.text? = some "web" := by
    rw [hwinner .rootPath (by decide +kernel)]
    decide +kernel
  have hspace : (Layer.merged twoFiles interleaved .space).bind Setting.text? = some "last" := by
    rw [hwinner .space (by decide +kernel)]
    decide +kernel
  obtain ⟨config, hconfig⟩ : ∃ config, load twoFiles interleaved = .ok config :=
    exists_of_isOk (by decide +kernel)
  refine ⟨?_, hmoved _ rfl rfl, (load_precedence ?_).1 ⟨_, List.mem_cons_self, rfl, habsent⟩⟩
  · have hreads := (hload config).mp hconfig
    refine ⟨config, hconfig, ?_, Option.some.inj (hreads.space.symm.trans hspace)⟩
    exact congrArg Path.mk (Option.some.inj (hreads.rootPath.symm.trans hroot))
  · refine List.forall_mem_cons.mpr ⟨fun text htext => ?_, isPlain_interleaved⟩
    rw [habsent] at htext
    cases htext

end Configuration

namespace Layer

/-- A project whose settings file gives an empty table for the root path. -/
def emptyRootPath : FileSystem where
  root := .directory [("work", .directory [("tokens.toml", .file "root_path = \x7b\x7d\n".toUTF8)])]
  current := ["work"]

theorem entries?_emptyRootPath :
    entries? emptyRootPath (.file ⟨"tokens.toml"⟩ false) = some [("root_path", .table [])] := by
  have hshape : (entries? emptyRootPath (.file ⟨"tokens.toml"⟩ false)).map (fun entries =>
      entries.map fun e => (e.1, e.2.isTable, e.2.entries.length))
        = some [("root_path", true, 0)] := by decide +kernel
  obtain ⟨entries, hentries, hmap⟩ := Option.map_eq_some_iff.mp hshape
  obtain ⟨⟨key, s⟩, rfl, hentry⟩ := List.map_eq_singleton_iff.mp hmap
  obtain ⟨rfl, hrest⟩ : key = "root_path" ∧ (s.isTable, s.entries.length) = (true, 0) :=
    Prod.mk.inj hentry
  obtain ⟨htable, hlength⟩ := Prod.mk.inj hrest
  rw [hentries, Setting.eq_table_of_isTable htable, List.length_eq_zero_iff.mp hlength]

/-- **An empty table is not the value of the setting that it is given for.** It is merged into the
default, which is a text, and the layers make a configuration. -/
theorem settings_emptyTable :
    (∀ layer ∈ [Layer.file ⟨"tokens.toml"⟩ false], layer.IsPlain emptyRootPath)
    ∧ winner? emptyRootPath [.file ⟨"tokens.toml"⟩ false] .rootPath = some (.table [])
    ∧ (∃ s, settings emptyRootPath [.file ⟨"tokens.toml"⟩ false] = .ok s
      ∧ s.get? ["root_path"] = some (.text "."))
    ∧ ∃ config, Configuration.load emptyRootPath [.file ⟨"tokens.toml"⟩ false] = .ok config := by
  have hplain : ∀ layer ∈ [Layer.file ⟨"tokens.toml"⟩ false], layer.IsPlain emptyRootPath := by
    have hfile : ∀ text ∈ fileText? emptyRootPath ⟨"tokens.toml"⟩,
        ∃ entries ∈ Toml.table? text, IsPlainFile entries := by decide +kernel
    exact List.forall_mem_singleton.mpr hfile
  have hpresent : ∀ layer ∈ [Layer.file ⟨"tokens.toml"⟩ false], ¬ layer.IsMissing emptyRootPath :=
    List.forall_mem_singleton.mpr fun h => absurd h.1 (by decide)
  have hgiven : [Layer.file ⟨"tokens.toml"⟩ false].filterMap (fileSetting? emptyRootPath .rootPath)
      = [.table []] := by
    rw [List.filterMap_cons, fileSetting?, entries?_emptyRootPath]
    rfl
  obtain ⟨s, hs, -, hmerged⟩ := exists_settings hplain hpresent
  refine ⟨hplain, ?_, ⟨s, hs, (hmerged .rootPath).trans ?_⟩, ?_⟩
  · rw [winner?, hgiven]
    rfl
  · rw [merged, given, hgiven]
    rfl
  · exact exists_of_isOk (by decide +kernel)

end Layer

end DesignTokens
