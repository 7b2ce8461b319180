import DesignTokens.Proofs.Table
import DesignTokens.Toml.Document

/-!
# A document gives no key twice

The keys of a document are distinct, and so are those of the tables right under its keys, wherever
their entries come from: paths with points in the body, tables in braces, and later sections. Tables
are built by insertion alone, and a section is refused if it gives a key that is there.

* `Body.table?_distinct`: the table of a body;
* `table?_distinct`: the table of a document.
-/

namespace DesignTokens.Toml

/-- A setting that gives no key twice, if it is a table. -/
def KeyedOnce (s : Setting) : Prop :=
  ∀ entries, s = .table entries → (Table.keys entries).Nodup

/-- A table that gives no key twice, and neither does a table under one of its keys. -/
structure Distinct (entries : Table Setting) : Prop where
  keys : (Table.keys entries).Nodup
  inner : ∀ key s, Table.get? entries key = some s → KeyedOnce s

theorem Distinct.nil : Distinct [] :=
  ⟨List.nodup_nil, fun _ _ h => absurd h (by simp [Table.get?])⟩

theorem Distinct.insert {entries : Table Setting} (h : Distinct entries) (key : String)
    {s : Setting} (hs : KeyedOnce s) : Distinct (Table.insert entries key s) where
  keys := Table.nodup_keys_insert h.keys key s
  inner := Table.forall_get?_insert h.inner key hs

/-! ## Bodies -/

theorem nodup_keys_graft {entries : Table Setting} (h : (Table.keys entries).Nodup)
    (path : List String) (value : Setting) : (Table.keys (graft entries path value)).Nodup := by
  fun_cases graft entries path value with
  | case1 => exact h
  | case2 key => exact Table.nodup_keys_insert h key value
  | case3 key keys => exact Table.nodup_keys_insert h key _

theorem Distinct.graft {entries : Table Setting} (h : Distinct entries) (path : List String)
    {value : Setting} (hvalue : KeyedOnce value) : Distinct (graft entries path value) := by
  fun_cases Toml.graft entries path value with
  | case1 => exact h
  | case2 key => exact h.insert key hvalue
  | case3 key keys _ hne inner =>
    refine h.insert key fun entries' heq => ?_
    rw [← Setting.table.inj heq]
    refine nodup_keys_graft ?_ keys value
    -- what is grafted on is a table under a key, or an empty one
    cases hget : Table.get? entries key with
    | none => simp [inner, hget, Table.keys]
    | some s =>
      cases s with
      | table below =>
        simp only [inner, hget]
        exact h.inner key _ hget below rfl
      | _ => simp [inner, hget, Table.keys]

/-- What holds of the empty table and is kept by grafting holds of the table of a body. -/
theorem Body.table?_induction {motive : Table Setting → Prop} {body : Body}
    {entries : Table Setting} (h : Body.table? body = some entries) (hnil : motive [])
    (hgraft : ∀ entries, motive entries → ∀ pair ∈ body,
      motive (Toml.graft entries pair.1 pair.2)) : motive entries := by
  unfold Body.table? at h
  split at h
  · rw [← Option.some.inj h]
    exact List.foldlRecOn body _ hnil hgraft
  · exact absurd h (by simp)

theorem Body.nodup_keys_table? {body : Body} {entries : Table Setting}
    (h : Body.table? body = some entries) : (Table.keys entries).Nodup :=
  table?_induction (motive := fun t => (Table.keys t).Nodup) h List.nodup_nil
    fun _ hentries pair _ => nodup_keys_graft hentries pair.1 pair.2

/-- **The table of a body.** -/
theorem Body.table?_distinct {body : Body} {entries : Table Setting}
    (h : Body.table? body = some entries) (hvalues : ∀ pair ∈ body, KeyedOnce pair.2) :
    Distinct entries :=
  table?_induction h .nil fun _ hentries pair hpair => hentries.graft pair.1 (hvalues pair hpair)

/-! ## Values -/

theorem Number.integer?_eq_some {n : Int} {s : Setting} (h : integer? n = some s) :
    s = .int n := by
  unfold integer? at h
  split at h
  · exact (Option.some.inj h).symm
  · exact absurd h (by simp)

/-- A number is an integer or a floating-point number. -/
def Number.IsNumber : Setting → Prop
  | .int _ => True
  | .float _ => True
  | _ => False

theorem Number.isNumber_inBase? {base : Nat} {cs rest : List Char} {s : Setting}
    (h : inBase? base cs = some (s, rest)) : IsNumber s := by
  unfold inBase? at h
  simp only [bind, Option.bind_eq_some_iff, Option.some.injEq, Prod.mk.injEq] at h
  obtain ⟨_, _, n, hn, rfl, _⟩ := h
  rw [integer?_eq_some hn]
  trivial

theorem Number.isNumber_decimal? {negative : Bool} {cs rest : List Char} {s : Setting}
    (h : decimal? negative cs = some (s, rest)) : IsNumber s := by
  unfold decimal? at h
  simp only [bind, Option.bind_eq_some_iff] at h
  obtain ⟨_, _, _, _, _, _, h⟩ := h
  split at h
  · simp only [Option.bind_eq_some_iff, Option.some.injEq, Prod.mk.injEq] at h
    obtain ⟨n, hn, rfl, _⟩ := h
    rw [integer?_eq_some hn]
    trivial
  · split at h
    · obtain ⟨rfl, _⟩ := Prod.mk.inj (Option.some.inj h)
      trivial
    · exact absurd h (by simp)

theorem Number.isNumber_magnitude? {negative : Bool} {cs rest : List Char} {s : Setting}
    (h : magnitude? negative cs = some (s, rest)) : IsNumber s := by
  unfold magnitude? at h
  split at h
  · obtain ⟨rfl, _⟩ := Prod.mk.inj (Option.some.inj h)
    trivial
  · obtain ⟨rfl, _⟩ := Prod.mk.inj (Option.some.inj h)
    trivial
  · exact isNumber_decimal? h

theorem Number.isNumber_read? {cs rest : List Char} {s : Setting}
    (h : read? cs = some (s, rest)) : IsNumber s := by
  have hunplussed : ∀ {cs : List Char}, unplussed? cs = some (s, rest) → IsNumber s := by
    intro cs h
    unfold unplussed? at h
    split at h
    · exact isNumber_inBase? h
    · exact isNumber_inBase? h
    · exact isNumber_inBase? h
    · exact isNumber_magnitude? h
    · exact isNumber_magnitude? h
  unfold read? at h
  split at h
  · exact hunplussed h
  · exact hunplussed h

/-- A value without other values in it is no table. -/
theorem scalar?_ne_table {cs rest : List Char} {entries : Table Setting} :
    scalar? cs ≠ some (.table entries, rest) := by
  intro h
  unfold scalar? at h
  split at h
  · simp at h
  · simp at h
  · simp at h
  · simp at h
  · split at h
    · simp at h
    · exact Number.isNumber_read? h

/-- A value in braces is the table of a body, and no other value is a table. -/
theorem keyedOnce_value? {fuel cs rest : List Char} {s : Setting}
    (h : value? fuel cs = some (s, rest)) : KeyedOnce s := by
  rintro entries rfl
  unfold value? at h
  split at h
  · exact absurd h (by simp)
  · simp [bind, Option.bind_eq_some_iff] at h
  · split at h
    · simp at h
      obtain ⟨rfl, _⟩ := h
      exact List.nodup_nil
    · simp only [bind, Option.bind_eq_some_iff, Option.some.injEq, Prod.mk.injEq,
        Setting.table.injEq] at h
      obtain ⟨_, _, _, hentries, rfl, _⟩ := h
      exact Body.nodup_keys_table? hentries
  · exact absurd h scalar?_ne_table

/-! ## Sections -/

/-- A body whose values give no key twice. -/
def Body.KeyedOnce (body : Body) : Prop :=
  ∀ pair ∈ body, Toml.KeyedOnce pair.2

theorem keyedOnce_pair? {cs rest : List Char} {pair : List String × Setting}
    (h : pair? cs = some (pair, rest)) : KeyedOnce pair.2 := by
  unfold pair? at h
  simp only [bind, Option.bind_eq_some_iff] at h
  obtain ⟨_, _, h⟩ := h
  split at h
  · simp only [Option.bind_eq_some_iff, Option.some.injEq, Prod.mk.injEq] at h
    obtain ⟨_, hvalue, _, _, rfl, _⟩ := h
    exact keyedOnce_value? hvalue
  · exact absurd h (by simp)

theorem keyedOnce_sections? {fuel cs : List Char} {body : Body} {later : List Section}
    (h : sections? fuel cs = some (body, later)) :
    body.KeyedOnce ∧ ∀ s ∈ later, s.body.KeyedOnce := by
  induction fuel generalizing cs body later with
  | nil =>
    obtain ⟨rfl, rfl⟩ := Prod.mk.inj (Option.some.inj h)
    exact ⟨List.forall_mem_nil _, List.forall_mem_nil _⟩
  | cons c fuel ih =>
    -- a header opens a section with the body behind it, and leaves none to the section before it
    have hheader : ∀ {path : List String} {repeated : Bool} {cs' : List Char}
        {r : Body × List Section}, sections? fuel cs' = some r →
        ([], ⟨path, repeated, r.1⟩ :: r.2) = (body, later) →
        body.KeyedOnce ∧ ∀ s ∈ later, s.body.KeyedOnce := by
      rintro path repeated cs' ⟨inner, sections⟩ hr heq
      obtain ⟨rfl, rfl⟩ := Prod.mk.inj heq
      obtain ⟨hinner, hsections⟩ := ih hr
      exact ⟨List.forall_mem_nil _, List.forall_mem_cons.mpr ⟨hinner, hsections⟩⟩
    unfold sections? at h
    simp only [bind, Option.bind_eq_some_iff] at h
    obtain ⟨_, _, h⟩ := h
    split at h
    · obtain ⟨rfl, rfl⟩ := Prod.mk.inj (Option.some.inj h)
      exact ⟨List.forall_mem_nil _, List.forall_mem_nil _⟩
    · simp only [Option.bind_eq_some_iff, Option.some.injEq] at h
      obtain ⟨_, _, r, hr, heq⟩ := h
      exact hheader hr heq
    · simp only [Option.bind_eq_some_iff, Option.some.injEq] at h
      obtain ⟨_, _, r, hr, heq⟩ := h
      exact hheader hr heq
    · simp only [Option.bind_eq_some_iff, Option.some.injEq] at h
      obtain ⟨⟨pair, rest⟩, hpair, ⟨inner, sections⟩, hr, heq⟩ := h
      obtain ⟨rfl, rfl⟩ := Prod.mk.inj heq
      obtain ⟨hinner, hsections⟩ := ih hr
      exact ⟨List.forall_mem_cons.mpr ⟨keyedOnce_pair? hpair, hinner⟩, hsections⟩

/-! ## Assembly -/

namespace Item

/-- An item that gives no key twice, if it is a table. -/
def KeyedOnce : Item → Prop
  | value s => Toml.KeyedOnce s
  | table _ entries => (Table.keys entries).Nodup
  | tables _ => True

/-- The items of a table that gives no key twice, and neither does an item under one of its keys. -/
structure Distinct (entries : Table Item) : Prop where
  keys : (Table.keys entries).Nodup
  inner : ∀ key item, Table.get? entries key = some item → item.KeyedOnce

theorem Distinct.insert {entries : Table Item} (h : Distinct entries) (key : String)
    {item : Item} (hitem : item.KeyedOnce) : Distinct (Table.insert entries key item) where
  keys := Table.nodup_keys_insert h.keys key item
  inner := Table.forall_get?_insert h.inner key hitem

theorem keys_ofEntries (entries : Table Setting) :
    Table.keys (ofEntries entries) = Table.keys entries := by
  simp [Table.keys, ofEntries]

theorem get?_ofEntries (entries : Table Setting) (key : String) :
    Table.get? (ofEntries entries) key = (Table.get? entries key).map .value := by
  induction entries with
  | nil => rfl
  | cons entry rest ih =>
    obtain ⟨k, s⟩ := entry
    change Table.get? ((k, .value s) :: ofEntries rest) key = _
    rw [Table.get?_cons, Table.get?_cons, ih]
    split <;> rfl

theorem Distinct.ofEntries {entries : Table Setting} (h : Toml.Distinct entries) :
    Distinct (ofEntries entries) := by
  refine ⟨keys_ofEntries entries ▸ h.keys, fun key item hitem => ?_⟩
  rw [get?_ofEntries] at hitem
  obtain ⟨s, hs, rfl⟩ := Option.map_eq_some_iff.mp hitem
  exact h.inner key s hs

/-- The body of a section may come to a table that is there only if it gives none of its keys. -/
theorem keyedOnce_addBody {repeated : Bool} {body : Table Setting} {old : Option Item}
    {new : Item} (hbody : (Table.keys body).Nodup) (hold : ∀ item, old = some item → item.KeyedOnce)
    (h : addBody repeated body old = some new) : new.KeyedOnce := by
  have hitems : (Table.keys (Item.ofEntries body)).Nodup := by rwa [keys_ofEntries]
  unfold addBody at h
  split at h
  · rw [← Option.some.inj h]
    cases repeated
    · exact hitems
    · trivial
  · rename_i entries
    split at h
    · exact absurd h (by simp)
    · rename_i hfree
      rw [← Option.some.inj h]
      have hentries : (Table.keys entries).Nodup := hold _ rfl
      have hapart : ∀ key ∈ Table.keys entries, ∀ other ∈ Table.keys body, key ≠ other := by
        rintro key hkey other hother rfl
        obtain ⟨e, he, rfl⟩ := List.mem_map.mp hother
        refine hfree (Bool.or_eq_true _ _ |>.mpr (.inr (List.any_eq_true.mpr ⟨e, he, ?_⟩)))
        exact Table.isSome_get?.mpr hkey
      change (Table.keys (entries ++ Item.ofEntries body)).Nodup
      rw [Table.keys, List.map_append]
      refine List.nodup_append.mpr ⟨hentries, hitems, fun key hkey other hother => ?_⟩
      exact hapart key hkey other (keys_ofEntries body ▸ hother)
  · split at h
    · rw [← Option.some.inj h]
      trivial
    · exact absurd h (by simp)
  · exact absurd h (by simp)

/-- What a section adds stands under the first key of its path. -/
theorem add?_eq_insert {repeated : Bool} {body : Table Setting} {entries entries' : Table Item}
    {path : List String} (h : add? repeated body entries path = some entries') :
    ∃ key item, entries' = Table.insert entries key item := by
  unfold add? at h
  split at h
  · exact absurd h (by simp)
  · obtain ⟨item, _, rfl⟩ := Option.map_eq_some_iff.mp h
    exact ⟨_, item, rfl⟩
  · split at h
    all_goals simp only [bind, Option.bind_eq_some_iff, Option.some.injEq, reduceCtorEq] at h
    all_goals obtain ⟨_, _, rfl⟩ := h
    all_goals exact ⟨_, _, rfl⟩

theorem nodup_keys_add? {repeated : Bool} {body : Table Setting} {entries entries' : Table Item}
    {path : List String} (hentries : (Table.keys entries).Nodup)
    (h : add? repeated body entries path = some entries') : (Table.keys entries').Nodup := by
  obtain ⟨key, item, rfl⟩ := add?_eq_insert h
  exact Table.nodup_keys_insert hentries key item

theorem Distinct.add? {repeated : Bool} {body : Table Setting} {entries entries' : Table Item}
    {path : List String} (hbody : (Table.keys body).Nodup) (hentries : Distinct entries)
    (h : add? repeated body entries path = some entries') : Distinct entries' := by
  unfold Item.add? at h
  split at h
  · exact absurd h (by simp)
  · obtain ⟨item, hitem, rfl⟩ := Option.map_eq_some_iff.mp h
    exact hentries.insert _ (keyedOnce_addBody hbody (hentries.inner _) hitem)
  · split at h
    · simp only [bind, Option.bind_eq_some_iff, Option.some.injEq] at h
      obtain ⟨inner, hinner, rfl⟩ := h
      have hempty : (Table.keys ([] : Table Item)).Nodup := List.nodup_nil
      exact hentries.insert _ (nodup_keys_add? hempty hinner)
    · rename_i hold
      simp only [bind, Option.bind_eq_some_iff, Option.some.injEq] at h
      obtain ⟨inner, hinner, rfl⟩ := h
      exact hentries.insert _ (nodup_keys_add? (hentries.inner _ _ hold) hinner)
    · simp only [bind, Option.bind_eq_some_iff, Option.some.injEq] at h
      obtain ⟨inner, hinner, rfl⟩ := h
      exact hentries.insert _ trivial
    · exact absurd h (by simp)

theorem keys_toEntries (entries : Table Item) :
    Table.keys (toEntries entries) = Table.keys entries := by
  induction entries with
  | nil => rw [toEntries]; rfl
  | cons entry rest ih =>
    rw [toEntries]
    exact congrArg (entry.1 :: ·) ih

theorem get?_toEntries (entries : Table Item) (key : String) :
    Table.get? (toEntries entries) key = (Table.get? entries key).map toSetting := by
  induction entries with
  | nil => rw [toEntries]; rfl
  | cons entry rest ih =>
    obtain ⟨k, item⟩ := entry
    rw [toEntries, Table.get?_cons, Table.get?_cons, ih]
    split <;> rfl

theorem KeyedOnce.toSetting {item : Item} (h : item.KeyedOnce) : Toml.KeyedOnce item.toSetting := by
  intro entries heq
  cases item with
  | value s =>
    rw [Item.toSetting] at heq
    exact h entries heq
  | table given inner =>
    rw [Item.toSetting] at heq
    rw [← Setting.table.inj heq, keys_toEntries]
    exact h
  | tables items =>
    rw [Item.toSetting] at heq
    cases heq

theorem Distinct.toEntries {entries : Table Item} (h : Distinct entries) :
    Toml.Distinct (toEntries entries) := by
  refine ⟨keys_toEntries entries ▸ h.keys, fun key s hs => ?_⟩
  rw [get?_toEntries] at hs
  obtain ⟨item, hitem, rfl⟩ := Option.map_eq_some_iff.mp hs
  exact (h.inner key item hitem).toSetting

end Item

theorem Section.distinct_addTo? {entries entries' : Table Item} {s : Section}
    (hentries : Item.Distinct entries) (h : addTo? entries s = some entries') :
    Item.Distinct entries' := by
  unfold addTo? at h
  simp only [bind, Option.bind_eq_some_iff] at h
  obtain ⟨body, hbody, h⟩ := h
  exact hentries.add? (Body.nodup_keys_table? hbody) h

theorem Section.distinct_foldlM {sections : List Section} {entries entries' : Table Item}
    (hentries : Item.Distinct entries) (h : sections.foldlM addTo? entries = some entries') :
    Item.Distinct entries' := by
  induction sections generalizing entries with
  | nil => exact Option.some.inj h ▸ hentries
  | cons s rest ih =>
    rw [List.foldlM_cons] at h
    obtain ⟨next, hnext, h⟩ := Option.bind_eq_some_iff.mp h
    exact ih (distinct_addTo? hentries hnext) h

/-- **The table of a document.** -/
theorem table?_distinct {text : String} {entries : Table Setting}
    (h : table? text = some entries) : Distinct entries := by
  unfold table? at h
  simp only [bind, Option.bind_eq_some_iff, Option.some.injEq] at h
  obtain ⟨⟨body, sections⟩, hsections, root, hroot, items, hitems, rfl⟩ := h
  have hbody : body.KeyedOnce := (keyedOnce_sections? hsections).1
  exact (Section.distinct_foldlM (.ofEntries (Body.table?_distinct hroot hbody)) hitems).toEntries

end DesignTokens.Toml
