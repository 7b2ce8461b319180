import DesignTokens.Proofs.Table
import DesignTokens.Settings.KeyPath

/-!
# Setting a value

What stands under a path of keys (`Setting.get?`) after a value was put somewhere. Under the path of
the value it is the value, laid over what was there (`Setting.laidOver`). Under a path that is apart
from it, so that neither begins with the other, nothing changes.

* `get?_put_self` and `get?_put_of_apart`: one value at the end of a path;
* `get?_putEntries`: all entries of a table, each under its own key.
-/

namespace DesignTokens.Setting

/-- The setting under a path of keys. -/
def get? (s : Setting) : List String → Option Setting
  | [] => some s
  | name :: rest => (Table.get? s.entries name).bind fun inner => inner.get? rest

/-- A value in the place of another one, if there is one: a table is merged into it, and all other
values stand for themselves. -/
def laidOver (old : Option Setting) : Setting → Setting
  | table incoming => putEntries (old.getD (table [])) incoming
  | value => value

/-- Whether a setting is a table. -/
def isTable : Setting → Bool
  | table _ => true
  | _ => false

theorem eq_table_of_isTable {s : Setting} (h : s.isTable) : s = table s.entries := by
  cases s with
  | table => rfl
  | _ => cases h

theorem laidOver_of_not_isTable {s : Setting} (h : s.isTable = false) (old : Option Setting) :
    laidOver old s = s := by
  cases s with
  | table => cases h
  | _ => rfl

theorem get?_cons (s : Setting) (name : String) (rest : List String) :
    s.get? (name :: rest) = (Table.get? s.entries name).bind fun inner => inner.get? rest :=
  rfl

theorem get?_singleton (s : Setting) (name : String) :
    s.get? [name] = Table.get? s.entries name :=
  Option.bind_fun_some _

/-- The first key leads to a setting, and the others lead on from it. -/
theorem get?_cons_eq_bind (s : Setting) (name : String) (rest : List String) :
    s.get? (name :: rest) = (s.get? [name]).bind fun inner => inner.get? rest := by
  rw [get?_singleton, get?_cons]

/-- Nothing stands under a setting that is not there. -/
theorem get?_getD_nil (s : Option Setting) (name : String) (rest : List String) :
    (s.getD nil).get? (name :: rest) = s.bind fun inner => inner.get? (name :: rest) := by
  cases s <;> rfl

theorem get?_getD_table_nil (s : Option Setting) (name : String) (rest : List String) :
    (s.getD (table [])).get? (name :: rest) = s.bind fun inner => inner.get? (name :: rest) := by
  cases s <;> rfl

/-! ## One value -/

theorem putKey_eq (s : Setting) (key : String) (value : Setting) :
    s.putKey key value = table (Table.insert s.entries key (laidOver (s.get? [key]) value)) := by
  rw [get?_singleton]
  cases value <;> rw [putKey, laidOver]
  all_goals simp

theorem get?_table_insert (entries : Table Setting) (key : String) (value : Setting)
    (name : String) (rest : List String) :
    (table (Table.insert entries key value)).get? (name :: rest) =
      if name = key then value.get? rest else (table entries).get? (name :: rest) := by
  rw [get?_cons, Setting.entries, Table.get?_insert]
  split
  · rfl
  · rfl

/-- The path of keys with the given names. -/
def keyPath (names : List String) : KeyPath :=
  names.map .key

theorem put_keyPath_singleton (s : Setting) (value : Setting) (name : String) :
    s.put value (keyPath [name]) = s.putKey name value := by
  rw [keyPath, List.map_singleton, put]

theorem put_keyPath_cons (s : Setting) (value : Setting) (name next : String)
    (rest : List String) :
    s.put value (keyPath (name :: next :: rest)) =
      table (Table.insert s.entries name
        (((s.get? [name]).getD nil).put value (keyPath (next :: rest)))) := by
  rw [get?_singleton, keyPath, List.map_cons, List.map_cons, put, keyPath, List.map_cons]
  simp

/-- **What is put under a path.** -/
theorem get?_put_self (s value : Setting) (name : String) (rest : List String) :
    (s.put value (keyPath (name :: rest))).get? (name :: rest) =
      some (laidOver (s.get? (name :: rest)) value) := by
  induction rest generalizing s name with
  | nil => rw [put_keyPath_singleton, putKey_eq, get?_table_insert, if_pos rfl]; rfl
  | cons next rest ih =>
    rw [put_keyPath_cons, get?_table_insert, if_pos rfl, ih, get?_getD_nil, ← get?_cons_eq_bind]

/-- **What is put elsewhere.** -/
theorem get?_put_of_apart (s value : Setting) {path other : List String}
    (hpath : ¬ path <+: other) (hother : ¬ other <+: path) :
    (s.put value (keyPath path)).get? other = s.get? other := by
  induction path generalizing s other with
  | nil => exact absurd List.nil_prefix hpath
  | cons name rest ih =>
    cases other with
    | nil => exact absurd List.nil_prefix hother
    | cons head tail =>
      by_cases hhead : head = name
      · subst hhead
        have hrest : ¬ rest <+: tail := fun h => hpath (List.cons_prefix_cons.mpr ⟨rfl, h⟩)
        have htail : ¬ tail <+: rest := fun h => hother (List.cons_prefix_cons.mpr ⟨rfl, h⟩)
        -- both paths go on behind the key that they share, since neither begins with the other
        cases rest with
        | nil => exact absurd List.nil_prefix hrest
        | cons next rest =>
          cases tail with
          | nil => exact absurd List.nil_prefix htail
          | cons second tail =>
            rw [put_keyPath_cons, get?_table_insert, if_pos rfl, ih _ hrest htail, get?_getD_nil,
              ← get?_cons_eq_bind]
      · cases rest with
        | nil => rw [put_keyPath_singleton, putKey_eq, get?_table_insert, if_neg hhead]; rfl
        | cons next rest => rw [put_keyPath_cons, get?_table_insert, if_neg hhead]; rfl

/-- What is put at the end of a path makes a table of the first key, if the path goes on. -/
theorem get?_put_head (s value : Setting) (name next : String) (rest : List String) :
    ∃ entries, (s.put value (keyPath (name :: next :: rest))).get? [name] =
      some (table entries) := by
  have hput : ∀ (inner : Setting) (first : String) (steps : List String),
      ∃ entries, inner.put value (keyPath (first :: steps)) = table entries := by
    intro inner first steps
    cases steps with
    | nil => exact ⟨_, by rw [put_keyPath_singleton, putKey_eq]⟩
    | cons second steps => exact ⟨_, put_keyPath_cons ..⟩
  obtain ⟨entries, hentries⟩ := hput ((s.get? [name]).getD nil) next rest
  exact ⟨entries, by
    rw [put_keyPath_cons, get?_table_insert, if_pos rfl, hentries]; rfl⟩

/-! ## Tables -/

theorem putEntries_eq_foldl (s : Setting) (incoming : Table Setting) :
    s.putEntries incoming = incoming.foldl (fun s entry => s.putKey entry.1 entry.2) s := by
  induction incoming generalizing s with
  | nil => rw [putEntries]; rfl
  | cons entry rest ih => rw [putEntries, ih, List.foldl_cons]

/-- What is left of a setting: it changes if there is a value for it. -/
def updated (old : Option Setting) : Option Setting → Option Setting
  | none => old
  | some value => some (laidOver old value)

/-- **What a table of distinct keys leaves under a key.** -/
theorem get?_putEntries (s : Setting) {incoming : Table Setting}
    (h : (Table.keys incoming).Nodup) (name : String) :
    (s.putEntries incoming).get? [name] =
      updated (s.get? [name]) (Table.get? incoming name) := by
  induction incoming generalizing s with
  | nil => rw [putEntries]; rfl
  | cons entry rest ih =>
    obtain ⟨key, value⟩ := entry
    obtain ⟨hkey, hrest⟩ := List.nodup_cons.mp h
    rw [putEntries, ih _ hrest, putKey_eq, get?_table_insert, Table.get?_cons]
    by_cases hname : name = key
    · subst hname
      have hnone : Table.get? rest name = none := by
        rw [← Option.not_isSome_iff_eq_none, Table.isSome_get?]
        exact hkey
      rw [if_pos rfl, if_pos rfl, hnone]
      rfl
    · rw [if_neg hname, if_neg hname]
      rfl

/-- A table with entries put over it is a table. -/
theorem exists_putEntries_table (entries incoming : Table Setting) :
    ∃ entries', (table entries).putEntries incoming = table entries' := by
  induction incoming generalizing entries with
  | nil => exact ⟨entries, by rw [putEntries]⟩
  | cons entry rest ih => rw [putEntries, putKey_eq]; exact ih _

end DesignTokens.Setting
