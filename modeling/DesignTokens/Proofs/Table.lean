import DesignTokens.Table
import Mathlib.Data.List.Induction

/-!
# Inserting into a table

Inserting looks for the first entry of a key. If there is one, it gets the new value and all other
entries stay where they are; if there is none, the new entry is the last.

* `exists_insert_eq`: the table as it is written out;
* `get?_insert`: what is found afterwards;
* `keys_insertMany` and `get?_insertMany`: a table into which pairs were inserted one after the other,
  some of them under keys that were there or came before;
* `keys_ofPairs` and `get?_ofPairs`: the same for a table made of pairs alone.
-/

namespace DesignTokens.Table

variable {α : Type} {table : Table α} {key : String}

/-- A key that is there has a first entry. -/
theorem exists_first (h : key ∈ keys table) :
    ∃ (before : Table α) (value : α) (after : Table α),
      table = before ++ (key, value) :: after ∧ key ∉ keys before := by
  induction table with
  | nil => exact absurd h List.not_mem_nil
  | cons entry rest ih =>
    obtain ⟨k, v⟩ := entry
    by_cases hk : k = key
    · subst hk
      exact ⟨[], v, rest, rfl, List.not_mem_nil⟩
    · have hrest : key ∈ keys rest := by
        rcases List.mem_cons.mp h with h | h
        · exact absurd h.symm hk
        · exact h
      obtain ⟨before, value, after, hsplit, hnot⟩ := ih hrest
      refine ⟨(k, v) :: before, value, after, by rw [hsplit]; rfl, ?_⟩
      intro hmem
      rcases List.mem_cons.mp hmem with h | h
      · exact hk h.symm
      · exact hnot h

/-- The first entry of the key gets the value. -/
theorem insert_append_cons {before : Table α} (hbefore : key ∉ keys before) (old : α)
    (after : Table α) (value : α) :
    insert (before ++ (key, old) :: after) key value = before ++ (key, value) :: after := by
  induction before with
  | nil => exact if_pos rfl
  | cons entry before ih =>
    obtain ⟨k, v⟩ := entry
    have hk : k ≠ key := fun h => hbefore (h ▸ List.mem_cons_self)
    have hrest : key ∉ keys before := fun h => hbefore (List.mem_cons_of_mem _ h)
    rw [List.cons_append, insert, if_neg hk, ih hrest, List.cons_append]

/-- Without an entry of the key, the new one is the last. -/
theorem insert_of_notMem (h : key ∉ keys table) (value : α) :
    insert table key value = table ++ [(key, value)] := by
  induction table with
  | nil => rfl
  | cons entry rest ih =>
    obtain ⟨k, v⟩ := entry
    have hk : k ≠ key := fun hk => h (hk ▸ List.mem_cons_self)
    rw [insert, if_neg hk, ih fun hm => h (List.mem_cons_of_mem _ hm), List.cons_append]

/-- **An insertion puts one entry between others, which do not depend on the value.** The entry takes
the place of the first one of its key, and without one it is the last. -/
theorem exists_insert_eq (table : Table α) (key : String) :
    ∃ before after : Table α,
      (table = before ∧ after = [] ∨ ∃ old, table = before ++ (key, old) :: after)
      ∧ key ∉ keys before
      ∧ ∀ value, insert table key value = before ++ (key, value) :: after := by
  by_cases h : key ∈ keys table
  · obtain ⟨before, old, after, rfl, hbefore⟩ := exists_first h
    exact ⟨before, after, Or.inr ⟨old, rfl⟩, hbefore, insert_append_cons hbefore old after⟩
  · exact ⟨table, [], Or.inl ⟨rfl, rfl⟩, h, insert_of_notMem h⟩

theorem get?_cons (k : String) (v : α) (rest : Table α) (key : String) :
    get? ((k, v) :: rest) key = if key = k then some v else get? rest key := by
  unfold get?
  rw [List.lookup_cons]
  by_cases h : key = k
  · rw [if_pos h, beq_iff_eq.mpr h]
  · rw [if_neg h, beq_false_of_ne h]

/-- Something is found under the keys that are there. -/
theorem isSome_get? : (get? table key).isSome ↔ key ∈ keys table := by
  induction table with
  | nil => simp [get?, keys]
  | cons entry rest ih =>
    obtain ⟨k, v⟩ := entry
    rw [get?_cons, keys, List.map_cons, List.mem_cons]
    split
    · simp [*]
    · rw [ih, keys]
      simp [*]

/-- Where keys are distinct, what is found under a key is what stands there. -/
theorem get?_eq_some_iff {value : α} (h : (keys table).Nodup) :
    get? table key = some value ↔ (key, value) ∈ table := by
  induction table with
  | nil => exact iff_of_false (fun hnone => nomatch hnone) List.not_mem_nil
  | cons entry rest ih =>
    obtain ⟨k, v⟩ := entry
    obtain ⟨hk, hrest⟩ := List.nodup_cons.mp h
    rw [get?_cons, List.mem_cons]
    by_cases hkey : key = k
    · subst hkey
      have hnone : (key, value) ∉ rest := fun hmem =>
        hk (List.mem_map.mpr ⟨_, hmem, rfl⟩)
      rw [if_pos rfl, or_iff_left hnone]
      constructor
      · intro heq
        rw [Option.some.inj heq]
      · intro heq
        rw [(Prod.mk.inj heq).2]
    · have hne : (key, value) ≠ (k, v) := fun heq => hkey (Prod.mk.inj heq).1
      rw [if_neg hkey, or_iff_right hne, ih hrest]

/-- Inserting what is there changes nothing. -/
theorem insert_of_get? {value : α} (h : get? table key = some value) :
    insert table key value = table := by
  induction table with
  | nil => exact absurd h (by simp [get?])
  | cons entry rest ih =>
    obtain ⟨k, v⟩ := entry
    rw [get?_cons] at h
    rw [insert]
    by_cases hk : k = key
    · rw [if_pos hk.symm] at h
      rw [if_pos hk, Option.some.inj h]
    · rw [if_neg fun heq => hk heq.symm] at h
      rw [if_neg hk, ih h]

/-- Under the key there is the new value, and under other keys there is what there was. -/
theorem get?_insert (table : Table α) (key : String) (value : α) (other : String) :
    get? (insert table key value) other = if other = key then some value else get? table other := by
  induction table with
  | nil => exact get?_cons key value [] other
  | cons entry rest ih =>
    obtain ⟨k, v⟩ := entry
    by_cases hk : k = key
    · subst hk
      rw [insert, if_pos rfl, get?_cons, get?_cons]
      by_cases h : other = k
      · rw [if_pos h, if_pos h]
      · rw [if_neg h, if_neg h, if_neg h]
    · rw [insert, if_neg hk, get?_cons, get?_cons, ih]
      by_cases h : other = k
      · have hne : other ≠ key := fun he => hk (h.symm.trans he)
        rw [if_pos h, if_neg hne, if_pos h]
      · rw [if_neg h, if_neg h]

/-- A key that is there stays in its place, and a new one comes last. -/
theorem keys_insert (table : Table α) (key : String) (value : α) :
    keys (insert table key value) =
      if key ∈ keys table then keys table else keys table ++ [key] := by
  obtain ⟨before, after, hcases, hbefore, hinsert⟩ := exists_insert_eq table key
  rw [hinsert]
  rcases hcases with ⟨rfl, rfl⟩ | ⟨old, rfl⟩
  · rw [if_neg hbefore]
    simp [keys]
  · have hmem : key ∈ keys (before ++ (key, old) :: after) := by simp [keys]
    rw [if_pos hmem]
    simp [keys]

/-- An entry is the inserted one or was there before. -/
theorem mem_of_mem_insert {value : α} {entry : String × α} (h : entry ∈ insert table key value) :
    entry = (key, value) ∨ entry ∈ table := by
  obtain ⟨before, after, hcases, -, hinsert⟩ := exists_insert_eq table key
  rw [hinsert] at h
  rcases List.mem_append.mp h with h | h
  · -- before the inserted entry there is nothing new, whether it is the last or not
    rcases hcases with ⟨rfl, -⟩ | ⟨old, rfl⟩
    · exact Or.inr h
    · exact Or.inr (List.mem_append_left _ h)
  · rcases List.mem_cons.mp h with h | h
    · exact Or.inl h
    · rcases hcases with ⟨-, rfl⟩ | ⟨old, rfl⟩
      · exact absurd h List.not_mem_nil
      · exact Or.inr (List.mem_append_right _ (List.mem_cons_of_mem _ h))

/-- What holds of all values that are found still does if it holds of the inserted one. -/
theorem forall_get?_insert {p : α → Prop} (h : ∀ k v, get? table k = some v → p v) (key : String)
    {value : α} (hvalue : p value) : ∀ k v, get? (insert table key value) k = some v → p v := by
  intro k v hget
  rw [get?_insert] at hget
  split at hget
  · exact Option.some.inj hget ▸ hvalue
  · exact h k v hget

/-- An insertion gives what was found under the key. -/
theorem getThenInsert?_eq (table : Table α) (key : String) (value : α) :
    getThenInsert? table key value = (get? table key, insert table key value) := by
  induction table with
  | nil => rfl
  | cons entry rest ih =>
    obtain ⟨k, v⟩ := entry
    rw [getThenInsert?, get?_cons, insert]
    by_cases hk : k = key
    · rw [if_pos hk, if_pos hk.symm, if_pos hk]
    · rw [if_neg hk, if_neg (Ne.symm hk), if_neg hk, ih]

theorem nodup_keys_insert (h : (keys table).Nodup) (key : String) (value : α) :
    (keys (insert table key value)).Nodup := by
  rw [keys_insert]
  split
  · exact h
  · rename_i hnew
    exact List.nodup_append.mpr ⟨h, by simp, fun k hk k' hk' heq => by
      rw [List.mem_singleton.mp hk'] at heq
      exact hnew (heq ▸ hk)⟩

/-! ## Inserting pairs -/

/-- Insert pairs from left to right. -/
def insertMany (table : Table α) (pairs : List (String × α)) : Table α :=
  pairs.foldl (fun table entry => insert table entry.1 entry.2) table

theorem insertMany_concat (table : Table α) (pairs : List (String × α)) (key : String)
    (value : α) :
    insertMany table (pairs ++ [(key, value)]) = insert (insertMany table pairs) key value := by
  unfold insertMany
  rw [List.foldl_append]
  rfl

/-- The keys that were there come first, and a new key stands where it came first. -/
theorem keys_insertMany (table : Table α) (pairs : List (String × α)) :
    keys (insertMany table pairs)
      = keys table ++ ((pairs.map Prod.fst).filter (· ∉ keys table)).eraseDups := by
  induction pairs using List.reverseRecOn with
  | nil => exact (List.append_nil _).symm
  | append_singleton pairs entry ih =>
    obtain ⟨key, value⟩ := entry
    rw [insertMany_concat, keys_insert, ih, List.map_append, List.filter_append,
      List.eraseDups_append]
    by_cases hold : key ∈ keys table
    · rw [if_pos (List.mem_append_left _ hold)]
      simp [List.removeAll, hold]
    · by_cases hbefore : key ∈ pairs.map Prod.fst
      · have hmem : key ∈ ((pairs.map Prod.fst).filter (· ∉ keys table)).eraseDups :=
          List.mem_eraseDups.mpr (List.mem_filter.mpr ⟨hbefore, by simpa using hold⟩)
        rw [if_pos (List.mem_append_right _ hmem)]
        simp [List.removeAll, hold, hbefore]
      · have hnew : key ∉ keys table
            ++ ((pairs.map Prod.fst).filter (· ∉ keys table)).eraseDups := by
          intro hmem
          rcases List.mem_append.mp hmem with hmem | hmem
          · exact hold hmem
          · exact hbefore (List.mem_filter.mp (List.mem_eraseDups.mp hmem)).1
        rw [if_neg hnew]
        simp [List.removeAll, hold, hbefore, List.eraseDups_cons]

theorem nodup_keys_insertMany (h : (keys table).Nodup) (pairs : List (String × α)) :
    (keys (insertMany table pairs)).Nodup :=
  List.foldlRecOn (motive := fun table => (keys table).Nodup) pairs _ h
    fun _ hkeys entry _ => nodup_keys_insert hkeys entry.1 entry.2

/-- Under a key there is the last value inserted under it, or else the one that was there. -/
theorem get?_insertMany (table : Table α) (pairs : List (String × α)) (key : String) :
    get? (insertMany table pairs) key
      = (((pairs.filter fun entry => entry.1 == key).getLast?).map Prod.snd).or
          (get? table key) := by
  induction pairs using List.reverseRecOn with
  | nil => rfl
  | append_singleton pairs entry ih =>
    obtain ⟨k, v⟩ := entry
    rw [insertMany_concat, get?_insert, ih, List.filter_append]
    by_cases h : key = k
    · rw [if_pos h, List.filter_cons_of_pos (by simpa using h.symm), List.filter_nil,
        List.getLast?_concat]
      rfl
    · rw [if_neg h, List.filter_cons_of_neg (by simpa using Ne.symm h), List.filter_nil,
        List.append_nil]

/-- An entry is one of the pairs or was there before. -/
theorem mem_of_mem_insertMany {pairs : List (String × α)} {entry : String × α}
    (h : entry ∈ insertMany table pairs) : entry ∈ pairs ∨ entry ∈ table := by
  induction pairs using List.reverseRecOn with
  | nil => exact Or.inr h
  | append_singleton pairs last ih =>
    rw [insertMany_concat] at h
    rcases mem_of_mem_insert h with h | h
    · exact Or.inl (List.mem_append_right _ (List.mem_singleton.mpr h))
    · rcases ih h with h | h
      · exact Or.inl (List.mem_append_left _ h)
      · exact Or.inr h

/-- Pairs with new and distinct keys are put behind the entries that are there. -/
theorem insertMany_of_nodup {pairs : List (String × α)} (h : (keys (table ++ pairs)).Nodup) :
    insertMany table pairs = table ++ pairs := by
  induction pairs generalizing table with
  | nil => exact (List.append_nil table).symm
  | cons entry rest ih =>
    have hnew : entry.1 ∉ keys table := by
      intro hmem
      unfold keys at h hmem
      rw [List.map_append] at h
      exact (List.nodup_append.mp h).2.2 _ hmem _ List.mem_cons_self rfl
    have hrest : (keys ((table ++ [entry]) ++ rest)).Nodup := by
      rw [List.append_assoc]
      exact h
    calc insertMany table (entry :: rest)
        = insertMany (insert table entry.1 entry.2) rest := rfl
      _ = insertMany (table ++ [entry]) rest := by rw [insert_of_notMem hnew]
      _ = table ++ entry :: rest := by rw [ih hrest, List.append_assoc]; rfl

/-! ## Tables of pairs -/

theorem ofPairs_eq_insertMany (pairs : List (String × α)) : ofPairs pairs = insertMany [] pairs :=
  rfl

/-- A key stands where it came first, and only there. -/
theorem keys_ofPairs (pairs : List (String × α)) :
    keys (ofPairs pairs) = (pairs.map Prod.fst).eraseDups := by
  have hall : (pairs.map Prod.fst).filter (· ∉ keys ([] : Table α)) = pairs.map Prod.fst :=
    List.filter_eq_self.mpr fun _ _ => by simp [keys]
  rw [ofPairs_eq_insertMany, keys_insertMany, hall]
  rfl

theorem nodup_keys_ofPairs (pairs : List (String × α)) : (keys (ofPairs pairs)).Nodup := by
  have hnil : (keys ([] : Table α)).Nodup := List.nodup_nil
  exact nodup_keys_insertMany hnil pairs

/-- Under a key there is its last value. -/
theorem get?_ofPairs (pairs : List (String × α)) (key : String) :
    get? (ofPairs pairs) key
      = ((pairs.filter fun entry => entry.1 == key).getLast?).map Prod.snd := by
  rw [ofPairs_eq_insertMany, get?_insertMany]
  exact Option.or_none

/-- Every entry is one of the pairs. -/
theorem mem_of_mem_ofPairs {pairs : List (String × α)} {entry : String × α}
    (h : entry ∈ ofPairs pairs) : entry ∈ pairs := by
  rcases mem_of_mem_insertMany h with h | h
  · exact h
  · exact absurd h List.not_mem_nil

/-- Pairs with distinct keys are a table. -/
theorem ofPairs_of_nodup {pairs : List (String × α)} (h : (keys pairs).Nodup) :
    ofPairs pairs = pairs :=
  insertMany_of_nodup h

end DesignTokens.Table
