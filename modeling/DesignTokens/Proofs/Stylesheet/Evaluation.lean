import DesignTokens.Proofs.Stylesheet.Sheet
import DesignTokens.Proofs.Tree.Distinct

/-!
# What a stylesheet evaluates to

A stylesheet runs from the top. A declaration sets a variable unless it is set, an assignment sets
it in any case, and the function follows keys through the map. Names of variables are compared as
they are written, and the text of a leaf is its value as it stands: it is not parsed as an
expression, and a variable with the text `null` is set like any other.

Keys of a tree may hold dashes, and dashes join the keys of a path, so that two leaves can share a
variable, which then holds the value of the first of them. This is all that can go wrong: where the
joined paths are distinct, each leaf has its own value.

* `run_declarationsFrom`: a declared variable holds the value of the first leaf of its name;
* `evalOf_ofOutlines`: what a path of keys leads to in the map is the variable of that path.
-/

namespace DesignTokens.Stylesheet

/-- A value of the stylesheet language. -/
inductive Val where
  | text (s : List Char)
  | map (entries : List (String × Val))

namespace Val

/-- The value under a key of a map. -/
def get? : Val → String → Option Val
  | text _, _ => none
  | map entries, key => entries.lookup key

/-- The value that keys lead to, one after another. -/
def follow : List String → Val → Option Val
  | [], v => some v
  | key :: keys, v => (v.get? key).bind (follow keys)

end Val

mutual

/-- The value of a map item, where variables have the values `ρ`. -/
def MapItem.eval (ρ : List Char → Option Val) : MapItem → Option Val
  | .reference name => ρ name
  | .nested entries => (MapItem.evalOf ρ entries).map .map

/-- The values of keyed map items. -/
def MapItem.evalOf (ρ : List Char → Option Val) :
    List (String × MapItem) → Option (List (String × Val))
  | [] => some []
  | (key, item) :: rest =>
    (item.eval ρ).bind fun v => (MapItem.evalOf ρ rest).map fun vs => (key, v) :: vs

end

/-- The variables that are set, and the functions that are defined, each with the variable of its
map. -/
structure State where
  value? : List Char → Option Val
  function? : List Char → Option (List Char)

namespace State

/-- Nothing is set. -/
def empty : State :=
  ⟨fun _ => none, fun _ => none⟩

/-- Set a variable. -/
def set (σ : State) (name : List Char) (v : Val) : State :=
  { σ with value? := fun n => if n = name then some v else σ.value? n }

/-- Set a variable, unless it is set. -/
def setDefault (σ : State) (name : List Char) (v : Val) : State :=
  if (σ.value? name).isSome then σ else σ.set name v

/-- Define a function that reads the map in a variable. -/
def define (σ : State) (function map : List Char) : State :=
  { σ with function? := fun f => if f = function then some map else σ.function? f }

/-- Call a function with keys. -/
def call (σ : State) (function : List Char) (keys : List String) : Option Val :=
  (σ.function? function).bind fun map => (σ.value? map).bind (Val.follow keys)

/-- The state after one statement; there is none if a map refers to a variable that is not set. -/
def step (σ : State) : Statement → Option State
  | .comment _ => some σ
  | .blank => some σ
  | .declare name value => some (σ.setDefault name (.text value))
  | .assign name items => (MapItem.evalOf σ.value? items).map fun vs => σ.set name (.map vs)
  | .define function map => some (σ.define function map)

/-- The state after statements. -/
def run (σ : State) : List Statement → Option State
  | [] => some σ
  | s :: rest => (σ.step s).bind fun τ => τ.run rest

theorem run_append (σ : State) (ss ts : List Statement) :
    σ.run (ss ++ ts) = (σ.run ss).bind fun τ => τ.run ts := by
  induction ss generalizing σ with
  | nil => rfl
  | cons s ss ih =>
    rw [List.cons_append, run, run]
    cases h : σ.step s with
    | none => rfl
    | some τ => exact ih τ

theorem value?_setDefault (σ : State) (name : List Char) (v : Val) (n : List Char) :
    (σ.setDefault name v).value? n
      = (σ.value? n).or (if n = name then some v else none) := by
  unfold setDefault
  cases h : σ.value? name with
  | some w =>
    rw [if_pos Option.isSome_some]
    by_cases hn : n = name
    · rw [hn, h, Option.some_or]
    · rw [if_neg hn, Option.or_none]
  | none =>
    rw [if_neg (by simp)]
    show (if n = name then some v else σ.value? n) = _
    by_cases hn : n = name
    · rw [if_pos hn, if_pos hn, hn, h, Option.none_or]
    · rw [if_neg hn, if_neg hn, Option.or_none]

theorem function?_setDefault (σ : State) (name : List Char) (v : Val) :
    (σ.setDefault name v).function? = σ.function? := by
  unfold setDefault
  by_cases h : (σ.value? name).isSome
  · rw [if_pos h]
  · rw [if_neg h]
    rfl

end State

/-! ## A variable keeps its first value -/

/-- The value of the first leaf whose variable has a name. -/
def firstValue? (space : String) (leaves : List Leaf) (name : List Char) : Option Val :=
  (leaves.find? fun l => leafName space l = name).map fun l => .text l.scalar.display.toList

theorem firstValue?_cons (space : String) (l : Leaf) (rest : List Leaf) (name : List Char) :
    firstValue? space (l :: rest) name
      = (if name = leafName space l then some (.text l.scalar.display.toList) else none).or
          (firstValue? space rest name) := by
  unfold firstValue?
  by_cases h : name = leafName space l
  · rw [List.find?_cons_of_pos (by simpa using h.symm), if_pos h]
    rfl
  · rw [List.find?_cons_of_neg (by simpa using Ne.symm h), if_neg h, Option.none_or]

theorem run_sectionGap (σ : State) (previous : Option String) (l : Leaf) :
    σ.run (sectionGap previous l) = some σ := by
  rcases sectionGap_cases previous l with h | h
  · rw [h]; rfl
  · rw [h]; rfl

/-- The declarations of leaves set each variable that is not set to the value of the first leaf of
its name. -/
theorem run_declarationsFrom (space : String) (previous : Option String) (leaves : List Leaf)
    (σ : State) :
    ∃ τ, σ.run (declarationsFrom space previous leaves) = some τ
      ∧ τ.function? = σ.function?
      ∧ ∀ name, τ.value? name = (σ.value? name).or (firstValue? space leaves name) := by
  induction leaves generalizing previous σ with
  | nil => exact ⟨σ, rfl, rfl, fun name => Option.or_none.symm⟩
  | cons l rest ih =>
    obtain ⟨τ, hrun, hfunctions, hvariables⟩ :=
      ih (some l.sectionKey) (σ.setDefault (leafName space l) (.text l.scalar.display.toList))
    refine ⟨τ, ?_, ?_, fun name => ?_⟩
    · rw [declarationsFrom, State.run_append, run_sectionGap]
      exact hrun
    · rw [hfunctions, State.function?_setDefault]
    · rw [hvariables, State.value?_setDefault, Option.or_assoc, firstValue?_cons]

/-! ## A path in the map leads to its variable -/

theorem follow_cons_self (key : String) (path : List String) (v : Val) (vs : List (String × Val)) :
    (Val.map ((key, v) :: vs)).follow (key :: path) = v.follow path := by
  show (List.lookup key ((key, v) :: vs)).bind _ = _
  rw [List.lookup_cons_self]
  rfl

theorem follow_cons_of_ne {key k : String} (h : key ≠ k) (path : List String) (v : Val)
    (vs : List (String × Val)) :
    (Val.map ((k, v) :: vs)).follow (key :: path) = (Val.map vs).follow (key :: path) := by
  show (List.lookup key ((k, v) :: vs)).bind _ = (List.lookup key vs).bind _
  rw [List.lookup_cons, beq_false_of_ne h]

mutual

/-- The item of an outline has a value if the variables of its leaves are set, and in it the path
of each leaf leads to the variable of the leaf. -/
theorem eval_ofOutline (ρ : List Char → Option Val) : ∀ (stem : List Char) (key : String)
    (outline : Outline), outline.KeysDistinct →
    (∀ l ∈ outline.leaves, (ρ (stem ++ pathText (key :: l.path))).isSome) →
    ∃ v, (MapItem.ofOutline stem key outline).eval ρ = some v
      ∧ ∀ l ∈ outline.leaves, v.follow l.path = ρ (stem ++ pathText (key :: l.path))
  | stem, key, .leaf s, _, hset => by
    have hleaf := hset ⟨[], s⟩ List.mem_cons_self
    obtain ⟨v, hv⟩ := Option.isSome_iff_exists.mp hleaf
    refine ⟨v, ?_, fun l hl => ?_⟩
    · rw [MapItem.ofOutline, MapItem.eval, ← pathText_singleton key]
      exact hv
    · rw [List.mem_singleton.mp hl]
      exact hv.symm
  | stem, key, .branch entries, hkeys, hset => by
    -- one key more in the stem is one key less on the paths
    have hstem : ∀ l ∈ Outline.leavesOf entries,
        stem ++ pathText (key :: l.path) = stem ++ key.toList ++ ['-'] ++ pathText l.path := by
      intro l hl
      obtain ⟨k, path, hpath, -⟩ := Outline.exists_key_of_mem_leavesOf hl
      rw [hpath, pathText_cons (List.cons_ne_nil k path)]
      simp only [List.append_assoc, List.cons_append, List.nil_append]
    obtain ⟨vs, hvs, hfollow⟩ := evalOf_ofOutlines ρ (stem ++ key.toList ++ ['-']) entries
      hkeys.1 hkeys.2 (fun l hl => by rw [← hstem l hl]; exact hset l hl)
    refine ⟨.map vs, ?_, fun l hl => ?_⟩
    · rw [MapItem.ofOutline, MapItem.eval, hvs]
      rfl
    · rw [hstem l hl]
      exact hfollow l hl

theorem evalOf_ofOutlines (ρ : List Char → Option Val) : ∀ (stem : List Char)
    (outlines : List (String × Outline)), (outlines.map Prod.fst).Nodup →
    Outline.KeysDistinctOf outlines →
    (∀ l ∈ Outline.leavesOf outlines, (ρ (stem ++ pathText l.path)).isSome) →
    ∃ vs, MapItem.evalOf ρ (MapItem.ofOutlines stem outlines) = some vs
      ∧ ∀ l ∈ Outline.leavesOf outlines,
          (Val.map vs).follow l.path = ρ (stem ++ pathText l.path)
  | _, [], _, _, _ => ⟨[], rfl, fun _ hl => absurd hl List.not_mem_nil⟩
  | stem, (key, outline) :: rest, hnodup, hkeys, hset => by
    rw [List.map_cons, List.nodup_cons] at hnodup
    obtain ⟨v, hv, hhere⟩ := eval_ofOutline ρ stem key outline hkeys.1
      (fun l hl => hset (l.under key) (List.mem_append_left _ (List.mem_map_of_mem hl)))
    obtain ⟨vs, hvs, hthere⟩ := evalOf_ofOutlines ρ stem rest hnodup.2 hkeys.2
      (fun l hl => hset l (List.mem_append_right _ hl))
    refine ⟨(key, v) :: vs, ?_, fun l hl => ?_⟩
    · rw [MapItem.ofOutlines, MapItem.evalOf, hv, hvs]
      rfl
    · rcases List.mem_append.mp hl with hl | hl
      · obtain ⟨m, hm, rfl⟩ := List.mem_map.mp hl
        show (Val.map ((key, v) :: vs)).follow (key :: m.path) = _
        rw [follow_cons_self]
        exact hhere m hm
      · -- the first key of the path is one of the rest, and so not the key passed by
        obtain ⟨k, path, hpath, hk⟩ := Outline.exists_key_of_mem_leavesOf hl
        have hne : k ≠ key := fun h => hnodup.1 (h ▸ hk)
        have hrest := hthere l hl
        rw [hpath] at hrest ⊢
        rw [follow_cons_of_ne hne]
        exact hrest

end

/-! ## The names of variables -/

/-- The name of a source as it stands in the variable of the map. -/
def dashed (base : String) : String :=
  String.ofList (base.toList.map fun c => if c = '_' then '-' else c)

theorem mapName_eq (space base : String) :
    mapName space base = stem space ++ (dashed base).toList := by
  show '$' :: (space ++ "-" ++ dashed base).toList = _
  have hdash : "-".toList = ['-'] := rfl
  rw [String.toList_append, String.toList_append, hdash]
  rfl

/-- The variables that a stylesheet sets are those of the leaves and that of the map. -/
theorem assigned_sheet (tree : Tree) (space base : String) :
    (sheet tree space base).filterMap Statement.assigned?
      = tree.leaves.map (leafName space) ++ [mapName space base] := by
  rw [filterMap_sheet (fun _ => rfl) rfl]
  show tree.leaves.filterMap (fun l => some (leafName space l)) ++ [mapName space base] = _
  rw [List.filterMap_eq_map']

/-- Variables have distinct names exactly if the joined paths are distinct and none of them is the
name of the source. -/
theorem nodup_names_iff (leaves : List Leaf) (space base : String) :
    (leaves.map (leafName space) ++ [mapName space base]).Nodup
      ↔ (leaves.map (Leaf.joined "-")).Nodup ∧ dashed base ∉ leaves.map (Leaf.joined "-") := by
  have hinjective : Function.Injective fun s : String => stem space ++ s.toList :=
    fun s t h => String.toList_injective (List.append_cancel_left h)
  have hnames : leaves.map (leafName space) ++ [mapName space base]
      = (leaves.map (Leaf.joined "-") ++ [dashed base]).map fun s => stem space ++ s.toList := by
    rw [List.map_append, List.map_map, mapName_eq]
    rfl
  rw [hnames, List.nodup_map_iff hinjective, List.nodup_append_comm]
  show (dashed base :: leaves.map (Leaf.joined "-")).Nodup ↔ _
  rw [List.nodup_cons, and_comm]

theorem firstValue?_isSome {space : String} {leaves : List Leaf} {l : Leaf} (h : l ∈ leaves) :
    (firstValue? space leaves (leafName space l)).isSome := by
  unfold firstValue?
  rw [Option.isSome_map, List.find?_isSome]
  exact ⟨l, h, by simp⟩

/-- Where the names are distinct, the first leaf of a name is the only one. -/
theorem firstValue?_of_nodup {space : String} {leaves : List Leaf} {l : Leaf}
    (hnodup : (leaves.map (leafName space)).Nodup) (h : l ∈ leaves) :
    firstValue? space leaves (leafName space l) = some (.text l.scalar.display.toList) := by
  induction leaves with
  | nil => exact absurd h List.not_mem_nil
  | cons m rest ih =>
    rw [List.map_cons, List.nodup_cons] at hnodup
    rw [firstValue?_cons]
    rcases List.mem_cons.mp h with rfl | h
    · rw [if_pos rfl, Option.some_or]
    · -- the leaf before it has another name
      have hne : leafName space l ≠ leafName space m :=
        fun he => hnodup.1 (he ▸ List.mem_map_of_mem h)
      rw [if_neg hne, Option.none_or]
      exact ih hnodup.2 h

/-! ## Running a stylesheet -/

/-- A stylesheet runs to its end. Its function leads from the path of each leaf to the value of the
first leaf of the same name, and so does the variable of the leaf, unless it has been overwritten
by the map. -/
theorem run_sheet {tree : Tree} (hkeys : tree.KeysDistinct) (space base : String) :
    ∃ σ, State.empty.run (sheet tree space base) = some σ
      ∧ ∀ l ∈ tree.leaves,
          σ.call (space.toList ++ "-token".toList) l.path
              = firstValue? space tree.leaves (leafName space l)
            ∧ (leafName space l ≠ mapName space base →
                σ.value? (leafName space l)
                  = firstValue? space tree.leaves (leafName space l)) := by
  obtain ⟨τ, hrun, -, hvalue⟩ := run_declarationsFrom space none tree.leaves State.empty
  have hdeclared : ∀ name, τ.value? name = firstValue? space tree.leaves name := fun name => by
    rw [hvalue name]
    exact Option.none_or
  obtain ⟨vs, hvs, hfollow⟩ := evalOf_ofOutlines τ.value? (stem space) tree.outline
    hkeys.outline.1 hkeys.outline.2 fun l hl => by
      rw [hdeclared]
      exact firstValue?_isSome hl
  -- the map is assigned behind all declarations, and the function is defined behind the map
  have hmap : τ.step (.assign (mapName space base) (mapItems space tree))
      = some (τ.set (mapName space base) (.map vs)) := by
    show (MapItem.evalOf τ.value? (MapItem.ofOutlines (stem space) tree.outline)).map _ = _
    rw [hvs]
    rfl
  refine ⟨(τ.set (mapName space base) (.map vs)).define (space.toList ++ "-token".toList)
    (mapName space base), ?_, fun l hl => ⟨?_, fun hne => ?_⟩⟩
  · unfold sheet
    rw [State.run_append, State.run_append]
    show ((State.empty.run (declarationsFrom space none tree.leaves)).bind _) = _
    rw [hrun]
    show (τ.step _).bind _ = _
    rw [hmap]
    rfl
  · rw [← hdeclared]
    unfold State.call State.define State.set
    dsimp only
    rw [if_pos rfl, Option.bind_some, if_pos rfl, Option.bind_some]
    exact hfollow l hl
  · rw [← hdeclared]
    exact if_neg hne

/--
**Where the joined paths of leaves are distinct, every leaf has its own value.**

The document of a tree is the text of statements, which set one variable for each leaf and one for
the map. Their names are distinct exactly if the paths are distinct when they are joined with dashes
and no path is the name of the source. The function of the stylesheet takes the path of a leaf to
the value of the first leaf with the same joined path, and the variable of a leaf holds this value
too, unless the map has its name. If the names are distinct, this is the value of the leaf itself.
-/
theorem values_of_sheet (tree : Tree) (hkeys : tree.KeysDistinct) (space base : String) :
    (document tree space base).toList = (sheet tree space base).flatMap Statement.text
    ∧ (sheet tree space base).filterMap Statement.assigned?
        = tree.leaves.map (leafName space) ++ [mapName space base]
    ∧ (((sheet tree space base).filterMap Statement.assigned?).Nodup
        ↔ (tree.leaves.map (Leaf.joined "-")).Nodup
          ∧ dashed base ∉ tree.leaves.map (Leaf.joined "-"))
    ∧ ∃ σ, State.empty.run (sheet tree space base) = some σ
      ∧ (∀ l ∈ tree.leaves,
          σ.call (space.toList ++ "-token".toList) l.path
              = firstValue? space tree.leaves (leafName space l)
            ∧ (leafName space l ≠ mapName space base →
                σ.value? (leafName space l)
                  = firstValue? space tree.leaves (leafName space l)))
      ∧ (((sheet tree space base).filterMap Statement.assigned?).Nodup →
          ∀ l ∈ tree.leaves,
            σ.value? (leafName space l) = some (.text l.scalar.display.toList)
            ∧ σ.call (space.toList ++ "-token".toList) l.path
                = some (.text l.scalar.display.toList)) := by
  obtain ⟨σ, hrun, hvalues⟩ := run_sheet hkeys space base
  refine ⟨document_eq_text_sheet tree space base, assigned_sheet tree space base, ?_, σ, hrun,
    hvalues, fun hnodup l hl => ?_⟩
  · rw [assigned_sheet]
    exact nodup_names_iff tree.leaves space base
  · rw [assigned_sheet, List.nodup_append] at hnodup
    obtain ⟨hleaves, -, hmap⟩ := hnodup
    have hne : leafName space l ≠ mapName space base :=
      hmap _ (List.mem_map_of_mem hl) _ List.mem_cons_self
    rw [(hvalues l hl).1, (hvalues l hl).2 hne, firstValue?_of_nodup hleaves hl]
    exact ⟨rfl, rfl⟩

/-- A tree with a list, and with a dash in a key. -/
def spacingTree : Tree :=
  ⟨[("spacing", .group
      [("sm", .text "4px"), ("steps", .list [.leaf (.number (.int 1)), .text "2"])]),
    ("line-height", .leaf .null)]⟩

theorem values_of_spacingTree :
    spacingTree.KeysDistinct
    ∧ ∃ σ, State.empty.run (sheet spacingTree "ns" "tokens") = some σ
      ∧ σ.value? "$ns-spacing-steps-0".toList = some (.text ['1'])
      ∧ σ.call "ns-token".toList ["spacing", "steps", "0"] = some (.text ['1']) := by
  have hkeys : spacingTree.KeysDistinct :=
    ⟨by decide, ⟨by decide, trivial, ⟨trivial, trivial, trivial⟩, trivial⟩, trivial, trivial⟩
  obtain ⟨-, -, hiff, σ, hrun, -, hown⟩ := values_of_sheet spacingTree hkeys "ns" "tokens"
  have hnodup := hiff.mpr (by decide +kernel)
  have hleaf : (⟨["spacing", "steps", "0"], .number (.int 1)⟩ : Leaf) ∈ spacingTree.leaves := by
    decide +kernel
  have hname : leafName "ns" ⟨["spacing", "steps", "0"], .number (.int 1)⟩
      = "$ns-spacing-steps-0".toList := by decide +kernel
  have hdisplay : (Scalar.number (.int 1)).display.toList = ['1'] := by decide +kernel
  have hfunction : "ns".toList ++ "-token".toList = "ns-token".toList := by decide +kernel
  obtain ⟨hvalue, hcall⟩ := hown hnodup _ hleaf
  rw [hname, hdisplay] at hvalue
  rw [hfunction, hdisplay] at hcall
  exact ⟨hkeys, σ, hrun, hvalue, hcall⟩

/-- A tree with two paths that are the same when they are joined. -/
def clashTree : Tree :=
  ⟨[("a", .group [("b", .text "1px")]), ("a-b", .text "2px")]⟩

/-- The second of two leaves with one variable gets the value of the first. -/
theorem clashTree_values :
    clashTree.KeysDistinct
    ∧ (document clashTree "ns" "tokens").toList
        = (sheet clashTree "ns" "tokens").flatMap Statement.text
    ∧ ¬ ((sheet clashTree "ns" "tokens").filterMap Statement.assigned?).Nodup
    ∧ (⟨["a-b"], .text "2px"⟩ : Leaf) ∈ clashTree.leaves
    ∧ ∃ σ, State.empty.run (sheet clashTree "ns" "tokens") = some σ
      ∧ σ.value? (leafName "ns" ⟨["a-b"], .text "2px"⟩) = some (.text "1px".toList)
      ∧ σ.call "ns-token".toList ["a-b"] = some (.text "1px".toList) := by
  have hkeys : clashTree.KeysDistinct :=
    ⟨by decide, ⟨by decide, trivial, trivial⟩, trivial, trivial⟩
  obtain ⟨σ, hrun, hvalues⟩ := run_sheet hkeys "ns" "tokens"
  have hleaf : (⟨["a-b"], .text "2px"⟩ : Leaf) ∈ clashTree.leaves := by decide +kernel
  have hfirst : firstValue? "ns" clashTree.leaves (leafName "ns" ⟨["a-b"], .text "2px"⟩)
      = some (.text "1px".toList) := by rfl
  have hfunction : "ns".toList ++ "-token".toList = "ns-token".toList := by decide +kernel
  obtain ⟨hcall, hvalue⟩ := hvalues _ hleaf
  rw [hfunction, hfirst] at hcall
  rw [hfirst] at hvalue
  exact ⟨hkeys, document_eq_text_sheet clashTree "ns" "tokens", by decide +kernel, hleaf, σ, hrun,
    hvalue (by decide +kernel), hcall⟩

end DesignTokens.Stylesheet
