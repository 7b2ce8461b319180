import DesignTokens.Proofs.Settings.Reading
import DesignTokens.Proofs.Stylesheet.Sheet
import DesignTokens.Proofs.Tree.Inventory

/-!
# Names in a stylesheet are identifiers

The name of a design system stands at the beginning of every variable of a leaf and of the name of
the function that reads the map. It is checked one character at a time (`Configuration.checkName`),
and so all characters of the names it makes are such as identifiers have, if those of the keys are.
How an identifier begins is another matter: not with a digit, neither at once nor behind a dash.

* `isIdentifier_append`: behind a checked name, identifiers are told by how that name begins;
* `isNameChar_of_mem_pathText`: keys with the characters of names make paths with these characters;
* `names_identifiers_iff`: the names of a stylesheet are identifiers if and only if the name of the
  design system does not begin with a digit.
-/

namespace DesignTokens

namespace Stylesheet

/-- Whether a character may begin a word. -/
def isWordStart (c : Char) : Bool :=
  c.isAlpha || c == '_'

/-- Whether a text begins as identifiers do: with a letter or a low line, which may have a dash in
front of it, or with two dashes. -/
def beginsIdentifier : List Char → Bool
  | [] => false
  | c :: rest =>
    if c = '-' then rest.head?.any fun d => d == '-' || isWordStart d else isWordStart c

/-- Whether a text is an identifier. -/
def isIdentifier (name : List Char) : Bool :=
  beginsIdentifier name && name.all Configuration.isNameChar

/-- Whether a text begins with a digit, or with a dash and a digit. -/
def beginsDigit : List Char → Bool
  | [] => false
  | c :: rest => if c = '-' then rest.head?.any Char.isDigit else c.isDigit

/-- The function that a statement defines. -/
def Statement.function? : Statement → Option (List Char)
  | .define function _ => some function
  | _ => none

/-! ## How a name begins -/

section

variable {c : Char} {space rest : List Char}

theorem le_toNat_of_isAlpha (h : c.isAlpha) : 65 ≤ c.toNat := by
  have hcases : (c.isUpper || c.isLower) = true := h
  rcases (Bool.or_eq_true _ _).mp hcases with hupper | hlower
  · have hcapital : 'A'.val ≤ c.val ∧ c.val ≤ 'Z'.val := of_decide_eq_true hupper
    exact UInt32.le_iff_toNat_le.mp hcapital.1
  · have hsmall : 'a'.val ≤ c.val := of_decide_eq_true ((Bool.and_eq_true _ _).mp hlower).1
    have hle : 97 ≤ c.toNat := UInt32.le_iff_toNat_le.mp hsmall
    omega

theorem isWordStart_of_isDigit (h : c.isDigit) : isWordStart c = false := by
  have hnine : c.toNat ≤ 57 := (Char.isDigit_iff_toNat.mp h).2
  refine Bool.eq_false_iff.mpr fun hstart => ?_
  rcases (Bool.or_eq_true _ _).mp hstart with halpha | hlow
  · have hletter := le_toNat_of_isAlpha halpha
    omega
  · rw [eq_of_beq hlow] at h
    exact absurd h (by decide)

/-- Of the characters of names, digits and dashes begin no word. -/
theorem isWordStart_eq (h : Configuration.isNameChar c) (hdash : c ≠ '-') :
    isWordStart c = !c.isDigit := by
  cases hdigit : c.isDigit with
  | true => exact isWordStart_of_isDigit hdigit
  | false =>
    unfold Configuration.isNameChar Char.isAlphanum at h
    rw [hdigit, beq_eq_false_iff_ne.mpr hdash, Bool.or_false, Bool.or_false] at h
    exact h

/-- Behind a name that begins with no digit, a dash may follow. -/
theorem beginsIdentifier_append (hne : space ≠ [])
    (hspace : ∀ c ∈ space, Configuration.isNameChar c) (rest : List Char) :
    beginsIdentifier (space ++ '-' :: rest) = !beginsDigit space := by
  obtain ⟨c, more, rfl⟩ := List.exists_cons_of_ne_nil hne
  obtain ⟨hc, hmore⟩ := List.forall_mem_cons.mp hspace
  rw [List.cons_append]
  by_cases hdash : c = '-'
  · subst hdash
    cases more with
    | nil => rfl
    | cons d more =>
      -- a second dash is as good as a letter
      show (d == '-' || isWordStart d) = !d.isDigit
      by_cases hd : d = '-'
      · rw [hd]; rfl
      · rw [isWordStart_eq (hmore d List.mem_cons_self) hd, beq_eq_false_iff_ne.mpr hd,
          Bool.false_or]
  · rw [beginsIdentifier, if_neg hdash, beginsDigit, if_neg hdash, isWordStart_eq hc hdash]

/-- **Behind a checked name, identifiers are told by how that name begins.** -/
theorem isIdentifier_append (hne : space ≠ [])
    (hspace : ∀ c ∈ space, Configuration.isNameChar c)
    (hrest : ∀ c ∈ rest, Configuration.isNameChar c) :
    isIdentifier (space ++ '-' :: rest) = !beginsDigit space := by
  have hall : (space ++ '-' :: rest).all Configuration.isNameChar = true := by
    rw [List.all_append, List.all_cons, List.all_eq_true.mpr hspace, List.all_eq_true.mpr hrest]
    rfl
  unfold isIdentifier
  rw [beginsIdentifier_append hne hspace, hall, Bool.and_true]

end

/-! ## The characters of paths -/

/-- Whether a key is made of the characters of names. -/
def PlainKey (key : String) : Prop :=
  key.toList.all Configuration.isNameChar = true

instance (key : String) : Decidable (PlainKey key) :=
  inferInstanceAs (Decidable (key.toList.all Configuration.isNameChar = true))

theorem plainKey_iff {key : String} :
    PlainKey key ↔ ∀ c ∈ key.toList, Configuration.isNameChar c :=
  List.all_eq_true

theorem plainKey_indexKey (i : Nat) : PlainKey (indexKey i) := by
  refine plainKey_iff.mpr fun c hc => ?_
  rw [indexKey, String.toList_ofList] at hc
  have hdigit : c.isDigit = true := Decimal.isDigit_of_mem_digits hc
  unfold Configuration.isNameChar Char.isAlphanum
  rw [hdigit, Bool.or_true]
  rfl

/-- A path of such keys is written with the same characters. -/
theorem isNameChar_of_mem_pathText {path : List String} (hpath : ∀ key ∈ path, PlainKey key) :
    ∀ c ∈ pathText path, Configuration.isNameChar c := by
  induction path with
  | nil => exact fun c hc => absurd hc List.not_mem_nil
  | cons key path ih =>
    obtain ⟨hkey, hpath⟩ := List.forall_mem_cons.mp hpath
    cases path with
    | nil =>
      rw [pathText_singleton]
      exact plainKey_iff.mp hkey
    | cons next path =>
      rw [pathText_cons (List.cons_ne_nil next path)]
      intro c hc
      rcases List.mem_append.mp hc with hc | hc
      · exact plainKey_iff.mp hkey c hc
      · rcases List.mem_cons.mp hc with rfl | hc
        · rfl
        · exact ih hpath c hc

/-! ## The names of a stylesheet -/

variable {tree : Tree} {space : String}

theorem isIdentifier_leafName (hspace : Configuration.checkName space = .ok ())
    (hkeys : tree.AllKeys PlainKey) {l : Leaf} (hl : l ∈ tree.leaves) :
    ∃ name, leafName space l = '$' :: name ∧ isIdentifier name = !beginsDigit space.toList := by
  obtain ⟨hne, hchars⟩ := Configuration.checkName_eq_ok.mp hspace
  have hpath : ∀ key ∈ l.path, PlainKey key := Value.AllKeys.of_mem_path plainKey_indexKey hkeys hl
  exact ⟨space.toList ++ '-' :: pathText l.path, leafName_eq space l,
    isIdentifier_append (mt String.toList_eq_nil_iff.mp hne) hchars
      (isNameChar_of_mem_pathText hpath)⟩

/-- One function is defined. -/
theorem function_sheet (tree : Tree) (space base : String) :
    (sheet tree space base).filterMap Statement.function?
      = [space.toList ++ "-token".toList] := by
  have hnone : tree.leaves.filterMap
      (fun l => (Statement.declare (leafName space l) l.scalar.display.toList).function?) = [] :=
    List.filterMap_eq_nil_iff.mpr fun _ _ => rfl
  rw [filterMap_sheet (fun _ => rfl) rfl, hnone]
  rfl

/--
**The names of a stylesheet are identifiers unless that of its design system begins with a digit.**

The document is the text of its statements. If the name of the design system has been checked and
the keys are made of letters, digits, dashes and low lines, then every variable that is declared, or
referred to in the map, is a dollar sign and a name. All of these names, and that of the one
function defined, are identifiers if the name of the design system begins neither with a digit nor
with a dash and a digit, and otherwise none of them is.
-/
theorem names_identifiers_iff (hspace : Configuration.checkName space = .ok ())
    (hkeys : tree.AllKeys PlainKey) (base : String) :
    (document tree space base).toList = (sheet tree space base).flatMap Statement.text
    ∧ (sheet tree space base).filterMap Statement.items? = [mapItems space tree]
    ∧ (∀ v ∈ (sheet tree space base).filterMap Statement.declared?
          ++ (MapItem.rowsOf 1 (mapItems space tree)).filterMap Row.name?,
        ∃ name, v = '$' :: name ∧ isIdentifier name = !beginsDigit space.toList)
    ∧ ∃ function, (sheet tree space base).filterMap Statement.function? = [function]
        ∧ function = space.toList ++ "-token".toList
        ∧ isIdentifier function = !beginsDigit space.toList := by
  have htoken : "-token".toList = '-' :: "token".toList := by decide
  have hword : PlainKey "token" := by decide
  obtain ⟨hne, hchars⟩ := Configuration.checkName_eq_ok.mp hspace
  refine ⟨document_eq_text_sheet tree space base, items_sheet tree space base, ?_,
    _, function_sheet tree space base, rfl, ?_⟩
  · intro name hname
    -- declared or referred to, it is the variable of a leaf
    rw [declared_sheet, name?_leafRows space (references_rows_mapItems tree space),
      List.mem_append, or_self] at hname
    obtain ⟨l, hl, rfl⟩ := List.mem_map.mp hname
    exact isIdentifier_leafName hspace hkeys hl
  · rw [htoken]
    exact isIdentifier_append (mt String.toList_eq_nil_iff.mp hne) hchars (plainKey_iff.mp hword)

/-- A tree whose keys hold every kind of character, and a list. -/
def plainTree : Tree :=
  ⟨[("Gap_1", .text "1px"), ("4-k", .list [.text "2px"])]⟩

theorem names_identifiers_iff_plainTree :
    Configuration.checkName "-my_ds" = .ok () ∧ plainTree.AllKeys PlainKey
    ∧ (sheet plainTree "-my_ds" "tokens").filterMap Statement.declared?
      = ["$-my_ds-Gap_1".toList, "$-my_ds-4-k-0".toList]
    ∧ ∀ v ∈ (sheet plainTree "-my_ds" "tokens").filterMap Statement.declared?,
        ∃ name, v = '$' :: name ∧ isIdentifier name = true := by
  have hspace : Configuration.checkName "-my_ds" = .ok () := by decide
  have hkeys : plainTree.AllKeys PlainKey :=
    ⟨by decide, trivial, by decide, ⟨trivial, trivial⟩, trivial⟩
  have hbegin : beginsDigit "-my_ds".toList = false := by decide
  refine ⟨hspace, hkeys, by decide +kernel, fun name hname => ?_⟩
  have h := (names_identifiers_iff hspace hkeys "tokens").2.2.1 name (List.mem_append_left _ hname)
  rwa [hbegin] at h

/-- A name may be accepted that begins with a digit, or with a dash and a digit. Then neither the
variables nor the function have names that are identifiers. -/
theorem accepted_name_makes_no_identifier :
    plainTree.AllKeys PlainKey
    ∧ (∀ space ∈ ["9a", "-1"], Configuration.checkName space = .ok ())
    ∧ (sheet plainTree "9a" "tokens").filterMap Statement.declared?
        = ["$9a-Gap_1".toList, "$9a-4-k-0".toList]
    ∧ (MapItem.rowsOf 1 (mapItems "9a" plainTree)).filterMap Row.name?
        = ["$9a-Gap_1".toList, "$9a-4-k-0".toList]
    ∧ (sheet plainTree "9a" "tokens").filterMap Statement.function? = ["9a-token".toList]
    ∧ (sheet plainTree "-1" "tokens").filterMap Statement.function? = ["-1-token".toList]
    ∧ ∀ name ∈ ["9a-Gap_1", "9a-4-k-0", "9a-token", "-1-token"],
        isIdentifier name.toList = false :=
  ⟨⟨by decide, trivial, by decide, ⟨trivial, trivial⟩, trivial⟩,
    by decide +kernel, by decide +kernel, by decide +kernel, by decide +kernel, by decide +kernel,
    by decide +kernel⟩

end Stylesheet

end DesignTokens
