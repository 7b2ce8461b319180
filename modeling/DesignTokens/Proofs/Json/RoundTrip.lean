import DesignTokens.Proofs.Json.Number
import DesignTokens.Proofs.Json.Quote

/-!
# JSON documents denote their trees

The datum of a tree has its shape: objects for groups, arrays for lists, in the same order, with the
same keys and the same scalars. Reading the text of a value gives its datum and stops where the text
ends (`value?_valueText`), and so the document of a tree denotes an object with the tree as its one
member.
-/

namespace DesignTokens.Json

/-- What a number denotes. Those that have no digits are written as `null`. -/
def numberDatum : Number → Datum
  | .int n => .number n
  | .float x =>
    match x.decimal? with
    | some d => .number d.value
    | none => .null

/-- What a scalar denotes. -/
def scalarDatum : Scalar → Datum
  | .text s => .string s
  | .number n => numberDatum n
  | .bool b => .bool b
  | .null => .null

mutual

/-- What a value denotes. -/
def valueDatum : Value → Datum
  | .leaf s => scalarDatum s
  | .list items => .array (itemDatums items)
  | .group entries => .object (memberDatums entries)

/-- What list items denote. -/
def itemDatums : List Value → List Datum
  | [] => []
  | value :: rest => valueDatum value :: itemDatums rest

/-- What keyed values denote. -/
def memberDatums : List (String × Value) → List (String × Datum)
  | [] => []
  | (key, value) :: rest => (key, valueDatum value) :: memberDatums rest

end

/-! ## Spaces -/

theorem skip_of_not_isSpace {c : Char} (h : isSpace c = false) (cs : List Char) :
    skip (c :: cs) = c :: cs :=
  List.dropWhile_cons_of_neg (by rw [h]; exact Bool.false_ne_true)

theorem skip_newline (level : Nat) (cs : List Char) : skip (newline level ++ cs) = skip cs := by
  unfold skip
  refine List.dropWhile_append_of_pos fun c hc => ?_
  rcases List.mem_cons.mp hc with rfl | hc
  · rfl
  · rw [(List.mem_replicate.mp hc).2]
    rfl

theorem length_newline (level : Nat) : (newline level).length = 4 * level + 1 := by
  unfold newline
  rw [List.length_cons, List.length_replicate]

theorem ended_newline (level : Nat) (cs : List Char) : Ended (newline level ++ cs) :=
  ⟨'\n', _, rfl, .inr rfl⟩

theorem ended_comma (cs : List Char) : Ended (',' :: cs) :=
  ⟨',', cs, rfl, .inl rfl⟩

/-- Spaces before a value do not count. -/
theorem value?_of_skip_eq {s t : List Char} (h : skip s = skip t) (fuel : Nat) :
    value? fuel s = value? fuel t := by
  cases fuel with
  | zero => rfl
  | succ fuel => rw [value?.eq_def, value?.eq_def (fuel + 1) t]; dsimp only; rw [h]

/-! ## Scalars -/

theorem isSpace_of_isDigit {c : Char} (h : c.isDigit = true) : isSpace c = false := by
  cases hspace : isSpace c with
  | false => rfl
  | true =>
    unfold isSpace at hspace
    simp only [Bool.or_eq_true, decide_eq_true_eq] at hspace
    rcases hspace with ((rfl | rfl) | rfl) | rfl <;> exact absurd h (by decide)

/-- A number begins with a minus sign or a digit. -/
theorem exists_cons_of_number? {text : List Char} {r : Decimal × List Char}
    (h : number? text = some r) :
    ∃ c cs, text = c :: cs ∧ (c = '-' || c.isDigit) = true ∧ isSpace c = false := by
  unfold number? at h
  split at h
  · exact ⟨'-', _, rfl, rfl, rfl⟩
  · cases text with
    | nil => exact absurd h (Option.some_ne_none r).symm
    | cons c cs =>
      have hc : c.isDigit = true := by
        by_contra hc
        have hzero : c ≠ '0' := fun hz => hc (hz ▸ rfl)
        unfold magnitude? at h
        rw [whole?, if_neg hzero, if_neg hc] at h
        exact absurd h (Option.some_ne_none r).symm
      exact ⟨c, cs, rfl, by rw [hc, Bool.or_true], isSpace_of_isDigit hc⟩

theorem value?_of_number? {text rest : List Char} {d : Decimal} (h : number? text = some (d, rest))
    (fuel : Nat) : value? (fuel + 1) text = some (.number d.value, rest) := by
  obtain ⟨c, cs, rfl, hstart, hspace⟩ := exists_cons_of_number? h
  rw [value?.eq_def]
  dsimp only
  rw [skip_of_not_isSpace hspace]
  dsimp only
  rw [if_pos hstart, h]
  rfl

theorem value?_quote (s : String) (fuel : Nat) (rest : List Char) :
    value? (fuel + 1) (quote s ++ rest) = some (.string s, rest) := by
  obtain ⟨cs, htext, hstring⟩ := string?_quote s rest
  rw [htext]
  show (string? cs).map _ = _
  rw [hstring]
  rfl

theorem value?_null (fuel : Nat) (rest : List Char) :
    value? (fuel + 1) ("null".toList ++ rest) = some (.null, rest) :=
  rfl

theorem value?_numberText (n : Number) (fuel : Nat) {rest : List Char} (hrest : Ended rest) :
    value? (fuel + 1) (numberText n ++ rest) = some (numberDatum n, rest) := by
  cases n with
  | int n =>
    obtain ⟨d, hread, hvalue⟩ := number?_intText n hrest
    rw [numberText, value?_of_number? hread, hvalue]
    rfl
  | float x =>
    have hfinite := x.isSome_decimal?
    unfold numberText numberDatum
    dsimp only
    cases h : x.decimal? with
    | some d =>
      obtain ⟨e, hread, hvalue⟩ := number?_text h hrest
      rw [h, Option.isSome_some] at hfinite
      rw [if_pos hfinite.symm, value?_of_number? hread, hvalue]
    | none =>
      rw [h] at hfinite
      rw [← hfinite, if_neg (by decide)]
      exact value?_null fuel rest

theorem value?_scalarText (s : Scalar) (fuel : Nat) {rest : List Char} (hrest : Ended rest) :
    value? (fuel + 1) (scalarText s ++ rest) = some (scalarDatum s, rest) := by
  cases s with
  | text s => exact value?_quote s fuel rest
  | number n => exact value?_numberText n fuel hrest
  | bool b => cases b <;> rfl
  | null => exact value?_null fuel rest

/-- Nothing is no scalar. -/
theorem length_scalarText_pos (s : Scalar) : 0 < (scalarText s).length := by
  rw [List.length_pos_iff]
  intro h
  have hread := value?_scalarText s 0 (ended_comma [])
  rw [h] at hread
  exact absurd hread (Option.some_ne_none _).symm

/-! ## Brackets -/

theorem skip_ne_of_value? {fuel : Nat} {text : List Char} {r : Datum × List Char}
    (h : value? fuel text = some r) (rest : List Char) : skip text ≠ ']' :: rest := by
  intro hskip
  cases fuel with
  | zero => exact absurd h (Option.some_ne_none r).symm
  | succ fuel =>
    rw [value?.eq_def] at h
    dsimp only at h
    rw [hskip] at h
    exact absurd h (Option.some_ne_none r).symm

theorem skip_ne_of_items? {fuel : Nat} {text : List Char} {r : List Datum × List Char}
    (h : items? fuel text = some r) (rest : List Char) : skip text ≠ ']' :: rest := by
  cases fuel with
  | zero => exact absurd h (Option.some_ne_none r).symm
  | succ fuel =>
    rw [items?] at h
    obtain ⟨item, hitem, -⟩ := Option.bind_eq_some_iff.mp h
    exact skip_ne_of_value? hitem rest

theorem skip_ne_of_members? {fuel : Nat} {text : List Char} {r : List (String × Datum) × List Char}
    (h : members? fuel text = some r) (rest : List Char) : skip text ≠ '}' :: rest := by
  intro hskip
  cases fuel with
  | zero => exact absurd h (Option.some_ne_none r).symm
  | succ fuel =>
    rw [members?, hskip] at h
    exact absurd h (Option.some_ne_none r).symm

theorem value?_array {fuel : Nat} {cs rest : List Char} {items : List Datum}
    (h : items? fuel cs = some (items, rest)) :
    value? (fuel + 1) ('[' :: cs) = some (.array items, rest) := by
  rw [value?.eq_def]
  dsimp only
  rw [skip_of_not_isSpace rfl]
  dsimp only
  rw [if_neg (by decide), if_neg (by decide), if_pos rfl]
  split
  · rename_i heq
    exact absurd heq (skip_ne_of_items? h _)
  · rw [h]
    rfl

theorem value?_object {fuel : Nat} {cs rest : List Char} {members : List (String × Datum)}
    (h : members? fuel cs = some (members, rest)) :
    value? (fuel + 1) ('{' :: cs) = some (.object members, rest) := by
  rw [value?.eq_def]
  dsimp only
  rw [skip_of_not_isSpace rfl]
  dsimp only
  rw [if_neg (by decide), if_neg (by decide), if_neg (by decide), if_pos rfl]
  split
  · rename_i heq
    exact absurd heq (skip_ne_of_members? h _)
  · rw [h]
    rfl

/-- The last item, and the bracket behind it. -/
theorem items?_last {fuel : Nat} {text after rest : List Char} {d : Datum}
    (h : value? fuel text = some (d, after)) (hafter : skip after = ']' :: rest) :
    items? (fuel + 1) text = some ([d], rest) := by
  rw [items?, h, Option.bind_some]
  dsimp only
  rw [hafter]
  rfl

/-- An item, the comma behind it, and further items. -/
theorem items?_cons {fuel : Nat} {text after more rest : List Char} {d : Datum} {ds : List Datum}
    (h : value? fuel text = some (d, after)) (hafter : skip after = ',' :: more)
    (hmore : items? fuel more = some (ds, rest)) :
    items? (fuel + 1) text = some (d :: ds, rest) := by
  rw [items?, h, Option.bind_some]
  dsimp only
  rw [hafter]
  show (items? fuel more).map _ = _
  rw [hmore]
  rfl

/-- A member begins with its key. -/
theorem skip_member (level : Nat) (key : String) (value rest : List Char) :
    skip (newline level ++ (member key value ++ rest))
      = quote key ++ ':' :: ' ' :: (value ++ rest) := by
  rw [skip_newline, member, List.append_assoc]
  exact skip_of_not_isSpace rfl _

theorem length_member (key : String) (value : List Char) :
    value.length + 2 ≤ (member key value).length := by
  unfold member
  rw [List.length_append, List.length_cons, List.length_cons]
  omega

/-- A member up to its end, where it is followed by `after`. -/
theorem members?_member {fuel : Nat} {text body after : List Char} {key : String} {d : Datum}
    (htext : skip text = quote key ++ ':' :: ' ' :: body) (h : value? fuel body = some (d, after)) :
    members? (fuel + 1) text
      = match skip after with
        | ',' :: rest => (members? fuel rest).map fun r => ((key, d) :: r.1, r.2)
        | '}' :: rest => some ([(key, d)], rest)
        | _ => none := by
  obtain ⟨cs, hquote, hstring⟩ := string?_quote key (':' :: ' ' :: body)
  rw [members?, htext, hquote]
  show (string? cs).bind _ = _
  rw [hstring, Option.bind_some]
  dsimp only
  rw [skip_of_not_isSpace rfl]
  have hspace : skip (' ' :: body) = skip body := rfl
  rw [← value?_of_skip_eq hspace] at h
  show (value? fuel (' ' :: body)).bind _ = _
  rw [h]
  rfl

/-! ## Values -/

/-- Parts with a comma and a new line between them. -/
def joinLines (level : Nat) (parts : List (List Char)) : List Char :=
  (',' :: newline level).intercalate parts

theorem joinLines_cons (level : Nat) (part next : List Char) (parts : List (List Char)) :
    joinLines level (part :: next :: parts)
      = part ++ ',' :: (newline level ++ joinLines level (next :: parts)) := by
  unfold joinLines
  rw [List.intercalate_cons_cons, List.append_assoc]
  rfl

theorem joinLines_singleton (level : Nat) (part : List Char) : joinLines level [part] = part :=
  List.intercalate_singleton

theorem bracketed_cons (opening closing : Char) (level : Nat) (part : List Char)
    (parts : List (List Char)) (rest : List Char) :
    bracketed opening closing level (part :: parts) ++ rest
      = opening :: (newline (level + 1) ++ (joinLines (level + 1) (part :: parts)
          ++ (newline level ++ closing :: rest))) := by
  unfold bracketed joinLines
  simp only [List.append_assoc, List.cons_append, List.nil_append]

theorem length_bracketed_cons (opening closing : Char) (level : Nat) (part : List Char)
    (parts : List (List Char)) :
    (joinLines (level + 1) (part :: parts)).length + 2
      ≤ (bracketed opening closing level (part :: parts)).length := by
  have htext := bracketed_cons opening closing level part parts []
  rw [List.append_nil] at htext
  rw [htext]
  simp only [List.length_cons, List.length_append, length_newline]
  omega

mutual

/-- **A value is read back**, up to where its text ends. The text is long enough to be the fuel. -/
theorem value?_valueText : ∀ (level : Nat) (v : Value) (fuel : Nat) {rest : List Char},
    (valueText level v).length ≤ fuel → Ended rest →
    value? fuel (valueText level v ++ rest) = some (valueDatum v, rest)
  | level, .leaf s, fuel, rest, hfuel, hrest => by
    have hpos := length_scalarText_pos s
    rw [valueText] at hfuel
    obtain ⟨f, rfl⟩ : ∃ f, fuel = f + 1 := ⟨fuel - 1, by omega⟩
    exact value?_scalarText s f hrest
  | level, .list [], fuel, rest, hfuel, _ => by
    have htwo : 2 ≤ fuel := hfuel
    obtain ⟨f, rfl⟩ : ∃ f, fuel = f + 1 := ⟨fuel - 1, by omega⟩
    rfl
  | level, .group [], fuel, rest, hfuel, _ => by
    have htwo : 2 ≤ fuel := hfuel
    obtain ⟨f, rfl⟩ : ∃ f, fuel = f + 1 := ⟨fuel - 1, by omega⟩
    rfl
  | level, .list (item :: items), fuel, rest, hfuel, _ => by
    have hlength := length_bracketed_cons '[' ']' level (valueText (level + 1) item)
      (itemTexts (level + 1) items)
    rw [valueText, itemTexts] at hfuel ⊢
    obtain ⟨f, rfl⟩ : ∃ f, fuel = f + 1 := ⟨fuel - 1, by omega⟩
    rw [bracketed_cons]
    refine value?_array (items?_itemTexts (level + 1) level (item :: items) f rest ?_ ?_)
    · exact List.cons_ne_nil item items
    · rw [itemTexts]
      omega
  | level, .group ((key, value) :: entries), fuel, rest, hfuel, _ => by
    have hlength := length_bracketed_cons '{' '}' level (member key (valueText (level + 1) value))
      (memberTexts (level + 1) entries)
    rw [valueText, memberTexts] at hfuel ⊢
    obtain ⟨f, rfl⟩ : ∃ f, fuel = f + 1 := ⟨fuel - 1, by omega⟩
    rw [bracketed_cons]
    refine value?_object
      (members?_memberTexts (level + 1) level ((key, value) :: entries) f rest ?_ ?_)
    · exact List.cons_ne_nil (key, value) entries
    · rw [memberTexts]
      omega

theorem items?_itemTexts : ∀ (level outer : Nat) (items : List Value) (fuel : Nat)
    (rest : List Char), items ≠ [] → (joinLines level (itemTexts level items)).length < fuel →
    items? fuel (newline level ++ (joinLines level (itemTexts level items)
        ++ (newline outer ++ ']' :: rest)))
      = some (itemDatums items, rest)
  | _, _, [], _, _, hne, _ => absurd rfl hne
  | level, outer, [item], fuel, rest, _, hfuel => by
    rw [itemTexts, itemTexts, joinLines_singleton] at hfuel ⊢
    obtain ⟨f, rfl⟩ : ∃ f, fuel = f + 1 := ⟨fuel - 1, by omega⟩
    have hitem := value?_valueText level item f (by omega) (ended_newline outer (']' :: rest))
    rw [← value?_of_skip_eq (skip_newline level _)] at hitem
    exact items?_last hitem (skip_newline outer _)
  | level, outer, item :: next :: items, fuel, rest, _, hfuel => by
    rw [itemTexts, itemTexts, joinLines_cons, ← itemTexts] at hfuel ⊢
    simp only [List.length_append, List.length_cons] at hfuel
    obtain ⟨f, rfl⟩ : ∃ f, fuel = f + 1 := ⟨fuel - 1, by omega⟩
    -- the comma ends the item, and the spaces behind it belong to the next one
    have hmore := items?_itemTexts level outer (next :: items) f rest (List.cons_ne_nil next items)
      (by omega)
    have hitem := value?_valueText level item f (by omega) (ended_comma
      (newline level ++ (joinLines level (itemTexts level (next :: items))
        ++ (newline outer ++ ']' :: rest))))
    rw [← value?_of_skip_eq (skip_newline level _)] at hitem
    simp only [List.append_assoc, List.cons_append]
    exact items?_cons hitem rfl hmore

theorem members?_memberTexts : ∀ (level outer : Nat) (entries : List (String × Value)) (fuel : Nat)
    (rest : List Char), entries ≠ [] →
    (joinLines level (memberTexts level entries)).length < fuel →
    members? fuel (newline level ++ (joinLines level (memberTexts level entries)
        ++ (newline outer ++ '}' :: rest)))
      = some (memberDatums entries, rest)
  | _, _, [], _, _, hne, _ => absurd rfl hne
  | level, outer, [(key, value)], fuel, rest, _, hfuel => by
    rw [memberTexts, memberTexts, joinLines_singleton] at hfuel ⊢
    have hlength := length_member key (valueText level value)
    obtain ⟨f, rfl⟩ : ∃ f, fuel = f + 1 := ⟨fuel - 1, by omega⟩
    have hvalue := value?_valueText level value f (by omega) (ended_newline outer ('}' :: rest))
    rw [members?_member (skip_member level key _ _) hvalue, skip_newline]
    rfl
  | level, outer, (key, value) :: (key', value') :: entries, fuel, rest, _, hfuel => by
    rw [memberTexts, memberTexts, joinLines_cons, ← memberTexts] at hfuel ⊢
    have hlength := length_member key (valueText level value)
    simp only [List.length_append, List.length_cons] at hfuel
    obtain ⟨f, rfl⟩ : ∃ f, fuel = f + 1 := ⟨fuel - 1, by omega⟩
    have hmore := members?_memberTexts level outer ((key', value') :: entries) f rest
      (List.cons_ne_nil (key', value') entries) (by omega)
    have hvalue := value?_valueText level value f (by omega) (ended_comma
      (newline level ++ (joinLines level (memberTexts level ((key', value') :: entries))
        ++ (newline outer ++ '}' :: rest))))
    simp only [List.append_assoc, List.cons_append]
    rw [members?_member (skip_member level key _ _) hvalue]
    show (members? f _).map _ = _
    rw [hmore]
    rfl

end

/-! ## Documents -/

/--
**The document of a tree denotes an object whose one member is the tree.**

The key of the member is the name of the design system with underscores for hyphens, and the name of
the source. Below it there is every key of the tree in its place, whatever characters it has, with
groups as objects and lists as arrays, also where these are empty. Strings, integers and truth
values are those of the tree, and a floating-point number has the value of the digits that are
written for it.
-/
theorem document_denotes_tree (tree : Tree) (space base : String) :
    decode? (document tree space base).toList
      = some (.object [(String.ofList (space.toList.map fun c => if c = '-' then '_' else c)
          ++ "_" ++ base, .object (memberDatums tree.entries))]) := by
  have hended : Ended ['\n'] := ⟨'\n', [], rfl, .inr rfl⟩
  unfold document decode?
  rw [String.toList_ofList]
  have hread := value?_valueText 0 (.group [(rootKey space base, tree.toValue)])
    ((valueText 0 (.group [(rootKey space base, tree.toValue)]) ++ ['\n']).length + 1)
    (by rw [List.length_append]; omega) hended
  rw [hread, Option.bind_some]
  rfl

end DesignTokens.Json
