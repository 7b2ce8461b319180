import DesignTokens.Path
import Mathlib.Data.List.Induction

/-!
# The names of a path

Where a path leads is decided by the names between its slashes, and points lead nowhere else. The
names of a path put behind another are the names of both, and the parent of a path has all of its
names but the last.

* `words_join`, `isAbsolute_join`: a path behind another;
* `names_of_parent?`, `sublist_of_parent?`: the parent of a path, which is no longer than the path.
-/

namespace DesignTokens.Path

variable {p q : Path}

/-- The names between the slashes of a text. -/
def wordsOf (text : List Char) : List String :=
  ((text.splitOnP (· == '/')).map String.ofList).filter (· ≠ "")

/-- The names between the slashes. -/
def words (p : Path) : List String := wordsOf p.text.toList

/-- The names that lead somewhere else. -/
def names (p : Path) : List String := p.words.filter (· ≠ ".")

theorem words_eq (p : Path) : p.words = p.pieces.filter (· ≠ "") := rfl

theorem wordsOf_append_slash (front back : List Char) :
    wordsOf (front ++ '/' :: back) = wordsOf front ++ wordsOf back := by
  unfold wordsOf
  rw [List.splitOnP_append_cons front back (by rfl), List.map_append, List.filter_append]

@[simp] theorem wordsOf_nil : wordsOf [] = [] := by
  unfold wordsOf
  rw [List.splitOnP_nil]
  rfl

theorem wordsOf_of_notMem {text : List Char} (hslash : '/' ∉ text) (hne : text ≠ []) :
    wordsOf text = [String.ofList text] := by
  have hnone : ∀ c ∈ text, (c == '/') = false := by
    intro c hc
    exact beq_false_of_ne fun h => hslash (h ▸ hc)
  unfold wordsOf
  rw [List.splitOnP_eq_singleton hnone, List.map_singleton, List.filter_cons_of_pos]
  · rfl
  · simp [hne]

/-- Slashes at the end of a text do not matter for its names. -/
theorem wordsOf_append_slashes {text slashes : List Char} (h : ∀ c ∈ slashes, c = '/') :
    wordsOf (text ++ slashes) = wordsOf text := by
  induction slashes generalizing text with
  | nil => rw [List.append_nil]
  | cons c slashes ih =>
    have hrest : ∀ c ∈ slashes, c = '/' := fun c hc => h c (List.mem_cons_of_mem _ hc)
    rw [h c List.mem_cons_self, wordsOf_append_slash, ← List.nil_append slashes, ih hrest,
      wordsOf_nil, List.append_nil]

/-! ## Slashes at the end -/

theorem exists_slashes (p : Path) :
    ∃ slashes, (∀ c ∈ slashes, c = '/') ∧ p.text.toList = p.withoutSlashes.text.toList ++ slashes
      ∧ (p.text ≠ "" → p.withoutSlashes.text ≠ "") := by
  unfold withoutSlashes
  have hsplit := List.takeWhile_append_dropWhile (p := (· == '/')) (l := p.text.toList.reverse)
  split
  · exact ⟨[], by simp, by simp, id⟩
  · rename_i kept hkept
    refine ⟨(p.text.toList.reverse.takeWhile (· == '/')).reverse, fun c hc => ?_, ?_, fun _ => ?_⟩
    · exact beq_iff_eq.mp (List.all_eq_true.mp List.all_takeWhile c (List.mem_reverse.mp hc))
    · rw [String.toList_ofList, ← List.reverse_append, hsplit, List.reverse_reverse]
    · simpa using hkept

theorem words_withoutSlashes (p : Path) : p.withoutSlashes.words = p.words := by
  obtain ⟨slashes, hslashes, hsplit, -⟩ := exists_slashes p
  unfold words
  rw [hsplit, wordsOf_append_slashes hslashes]

theorem isAbsolute_withoutSlashes (p : Path) : p.withoutSlashes.isAbsolute = p.isAbsolute := by
  obtain ⟨slashes, hslashes, hsplit, hne⟩ := exists_slashes p
  unfold isAbsolute
  rw [hsplit]
  cases htext : p.withoutSlashes.text.toList with
  | cons c rest => rfl
  | nil =>
    -- then the path itself is blank
    rw [htext, List.nil_append] at hsplit
    have hblank : p.text = "" := by
      by_contra h
      exact hne h (by rw [← String.toList_eq_nil_iff, htext])
    rw [← hsplit, hblank]
    rfl

/-! ## A path behind another -/

/-- Either both texts meet at a slash, or the first one is blank. -/
theorem text_join (hq : q.isAbsolute = false) :
    (p.text = "" ∧ p.join q = q)
    ∨ (∃ front, p.text.toList = front ++ ['/']
        ∧ (p.join q).text.toList = front ++ '/' :: q.text.toList)
    ∨ (p.text ≠ "" ∧ (p.join q).text.toList = p.text.toList ++ '/' :: q.text.toList) := by
  unfold join
  rw [hq, Bool.false_or]
  split
  · rename_i hempty
    exact Or.inl ⟨String.isEmpty_iff.mp hempty, rfl⟩
  · rename_i hempty
    have hne : p.text ≠ "" := fun h => hempty (String.isEmpty_iff.mpr h)
    split
    · rename_i hlast
      obtain ⟨front, hfront⟩ := List.getLast?_eq_some_iff.mp (beq_iff_eq.mp hlast)
      exact Or.inr (Or.inl ⟨front, hfront, by simp [hfront]⟩)
    · exact Or.inr (Or.inr ⟨hne, by simp⟩)

theorem words_join (hq : q.isAbsolute = false) : (p.join q).words = p.words ++ q.words := by
  rcases text_join (p := p) hq with ⟨hp, h⟩ | ⟨front, hp, h⟩ | ⟨-, h⟩
  · rw [h]
    unfold words
    simp [hp]
  · unfold words
    rw [h, wordsOf_append_slash, hp, wordsOf_append_slash, wordsOf_nil, List.append_nil]
  · unfold words
    rw [h, wordsOf_append_slash]

theorem isAbsolute_join (hq : q.isAbsolute = false) : (p.join q).isAbsolute = p.isAbsolute := by
  rcases text_join (p := p) hq with ⟨hp, h⟩ | ⟨front, hp, h⟩ | ⟨hp, h⟩
  · rw [h, hq]
    unfold isAbsolute
    rw [hp]
    rfl
  · unfold isAbsolute
    rw [h, hp]
    cases front <;> rfl
  · unfold isAbsolute
    rw [h]
    cases htext : p.text.toList with
    | nil => exact absurd (String.toList_eq_nil_iff.mp htext) hp
    | cons c rest => rfl

theorem getLast?_join (hq : q.isAbsolute = false) (hne : q.text ≠ "") :
    (p.join q).text.toList.getLast? = q.text.toList.getLast? := by
  have hback : q.text.toList ≠ [] := fun h => hne (String.toList_eq_nil_iff.mp h)
  rcases text_join (p := p) hq with ⟨-, h⟩ | ⟨front, -, h⟩ | ⟨-, h⟩
  · rw [h]
  · rw [h, List.append_cons, List.getLast?_append, Option.or_of_isSome (by simpa using hback)]
  · rw [h, List.append_cons, List.getLast?_append, Option.or_of_isSome (by simpa using hback)]

/-- The text of the first path is a part of the text of both. -/
theorem sublist_join (hq : q.isAbsolute = false) :
    p.text.toList.Sublist (p.join q).text.toList := by
  rcases text_join (p := p) hq with ⟨hp, -⟩ | ⟨front, hp, h⟩ | ⟨-, h⟩
  · rw [hp]
    exact List.nil_sublist _
  · rw [h, hp]
    exact (List.singleton_sublist.mpr List.mem_cons_self).append_left front
  · rw [h]
    exact List.sublist_append_left _ _

theorem join_sublist (hq : q.isAbsolute = false) :
    (p.join q).text.toList.Sublist (p.text.toList ++ '/' :: q.text.toList) := by
  rcases text_join (p := p) hq with ⟨hp, h⟩ | ⟨front, hp, h⟩ | ⟨-, h⟩
  · rw [h, hp]
    exact List.sublist_cons_self _ _
  · rw [h, hp, List.append_assoc]
    exact (List.sublist_cons_self _ _).append_left _
  · exact h ▸ List.Sublist.refl _

/-! ## Pieces and components -/

/-- A text is its first piece and each of the others behind a slash. -/
theorem exists_pieces (text : List Char) :
    ∃ first rest, text.splitOnP (· == '/') = first :: rest
      ∧ text = first ++ rest.flatMap ('/' :: ·) ∧ ∀ piece ∈ first :: rest, '/' ∉ piece := by
  induction text with
  | nil => exact ⟨[], [], List.splitOnP_nil, rfl, by simp⟩
  | cons c text ih =>
    obtain ⟨first, rest, hsplit, htext, hpieces⟩ := ih
    rw [List.splitOnP_cons_eq_if_modifyHead, hsplit]
    by_cases hc : c = '/'
    · refine ⟨[], first :: rest, if_pos (beq_iff_eq.mpr hc), ?_, ?_⟩
      · rw [hc, List.flatMap_cons, List.nil_append, List.cons_append, ← htext]
      · intro piece hpiece
        rcases List.mem_cons.mp hpiece with rfl | hpiece
        · exact List.not_mem_nil
        · exact hpieces piece hpiece
    · refine ⟨c :: first, rest, if_neg fun h => hc (beq_iff_eq.mp h), ?_, ?_⟩
      · rw [List.cons_append, ← htext]
      · intro piece hpiece
        rcases List.mem_cons.mp hpiece with rfl | hpiece
        · exact fun h => (List.mem_cons.mp h).elim (fun h => hc h.symm)
            (hpieces first List.mem_cons_self)
        · exact hpieces piece (List.mem_cons_of_mem _ hpiece)

/-- The component of a name. -/
def Component.ofName (s : String) : Component := if s = ".." then .up else .name s

@[simp] theorem Component.text_ofName (s : String) : (ofName s).text = s := by
  unfold ofName
  split
  · rename_i h
    rw [h]
    rfl
  · rfl

theorem Component.map_text_ofName (names : List String) : (names.map ofName).map text = names := by
  have htext : text ∘ ofName = id := funext text_ofName
  rw [List.map_map, htext, List.map_id]

/-- The component that stands for the beginning of a path, if one does. -/
def lead (p : Path) : List Component :=
  if p.isAbsolute then [.root] else if p.pieces.head? = some "." then [.here] else []

theorem names_eq (p : Path) : p.names = p.pieces.filter fun s => s ≠ "" ∧ s ≠ "." := by
  unfold names
  rw [words_eq, List.filter_filter]
  exact List.filter_congr fun s _ => by rw [Bool.and_comm, Bool.decide_and]

theorem components_eq (p : Path) : p.components = p.lead ++ p.names.map Component.ofName := by
  unfold components lead
  rw [names_eq]
  split
  · rfl
  · split <;> rfl

/-- A text that can be a name of a path. -/
structure IsName (s : String) : Prop where
  ne_empty : s ≠ ""
  ne_point : s ≠ "."
  slash : '/' ∉ s.toList

theorem isName_of_mem_names {s : String} (h : s ∈ p.names) : IsName s := by
  obtain ⟨first, rest, hsplit, -, hpieces⟩ := exists_pieces p.text.toList
  rw [names_eq, List.mem_filter, decide_eq_true_eq, pieces, hsplit] at h
  obtain ⟨piece, hpiece, rfl⟩ := List.mem_map.mp h.1
  exact ⟨h.2.1, h.2.2, by rw [String.toList_ofList]; exact hpieces piece hpiece⟩

theorem IsName.words {s : String} (h : IsName s) : (Path.mk s).words = [s] := by
  unfold Path.words
  rw [wordsOf_of_notMem h.slash fun hnil => h.ne_empty (String.toList_eq_nil_iff.mp hnil),
    String.ofList_toList]

theorem IsName.isAbsolute {s : String} (h : IsName s) : (Path.mk s).isAbsolute = false := by
  unfold Path.isAbsolute
  refine beq_false_of_ne fun hhead => h.slash ?_
  exact List.mem_of_mem_head? hhead

/-- The names are the texts of the components that do not stand for the beginning. -/
theorem names_eq_filter_components (p : Path) :
    p.names = (p.components.map Component.text).filter fun s => s ≠ "/" ∧ s ≠ "." := by
  have hlead : (p.lead.map Component.text).filter (fun s => s ≠ "/" ∧ s ≠ ".") = [] := by
    unfold lead
    split
    · rfl
    · split <;> rfl
  rw [components_eq, List.map_append, List.filter_append, hlead, Component.map_text_ofName,
    List.nil_append]
  refine (List.filter_eq_self.mpr fun s hs => decide_eq_true ?_).symm
  have hname := isName_of_mem_names hs
  exact ⟨fun h => hname.slash (by rw [h]; decide), hname.ne_point⟩

/-! ## Names behind a path -/

/-- The path with names put behind it. -/
def below (p : Path) (names : List String) : Path :=
  names.foldl (fun p s => p.join ⟨s⟩) p

theorem below_concat (p : Path) (names : List String) (s : String) :
    p.below (names ++ [s]) = (p.below names).join ⟨s⟩ := by
  unfold below
  rw [List.foldl_append]
  rfl

section Below

variable {names : List String} (hnames : ∀ s ∈ names, IsName s)

include hnames

theorem words_below : (p.below names).words = p.words ++ names := by
  induction names using List.reverseRecOn with
  | nil => exact (List.append_nil _).symm
  | append_singleton names s ih =>
    have hs := hnames s (by simp)
    rw [below_concat, words_join hs.isAbsolute, hs.words, ih fun t ht => hnames t (by simp [ht]),
      List.append_assoc]

theorem isAbsolute_below : (p.below names).isAbsolute = p.isAbsolute := by
  induction names using List.reverseRecOn with
  | nil => rfl
  | append_singleton names s ih =>
    rw [below_concat, isAbsolute_join (hnames s (by simp)).isAbsolute,
      ih fun t ht => hnames t (by simp [ht])]

theorem names_below : (p.below names).names = p.names ++ names := by
  have hkeep : names.filter (· ≠ ".") = names :=
    List.filter_eq_self.mpr fun s hs => decide_eq_true (hnames s hs).ne_point
  unfold Path.names
  rw [words_below hnames, List.filter_append, hkeep]

omit hnames in
/-- Names are known from the components of the path that they stand behind. -/
theorem eq_of_components_below {names' : List String} (hnames : ∀ s ∈ names, IsName s)
    (hnames' : ∀ s ∈ names', IsName s)
    (h : (p.below names).components = (p.below names').components) : names = names' := by
  have hsame : (p.below names).names = (p.below names').names := by
    rw [names_eq_filter_components, names_eq_filter_components, h]
  rw [names_below hnames, names_below hnames'] at hsame
  exact List.append_cancel_left hsame

/-- Between a path and the names behind it there is one slash, which the path may have brought. -/
theorem text_below (hp : p.text ≠ "") (hne : names ≠ []) :
    ∃ gap, (p.below names).text = p.text ++ gap ++ "/".intercalate names
      ∧ (gap = "/" ∨ gap = "" ∧ p.text.toList.getLast? = some '/') := by
  induction names generalizing p with
  | nil => exact absurd rfl hne
  | cons s names ih =>
    obtain ⟨hs, hrest⟩ := List.forall_mem_cons.mp hnames
    obtain ⟨gap, hjoin, hgap⟩ : ∃ gap, (p.join ⟨s⟩).text = p.text ++ gap ++ s
        ∧ (gap = "/" ∨ gap = "" ∧ p.text.toList.getLast? = some '/') := by
      unfold join
      rw [hs.isAbsolute, Bool.false_or, if_neg (mt String.isEmpty_iff.mp hp)]
      split
      · rename_i hlast
        exact ⟨"", by rw [String.append_empty], Or.inr ⟨rfl, beq_iff_eq.mp hlast⟩⟩
      · exact ⟨"/", rfl, Or.inl rfl⟩
    refine ⟨gap, ?_, hgap⟩
    show ((p.join ⟨s⟩).below names).text = _
    by_cases hnil : names = []
    · rw [hnil, String.intercalate_singleton]
      exact hjoin
    · have hlast : (p.join ⟨s⟩).text.toList.getLast? ≠ some '/' := by
        rw [getLast?_join hs.isAbsolute hs.ne_empty]
        exact fun h => hs.slash (List.mem_of_getLast? h)
      have hblank : (p.join ⟨s⟩).text ≠ "" := fun h => by
        rw [hjoin] at h
        exact hs.ne_empty (String.append_eq_empty_iff.mp h).2
      obtain ⟨gap', hbelow, rfl | ⟨-, hslash⟩⟩ := ih hrest hblank hnil
      · rw [hbelow, hjoin, String.intercalate_cons_of_ne_nil hnil]
        simp only [String.append_assoc]
      · exact absurd hslash hlast

theorem below_dropLast_sublist :
    (p.below names.dropLast).text.toList.Sublist (p.below names).text.toList := by
  induction names using List.reverseRecOn with
  | nil => exact List.Sublist.refl _
  | append_singleton names s _ =>
    rw [below_concat, List.dropLast_concat]
    exact sublist_join (hnames s (by simp)).isAbsolute

end Below

/-! ## The parent of a path -/

/-- The beginning of a path. -/
def origin (p : Path) : Path :=
  if p.isAbsolute then ⟨"/"⟩ else if p.pieces.head? = some "." then ⟨"."⟩ else ⟨""⟩

theorem origin_cases (h : p.lead ≠ []) : p.origin = ⟨"/"⟩ ∨ p.origin = ⟨"."⟩ := by
  unfold lead at h
  unfold origin
  split at h
  · rename_i habsolute
    exact Or.inl (if_pos habsolute)
  · rename_i hrelative
    rw [if_neg hrelative]
    split at h
    · rename_i hpoint
      exact Or.inr (if_pos hpoint)
    · exact absurd rfl h

theorem ofComponents_lead_append (p : Path) (names : List String) :
    ofComponents (p.lead ++ names.map Component.ofName) = p.origin.below names := by
  have hlead : ofComponents p.lead = p.origin := by
    unfold lead origin
    split
    · rfl
    · split <;> rfl
  unfold ofComponents at hlead ⊢
  unfold below
  rw [List.foldl_append, hlead, List.foldl_map]
  simp

/-- The pieces that are names. -/
def namesAmong (pieces : List (List Char)) : List String :=
  (pieces.map String.ofList).filter fun s => s ≠ "" ∧ s ≠ "."

theorem namesAmong_cons (piece : List Char) (pieces : List (List Char)) :
    namesAmong (piece :: pieces)
      = if String.ofList piece ≠ "" ∧ String.ofList piece ≠ "."
        then String.ofList piece :: namesAmong pieces else namesAmong pieces := by
  unfold namesAmong
  rw [List.map_cons, List.filter_cons]
  simp only [decide_eq_true_eq]

theorem isAbsolute_ofList {piece : List Char} (h : '/' ∉ piece) :
    (Path.mk (String.ofList piece)).isAbsolute = false := by
  unfold isAbsolute
  rw [String.toList_ofList]
  exact beq_false_of_ne fun hhead => h (List.mem_of_mem_head? hhead)

/-- Behind a path each name takes its slash with it at most. -/
theorem below_namesAmong_sublist {pieces : List (List Char)} (h : ∀ piece ∈ pieces, '/' ∉ piece) :
    (p.below (namesAmong pieces)).text.toList.Sublist
      (p.text.toList ++ pieces.flatMap ('/' :: ·)) := by
  induction pieces generalizing p with
  | nil => exact List.sublist_append_left _ _
  | cons piece pieces ih =>
    have hrest : ∀ piece ∈ pieces, '/' ∉ piece := fun w hw => h w (List.mem_cons_of_mem _ hw)
    rw [namesAmong_cons, List.flatMap_cons, ← List.append_assoc]
    split
    · have hjoin := join_sublist (p := p) (isAbsolute_ofList (h piece List.mem_cons_self))
      rw [String.toList_ofList] at hjoin
      exact (ih hrest).trans (hjoin.append_right _)
    · exact (ih hrest).trans ((List.sublist_append_left _ _).append_right _)

/-- Behind the root the first name needs no slash of its own. -/
theorem below_root_sublist {pieces : List (List Char)} (h : ∀ piece ∈ pieces, '/' ∉ piece)
    (hne : pieces ≠ []) :
    ((Path.mk "/").below (namesAmong pieces)).text.toList.Sublist
      (pieces.flatMap ('/' :: ·)) := by
  induction pieces with
  | nil => exact absurd rfl hne
  | cons piece pieces ih =>
    have hrest : ∀ piece ∈ pieces, '/' ∉ piece := fun w hw => h w (List.mem_cons_of_mem _ hw)
    rw [namesAmong_cons, List.flatMap_cons]
    split
    · have hjoin : ((Path.mk "/").join ⟨String.ofList piece⟩).text.toList = '/' :: piece := by
        unfold join
        rw [isAbsolute_ofList (h piece List.mem_cons_self)]
        simp
      have hbehind := below_namesAmong_sublist (p := (Path.mk "/").join ⟨String.ofList piece⟩) hrest
      rw [hjoin] at hbehind
      exact hbehind
    · cases pieces with
      | nil => simp [namesAmong, below]
      | cons next pieces =>
        exact (ih hrest (List.cons_ne_nil _ _)).trans (List.sublist_append_right _ _)

/-- The names of a path behind its beginning are no longer than the path. -/
theorem below_origin_sublist (p : Path) :
    (p.origin.below p.names).text.toList.Sublist p.text.toList := by
  obtain ⟨first, rest, hsplit, htext, hpieces⟩ := exists_pieces p.text.toList
  have hfirst := hpieces first List.mem_cons_self
  have hrest : ∀ piece ∈ rest, '/' ∉ piece := fun w hw => hpieces w (List.mem_cons_of_mem _ hw)
  have hnames : p.names = namesAmong (first :: rest) := by
    rw [names_eq, pieces, hsplit]
    rfl
  have hhead : p.pieces.head? = some (String.ofList first) := by
    rw [pieces, hsplit]
    rfl
  rw [hnames, namesAmong_cons]
  unfold origin
  rw [hhead]
  cases first with
  | nil =>
    cases rest with
    | nil =>
      have hrelative : p.isAbsolute = false := by
        unfold isAbsolute
        rw [htext]
        rfl
      rw [hrelative]
      exact List.nil_sublist _
    | cons next rest =>
      have habsolute : p.isAbsolute = true := by
        unfold isAbsolute
        rw [htext]
        rfl
      rw [if_pos habsolute, htext]
      exact below_root_sublist hrest (List.cons_ne_nil _ _)
  | cons c first =>
    have hrelative : p.isAbsolute = false := by
      unfold isAbsolute
      rw [htext]
      exact beq_false_of_ne fun h => hfirst (by simp [Option.some.inj h])
    have hne : String.ofList (c :: first) ≠ "" := by simp
    rw [htext, hrelative, if_neg Bool.false_ne_true]
    by_cases hpoint : String.ofList (c :: first) = "."
    · have hnone : ¬(String.ofList (c :: first) ≠ "" ∧ String.ofList (c :: first) ≠ ".") :=
        fun h => h.2 hpoint
      rw [if_neg hnone, if_pos (congrArg some hpoint)]
      have hbehind := below_namesAmong_sublist (p := ⟨String.ofList (c :: first)⟩) hrest
      rwa [String.toList_ofList, hpoint] at hbehind
    · have hsome : String.ofList (c :: first) ≠ "" ∧ String.ofList (c :: first) ≠ "." :=
        ⟨hne, hpoint⟩
      rw [if_pos hsome, if_neg fun h => hpoint (Option.some.inj h)]
      have hbehind := below_namesAmong_sublist (p := ⟨String.ofList (c :: first)⟩) hrest
      rw [String.toList_ofList] at hbehind
      have hjoin : (Path.mk "").join ⟨String.ofList (c :: first)⟩ = ⟨String.ofList (c :: first)⟩ := by
        simp [join]
      rw [← hjoin] at hbehind
      exact hbehind

theorem names_origin (p : Path) : p.origin.names = [] := by
  unfold origin
  split
  · decide +kernel
  · split <;> decide +kernel

theorem isAbsolute_origin (p : Path) : p.origin.isAbsolute = p.isAbsolute := by
  unfold origin
  split
  · rename_i h
    rw [h]
    decide +kernel
  · rename_i h
    rw [Bool.not_eq_true] at h
    rw [h]
    split <;> decide +kernel

/-- A path with names has a parent, which has all of them but the last. A path without names has a
parent only if it is written with a point; that parent is blank. -/
theorem parent?_cases (h : p.parent? = some q) :
    (p.names ≠ [] ∧ q = p.origin.below p.names.dropLast)
    ∨ (p.names = [] ∧ p.isAbsolute = false ∧ q = ⟨""⟩) := by
  unfold parent? at h
  rw [components_eq] at h
  rcases List.eq_nil_or_concat p.names with hnil | ⟨front, last, hlast⟩
  · refine Or.inr ?_
    rw [hnil, List.map_nil, List.append_nil, lead] at h
    cases habsolute : p.isAbsolute with
    | true =>
      rw [if_pos habsolute] at h
      exact absurd h (by simp)
    | false =>
      rw [if_neg (by simp [habsolute])] at h
      split at h
      · exact absurd h (by simp)
      · exact absurd h (by simp)
      · refine ⟨hnil, rfl, ?_⟩
        rw [← Option.some.inj h]
        split <;> rfl
  · refine Or.inl ⟨by rw [hlast]; simp, ?_⟩
    rw [hlast, List.concat_eq_append, List.map_append, List.map_singleton, ← List.append_assoc,
      List.getLast?_concat, List.dropLast_concat, ofComponents_lead_append] at h
    rw [hlast, List.concat_eq_append, List.dropLast_concat]
    split at h
    · exact absurd h (by simp)
    · exact absurd h (by simp)
    · exact (Option.some.inj h).symm

theorem names_of_parent? (h : p.parent? = some q) : q.names = p.names.dropLast := by
  rcases parent?_cases h with ⟨-, rfl⟩ | ⟨hnil, -, rfl⟩
  · generalize hfront : p.names.dropLast = front
    have hnames : ∀ s ∈ front, IsName s := fun s hs =>
      isName_of_mem_names ((List.dropLast_sublist _).subset (hfront ▸ hs))
    rw [names_below hnames, names_origin, List.nil_append]
  · rw [hnil]
    decide +kernel

theorem isAbsolute_of_parent? (h : p.parent? = some q) : q.isAbsolute = p.isAbsolute := by
  rcases parent?_cases h with ⟨-, rfl⟩ | ⟨-, hrelative, rfl⟩
  · rw [isAbsolute_below fun s hs => isName_of_mem_names ((List.dropLast_sublist _).subset hs),
      isAbsolute_origin]
  · rw [hrelative]
    decide +kernel

/-- **A parent is no longer than the path.** -/
theorem sublist_of_parent? (h : p.parent? = some q) : q.text.toList.Sublist p.text.toList := by
  rcases parent?_cases h with ⟨-, rfl⟩ | ⟨-, -, rfl⟩
  · exact (below_dropLast_sublist fun s hs => isName_of_mem_names hs).trans
      (below_origin_sublist p)
  · exact List.nil_sublist _

/-! ## The base name of a path -/

theorem mem_names_of_fileName? {s : String} (h : p.fileName? = some s) : s ∈ p.names := by
  have hmem : Component.name s ∈ p.components := by
    unfold fileName? at h
    split at h
    · rename_i hlast
      rw [← Option.some.inj h]
      exact List.mem_of_getLast? hlast
    · exact absurd h (by simp)
  rw [components_eq] at hmem
  rcases List.mem_append.mp hmem with hlead | hnames
  · unfold lead at hlead
    split at hlead
    · exact absurd hlead (by simp)
    · split at hlead <;> exact absurd hlead (by simp)
  · obtain ⟨t, ht, heq⟩ := List.mem_map.mp hnames
    have htext := congrArg Component.text heq
    rw [Component.text_ofName] at htext
    rwa [show t = s from htext] at ht

theorem mem_toList_of_mem_stemOf {name : String} {c : Char} (h : c ∈ (stemOf name).toList) :
    c ∈ name.toList := by
  unfold stemOf at h
  dsimp only at h
  split at h
  · exact h
  · rw [String.toList_ofList, List.mem_reverse] at h
    exact List.mem_reverse.mp ((List.dropWhile_sublist _).subset ((List.drop_sublist _ _).subset h))

theorem slash_notMem_baseName (p : Path) : '/' ∉ p.baseName.toList := by
  unfold baseName
  cases hname : p.fileName? with
  | none => simp
  | some s =>
    exact fun h => (isName_of_mem_names (mem_names_of_fileName? hname)).slash
      (mem_toList_of_mem_stemOf h)

end DesignTokens.Path
