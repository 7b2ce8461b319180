import DesignTokens.Alias.Trace
import DesignTokens.Proofs.Alias.Anchor

/-!
# Where a trace ends, and what it writes

`Anchors.Walk` is the walk through first definitions without the bookkeeping of a chain. A trace
takes the longest such walk that meets no name twice, and `Anchors.ends_follow` says which of three
things stops it. What matters for the text that the value of a trace is put into follows from there:

* `pointerTarget?_trace`: the value is not a pointer;
* `trimEnd_trace`: it has no blanks at its end;
* `mem_trace`: it holds no characters but those of the anchors and of the placeholders.
-/

namespace DesignTokens.Alias

open Text

/-- What stands in texts with a separator between them. -/
theorem mem_intercalate {separator : List Char} {texts : List (List Char)} {c : Char}
    (hc : c ∈ separator.intercalate texts) : c ∈ separator ∨ ∃ text ∈ texts, c ∈ text := by
  induction texts with
  | nil => exact absurd hc List.not_mem_nil
  | cons text texts ih =>
    by_cases hne : texts = []
    · rw [hne, List.intercalate_singleton] at hc
      exact Or.inr ⟨text, List.mem_cons_self, hc⟩
    · rw [List.intercalate_cons_of_ne_nil hne, List.append_assoc] at hc
      rcases List.mem_append.mp hc with h | h
      · exact Or.inr ⟨text, List.mem_cons_self, h⟩
      · rcases List.mem_append.mp h with h | h
        · exact Or.inl h
        · rcases ih h with h | ⟨t, ht, h⟩
          · exact Or.inl h
          · exact Or.inr ⟨t, List.mem_cons_of_mem _ ht, h⟩

/-- Texts with a separator between them end in the last of them. -/
theorem intercalate_concat (separator : List Char) (texts : List (List Char)) (last : List Char) :
    ∃ text, separator.intercalate (texts ++ [last]) = text ++ last := by
  induction texts with
  | nil => exact ⟨[], List.intercalate_singleton⟩
  | cons t texts ih =>
    obtain ⟨text, h⟩ := ih
    refine ⟨t ++ separator ++ text, ?_⟩
    rw [List.cons_append, List.intercalate_cons_of_ne_nil (by simp), h]
    simp only [List.append_assoc]

namespace Trace

/-- The characters of the placeholders beside the names in them. -/
def frame : List Char :=
  "CANNOT FIND VALUE FOR ".toList ++ ("CYCLIC REFERENCE FOR ".toList ++ " -> ".toList)

theorem mem_frame {c : Char} :
    c ∈ frame ↔ c ∈ "CANNOT FIND VALUE FOR ".toList ∨ c ∈ "CYCLIC REFERENCE FOR ".toList
      ∨ c ∈ " -> ".toList := by
  unfold frame
  rw [List.mem_append, List.mem_append]

theorem mem_missingValue {name : List Char} {c : Char} (hc : c ∈ missingValue name) :
    c ∈ frame ∨ c ∈ name := by
  rcases List.mem_append.mp hc with h | h
  · exact Or.inl (mem_frame.mpr (Or.inl h))
  · exact Or.inr h

theorem mem_cyclicValue {chain : List (List Char)} {c : Char} (hc : c ∈ cyclicValue chain) :
    c ∈ frame ∨ ∃ name ∈ chain, c ∈ name := by
  rcases List.mem_append.mp hc with h | h
  · exact Or.inl (mem_frame.mpr (Or.inr (Or.inl h)))
  · rcases mem_intercalate h with h | h
    · exact Or.inl (mem_frame.mpr (Or.inr (Or.inr h)))
    · exact Or.inr h

/-- A placeholder ends in the last name of it. -/
theorem cyclicValue_concat (chain : List (List Char)) (name : List Char) :
    ∃ text, cyclicValue (chain ++ [name]) = text ++ name := by
  obtain ⟨text, h⟩ := intercalate_concat " -> ".toList chain name
  exact ⟨"CYCLIC REFERENCE FOR ".toList ++ text,
    (congrArg _ h).trans (List.append_assoc _ text name).symm⟩

end Trace

namespace Anchors

/-- Following a value through first definitions meets the names, in order, and then a value. -/
inductive Walk (anchors : Anchors) : List Char → List (List Char) → List Char → Prop where
  | stay (value : List Char) : Walk anchors value [] value
  | step {value target next last : List Char} {names : List (List Char)} :
      pointerTarget? value = some target → anchors.first? target = some next →
      Walk anchors next names last → Walk anchors value (target :: names) last

/-- What can stop a walk that avoids the names of a chain and meets none twice. -/
inductive Ends (anchors : Anchors) (chain : List (List Char)) (value : List Char) :
    Trace → Prop where
  | literal {names : List (List Char)} {last : List Char} :
      Walk anchors value names last → names.Nodup → (∀ n ∈ names, n ∉ chain) →
      pointerTarget? last = none → Ends anchors chain value (.literal last)
  | missing {names : List (List Char)} {last target : List Char} :
      Walk anchors value names last → names.Nodup → (∀ n ∈ names, n ∉ chain) →
      pointerTarget? last = some target → target ∉ chain ++ names →
      anchors.first? target = none → Ends anchors chain value (.missing target)
  | cycle {names : List (List Char)} {last target : List Char} :
      Walk anchors value names last → names.Nodup → (∀ n ∈ names, n ∉ chain) →
      pointerTarget? last = some target → target ∈ chain ++ names →
      Ends anchors chain value (.cycle (chain ++ names ++ [target]))

/-- One pointer more in front. -/
theorem Ends.step {anchors : Anchors} {chain : List (List Char)} {value target next : List Char}
    {t : Trace} (htarget : pointerTarget? value = some target) (hnew : target ∉ chain)
    (hdef : anchors.first? target = some next) (h : Ends anchors (chain ++ [target]) next t) :
    Ends anchors chain value t := by
  have hcons : ∀ names : List (List Char), chain ++ [target] ++ names = chain ++ target :: names :=
    fun names => by rw [List.append_assoc]; rfl
  -- a name that avoids the longer chain is neither in the chain nor the target
  have hnodup : ∀ names : List (List Char), names.Nodup → (∀ n ∈ names, n ∉ chain ++ [target]) →
      (target :: names).Nodup ∧ ∀ n ∈ target :: names, n ∉ chain := by
    intro names hn hout
    refine ⟨List.nodup_cons.mpr ⟨fun hm => hout target hm ?_, hn⟩, ?_⟩
    · exact List.mem_append_right _ (List.mem_singleton_self target)
    · intro n hm
      rcases List.mem_cons.mp hm with hm | hm
      · rw [hm]; exact hnew
      · exact fun hc => hout n hm (List.mem_append_left _ hc)
  cases h with
  | literal hwalk hn hout hlast =>
    obtain ⟨hn', hout'⟩ := hnodup _ hn hout
    exact .literal (.step htarget hdef hwalk) hn' hout' hlast
  | missing hwalk hn hout hlast hmem hnone =>
    obtain ⟨hn', hout'⟩ := hnodup _ hn hout
    exact .missing (.step htarget hdef hwalk) hn' hout' hlast (by rwa [hcons] at hmem) hnone
  | cycle hwalk hn hout hlast hmem =>
    obtain ⟨hn', hout'⟩ := hnodup _ hn hout
    rw [hcons] at hmem ⊢
    exact .cycle (.step htarget hdef hwalk) hn' hout' hlast hmem

/-- A pointer to a name that is not in the chain is followed. -/
theorem follow_of_new {anchors : Anchors} {chain : List (List Char)} {value target : List Char}
    (h : pointerTarget? value = some target) (hnew : target ∉ chain) :
    anchors.follow chain value =
      match anchors.first? target with
      | none => .missing target
      | some next => anchors.follow (chain ++ [target]) next := by
  rw [follow]
  split
  · rename_i hnone
    rw [h] at hnone
    exact absurd hnone (by simp)
  · rename_i t ht
    obtain rfl : t = target := Option.some.inj (ht.symm.trans h)
    rw [dif_neg hnew]
    split <;> (rename_i heq; rw [heq])

theorem follow_of_literal {anchors : Anchors} {chain : List (List Char)} {value : List Char}
    (h : pointerTarget? value = none) : anchors.follow chain value = .literal value := by
  rw [follow]
  split
  · rfl
  · rename_i target htarget
    rw [h] at htarget
    exact absurd htarget (by simp)

theorem follow_of_mem {anchors : Anchors} {chain : List (List Char)} {value target : List Char}
    (h : pointerTarget? value = some target) (hmem : target ∈ chain) :
    anchors.follow chain value = .cycle (chain ++ [target]) := by
  rw [follow]
  split
  · rename_i hnone
    rw [h] at hnone
    exact absurd hnone (by simp)
  · rename_i t ht
    obtain rfl : t = target := Option.some.inj (ht.symm.trans h)
    rw [dif_pos hmem]

/-- **A trace ends where the walk through first definitions ends or begins to repeat itself.** -/
theorem ends_follow (anchors : Anchors) (chain : List (List Char)) (value : List Char) :
    Ends anchors chain value (anchors.follow chain value) := by
  induction chain, value using follow.induct anchors with
  | case1 chain value h =>
    rw [follow_of_literal h]
    exact .literal (.stay value) List.nodup_nil (fun _ hn => absurd hn List.not_mem_nil) h
  | case2 chain value target h hmem =>
    have hchain : chain ++ [target] = chain ++ [] ++ [target] := by rw [List.append_nil]
    rw [follow_of_mem h hmem, hchain]
    exact .cycle (.stay value) List.nodup_nil (fun _ hn => absurd hn List.not_mem_nil) h
      (List.mem_append_left _ hmem)
  | case3 chain value target h hmem hdef =>
    rw [follow_of_new h hmem, hdef]
    exact .missing (.stay value) List.nodup_nil (fun _ hn => absurd hn List.not_mem_nil) h
      (by rwa [List.append_nil]) hdef
  | case4 chain value target h hmem next hdef ih =>
    rw [follow_of_new h hmem, hdef]
    exact ih.step h hmem hdef

/-- A walk that meets no name of the chain and none twice is followed to its end. -/
theorem follow_of_walk {anchors : Anchors} {chain names : List (List Char)}
    {value last : List Char} (h : Walk anchors value names last) (hnodup : names.Nodup)
    (hout : ∀ n ∈ names, n ∉ chain) :
    anchors.follow chain value = anchors.follow (chain ++ names) last := by
  induction h generalizing chain with
  | stay value => rw [List.append_nil]
  | @step value target next last names htarget hdef _ ih =>
    have hcons : chain ++ target :: names = chain ++ [target] ++ names := by
      rw [List.append_assoc]; rfl
    obtain ⟨hnew, hnodup'⟩ := List.nodup_cons.mp hnodup
    rw [follow_of_new htarget (hout target List.mem_cons_self), hdef, hcons]
    refine ih hnodup' fun n hn hmem => ?_
    rcases List.mem_append.mp hmem with hmem | hmem
    · exact hout n (List.mem_cons_of_mem _ hn) hmem
    · rw [List.mem_singleton.mp hmem] at hn
      exact hnew hn

/-- There is one way for a walk to end, and a trace finds it. -/
theorem follow_eq_iff_ends {anchors : Anchors} {chain : List (List Char)} {value : List Char}
    {t : Trace} : anchors.follow chain value = t ↔ Ends anchors chain value t := by
  constructor
  · rintro rfl
    exact ends_follow anchors chain value
  · intro h
    cases h with
    | literal hwalk hnodup hout hlast =>
      rw [follow_of_walk hwalk hnodup hout, follow_of_literal hlast]
    | missing hwalk hnodup hout hlast hmem hnone =>
      rw [follow_of_walk hwalk hnodup hout, follow_of_new hlast hmem, hnone]
    | cycle hwalk hnodup hout hlast hmem =>
      rw [follow_of_walk hwalk hnodup hout, follow_of_mem hlast hmem]

/-! ## What a walk meets -/

theorem Walk.last_eq {anchors : Anchors} {value last : List Char} {names : List (List Char)}
    (h : Walk anchors value names last) : last = value ∨ ∃ a ∈ anchors, a.value = last := by
  induction h with
  | stay value => exact Or.inl rfl
  | @step value target next last names _ hdef _ ih =>
    obtain ⟨a, ha, -, hv⟩ := mem_of_first? hdef
    rcases ih with ih | ih
    · exact Or.inr ⟨a, ha, by rw [ih, hv]⟩
    · exact Or.inr ih

theorem Walk.mem_names {anchors : Anchors} {value last : List Char} {names : List (List Char)}
    (h : Walk anchors value names last) : ∀ n ∈ names, ∃ a ∈ anchors, a.name = n := by
  induction h with
  | stay value => intro n hn; exact absurd hn List.not_mem_nil
  | @step value target next last names _ hdef _ ih =>
    obtain ⟨a, ha, hname, -⟩ := mem_of_first? hdef
    intro n hn
    rcases List.mem_cons.mp hn with hn | hn
    · exact ⟨a, ha, by rw [hn, hname]⟩
    · exact ih n hn

/-! ## What a trace writes -/

/-- **A traced value is not a pointer.** -/
theorem pointerTarget?_trace (anchors : Anchors) (a : Anchor) :
    pointerTarget? (anchors.trace a).value = none := by
  have hends := ends_follow anchors [a.name] a.value
  unfold trace
  generalize anchors.follow [a.name] a.value = t at hends ⊢
  cases hends with
  | literal _ _ _ hlast => exact hlast
  | missing => exact pointerTarget?_cons_of_ne (by decide) (by decide) _
  | cycle => exact pointerTarget?_cons_of_ne (by decide) (by decide) _

/-- A traced value has no blanks at its end if the values of the anchors have none. -/
theorem trimEnd_trace {anchors : Anchors} (htrim : ∀ b ∈ anchors, trimEnd b.value = b.value)
    {a : Anchor} (ha : a ∈ anchors) :
    trimEnd (anchors.trace a).value = (anchors.trace a).value := by
  have hmet : ∀ {names : List (List Char)} {last : List Char},
      Walk anchors a.value names last → trimEnd last = last := by
    intro names last hwalk
    rcases hwalk.last_eq with h | ⟨b, hb, h⟩
    · rw [h]; exact htrim a ha
    · rw [← h]; exact htrim b hb
  have hends := ends_follow anchors [a.name] a.value
  unfold trace
  generalize anchors.follow [a.name] a.value = t at hends ⊢
  cases hends with
  | literal hwalk _ _ _ => exact hmet hwalk
  | missing hwalk _ _ hlast _ _ =>
    obtain ⟨hne, hblank, -⟩ := pointerTarget?_spec hlast
    exact trimEnd_append_word _ hne hblank
  | @cycle names last target hwalk _ _ hlast _ =>
    obtain ⟨hne, hblank, -⟩ := pointerTarget?_spec hlast
    obtain ⟨text, htext⟩ := Trace.cyclicValue_concat ([a.name] ++ names) target
    show trimEnd (Trace.cyclicValue _) = Trace.cyclicValue _
    rw [htext]
    exact trimEnd_append_word text hne hblank

/-- A traced value is made of the anchors and of the placeholders. -/
theorem mem_trace {anchors : Anchors} {a : Anchor} (ha : a ∈ anchors) {c : Char}
    (hc : c ∈ (anchors.trace a).value) :
    c ∈ Trace.frame ∨ ∃ b ∈ anchors, c ∈ b.name ∨ c ∈ b.value := by
  have hmet : ∀ {names : List (List Char)} {last : List Char},
      Walk anchors a.value names last → c ∈ last → ∃ b ∈ anchors, c ∈ b.name ∨ c ∈ b.value := by
    intro names last hwalk hlast
    rcases hwalk.last_eq with h | ⟨b, hb, h⟩
    · exact ⟨a, ha, Or.inr (h ▸ hlast)⟩
    · exact ⟨b, hb, Or.inr (h ▸ hlast)⟩
  have hends := ends_follow anchors [a.name] a.value
  unfold trace at hc
  generalize anchors.follow [a.name] a.value = t at hends hc
  cases hends with
  | literal hwalk _ _ _ => exact Or.inr (hmet hwalk hc)
  | missing hwalk _ _ hlast _ _ =>
    rcases Trace.mem_missingValue hc with h | h
    · exact Or.inl h
    · exact Or.inr (hmet hwalk ((pointerTarget?_spec hlast).2.2 c h))
  | @cycle names last target hwalk _ _ hlast _ =>
    rcases Trace.mem_cyclicValue hc with h | ⟨name, hname, h⟩
    · exact Or.inl h
    · right
      -- the name is that of the anchor, of one met on the walk, or of the pointer that closes it
      rcases List.mem_append.mp hname with hname | hname
      · rcases List.mem_append.mp hname with hname | hname
        · exact ⟨a, ha, Or.inl (List.mem_singleton.mp hname ▸ h)⟩
        · obtain ⟨b, hb, hbn⟩ := hwalk.mem_names name hname
          exact ⟨b, hb, Or.inl (hbn ▸ h)⟩
      · rw [List.mem_singleton.mp hname] at h
        exact hmet hwalk ((pointerTarget?_spec hlast).2.2 c h)

end Anchors

end DesignTokens.Alias
