import MagicAssembly.Text.Words

namespace MagicAssembly.Text

variable {separates : Char → Bool}

/-- Words end at a separator. -/
theorem words_append_cons (before after : List Char) {c : Char} (hc : separates c) :
    words separates (before ++ c :: after) = words separates before ++ words separates after := by
  rw [words, words, words, List.splitOnP_append_cons before after hc, List.filter_append]

@[simp] theorem words_nil : words separates [] = [] := by
  rw [words, List.splitOnP_nil]
  rfl

theorem words_cons (after : List Char) {c : Char} (hc : separates c) :
    words separates (c :: after) = words separates after := by
  have h := words_append_cons [] after hc
  rwa [List.nil_append, words_nil, List.nil_append] at h

theorem words_append_left {gap : List Char} (hgap : gap.all separates) (after : List Char) :
    words separates (gap ++ after) = words separates after := by
  induction gap with
  | nil => rfl
  | cons c gap ih =>
    rw [List.all_cons, Bool.and_eq_true] at hgap
    rw [List.cons_append, words_cons _ hgap.1, ih hgap.2]

/-- Any gap does between two words, if only there is one. -/
theorem words_append_gap {gap : List Char} (hne : gap ≠ []) (hgap : gap.all separates)
    (before after : List Char) :
    words separates (before ++ gap ++ after) = words separates before ++ words separates after := by
  cases gap with
  | nil => exact absurd rfl hne
  | cons c gap =>
    rw [List.all_cons, Bool.and_eq_true] at hgap
    rw [List.append_assoc, List.cons_append, words_append_cons _ _ hgap.1,
      words_append_left hgap.2]

/-- A text without separators is a word, unless it is empty. -/
theorem words_of_free {text : List Char} (h : ∀ c ∈ text, separates c = false) :
    words separates text = [text].filter (!·.isEmpty) := by
  rw [words, List.splitOnP_eq_singleton h]

/-- Some characters, none of which is a separator. -/
def IsWord (separates : Char → Bool) (text : List Char) : Prop :=
  text ≠ [] ∧ ∀ c ∈ text, separates c = false

instance (text : List Char) : Decidable (IsWord separates text) :=
  decidable_of_iff (text.isEmpty = false ∧ (text.all fun c => !separates c) = true)
    (by simp [IsWord])

theorem IsWord.words_eq {text : List Char} (h : IsWord separates text) :
    words separates text = [text] := by
  obtain ⟨hne, hfree⟩ := h
  rw [words_of_free hfree]
  simpa using hne

/-- The first separator shows where the first word ends. -/
theorem IsWord.append_cons_inj {a b x y : List Char} (ha : IsWord separates a)
    (hb : IsWord separates b) {c : Char} (hc : separates c) (h : a ++ c :: x = b ++ c :: y) :
    a = b ∧ x = y := by
  have hwords := congrArg (words separates) h
  rw [words_append_cons _ _ hc, words_append_cons _ _ hc, ha.words_eq, hb.words_eq] at hwords
  obtain rfl : a = b := (List.cons.inj hwords).1
  exact ⟨rfl, List.tail_eq_of_cons_eq (List.append_cancel_left h)⟩

/-- Every text is built of texts without separators, put together with a separator between them. -/
theorem separated_induction (separates : Char → Bool) {P : List Char → Prop}
    (free : ∀ text, (∀ c ∈ text, separates c = false) → P text)
    (append : ∀ before c after, separates c → P before → P after → P (before ++ c :: after))
    (text : List Char) : P text := by
  suffices behindFree : ∀ before, (∀ c ∈ before, separates c = false) → P (before ++ text) from
    behindFree [] fun _ hc => absurd hc List.not_mem_nil
  induction text with
  | nil =>
    intro before hbefore
    rw [List.append_nil]
    exact free before hbefore
  | cons c text ih =>
    intro before hbefore
    cases hc : separates c with
    | true => exact append before c text hc (free before hbefore) (ih [] nofun)
    | false =>
      rw [List.append_cons]
      refine ih _ fun d hd => ?_
      rcases List.mem_append.mp hd with hd | hd
      · exact hbefore d hd
      · rwa [List.mem_singleton.mp hd]

theorem isWord_of_mem_words {text word : List Char} (h : word ∈ words separates text) :
    IsWord separates word := by
  induction text using separated_induction separates with
  | free text hfree =>
    rw [words_of_free hfree, List.mem_filter, List.mem_singleton] at h
    obtain ⟨rfl, hne⟩ := h
    exact ⟨by simpa using hne, hfree⟩
  | append before c after hc ihbefore ihafter =>
    rw [words_append_cons before after hc, List.mem_append] at h
    exact h.elim ihbefore ihafter

/-- All that is left out is separators. -/
theorem words_flatten (text : List Char) :
    (words separates text).flatten = text.filter fun c => !separates c := by
  induction text using separated_induction separates with
  | free text hfree =>
    have hkept : text.filter (fun c => !separates c) = text :=
      List.filter_eq_self.mpr fun c hc => by rw [hfree c hc]; rfl
    rw [words_of_free hfree, hkept]
    cases text <;> simp
  | append before c after hc ihbefore ihafter =>
    rw [words_append_cons before after hc, List.flatten_append, ihbefore, ihafter,
      List.filter_append, List.filter_cons_of_neg (by simpa using hc)]

theorem words_intercalate {gap : List Char} (hne : gap ≠ []) (hgap : gap.all separates)
    {ws : List (List Char)} (hws : ∀ w ∈ ws, IsWord separates w) :
    words separates (gap.intercalate ws) = ws := by
  induction ws with
  | nil => rw [List.intercalate_nil, words_nil]
  | cons w ws ih =>
    have hw := (hws w List.mem_cons_self).words_eq
    have hrest := ih fun w hm => hws w (List.mem_cons_of_mem _ hm)
    cases ws with
    | nil => rw [List.intercalate_singleton, hw]
    | cons v ws =>
      rw [List.intercalate_cons_cons, words_append_gap hne hgap, hw, hrest]
      rfl

theorem not_mem_intercalate {c : Char} {gap : List Char} (hgap : c ∉ gap)
    {ws : List (List Char)} (hws : ∀ w ∈ ws, c ∉ w) : c ∉ gap.intercalate ws := by
  induction ws with
  | nil => simp
  | cons w ws ih =>
    have hw := hws w List.mem_cons_self
    have hrest := ih fun w hm => hws w (List.mem_cons_of_mem _ hm)
    cases ws with
    | nil => rwa [List.intercalate_singleton]
    | cons v ws =>
      rw [List.intercalate_cons_cons, List.mem_append, List.mem_append]
      exact not_or.mpr ⟨not_or.mpr ⟨hw, hgap⟩, hrest⟩

end MagicAssembly.Text
