import MagicAssembly.Instruction.Effect
import MagicAssembly.Program
import MagicAssembly.Proofs.Words

namespace MagicAssembly

/-- Some characters, none of which is a blank or a comma. -/
structure IsToken (text : String) : Prop where
  nonempty : text ≠ ""
  unseparated : ∀ c ∈ text.toList, separatesTokens c = false

theorem isToken_iff {text : String} : IsToken text ↔ Text.IsWord separatesTokens text.toList := by
  have hempty : text ≠ "" ↔ text.toList ≠ [] := not_congr String.toList_eq_nil_iff.symm
  exact ⟨fun h => ⟨hempty.mp h.nonempty, h.unseparated⟩, fun h => ⟨hempty.mpr h.1, h.2⟩⟩

theorem tokenize_toList (line : String) :
    (tokenize line).map String.toList = Text.words separatesTokens line.toList := by
  rw [tokenize, List.map_map]
  exact List.map_id'' (fun _ => String.toList_ofList) _

theorem isToken_of_mem {line token : String} (h : token ∈ tokenize line) : IsToken token := by
  rw [isToken_iff]
  apply Text.isWord_of_mem_words
  rw [← tokenize_toList]
  exact List.mem_map_of_mem h

theorem IsToken.tokenize_eq {text : String} (h : IsToken text) : tokenize text = [text] := by
  rw [tokenize, (isToken_iff.mp h).words_eq, List.map_singleton, String.ofList_toList]

/-- Tokens end at a separator. -/
theorem tokenize_append (before after : String) {c : Char} (hc : separatesTokens c) :
    tokenize (before ++ String.singleton c ++ after) = tokenize before ++ tokenize after := by
  simp only [tokenize, String.toList_append, String.toList_singleton, List.append_assoc,
    List.cons_append, List.nil_append, Text.words_append_cons _ _ hc, List.map_append]

theorem tokenize_intercalate {tokens : List String} (h : ∀ t ∈ tokens, IsToken t) :
    tokenize (" ".intercalate tokens) = tokens := by
  have hwords : ∀ w ∈ tokens.map String.toList, Text.IsWord separatesTokens w := by
    intro w hw
    obtain ⟨t, ht, rfl⟩ := List.mem_map.mp hw
    exact isToken_iff.mp (h t ht)
  rw [tokenize, String.toList_intercalate, Text.words_intercalate (by decide) (by decide) hwords,
    List.map_map]
  exact List.map_id'' (fun _ => String.ofList_toList) _

theorem join_tokenize (line : String) :
    String.join (tokenize line) =
      String.ofList (line.toList.filter fun c => !separatesTokens c) := by
  rw [← String.toList_inj, String.toList_join, String.toList_ofList, ← Text.words_flatten,
    ← tokenize_toList]
  exact List.flatMap_def

theorem labelToken_eq_none_iff {tokens : List String} (h : ∀ t ∈ tokens, IsToken t) :
    labelToken? tokens = none ↔ tokens.length < 2 := by
  have hkept : labelToken? tokens = tokens[1]? := by
    unfold labelToken?
    cases htoken : tokens[1]? with
    | none => rfl
    | some t =>
      have hne : t ≠ "" := (h t (List.mem_of_getElem? htoken)).nonempty
      exact Option.filter_some_pos (decide_eq_true hne)
  rw [hkept, List.getElem?_eq_none_iff]
  exact Nat.lt_succ_iff.symm

theorem Instruction.jump_missingLabel_iff (labels : Labels) (s : Storage) (label : Option String) :
    ((Instruction.jump label).execute labels s).1 = .error .missingLabel ↔ label = none := by
  cases label with
  | none => simp [execute, effect]
  | some name =>
    simp only [execute, effect]
    cases labels.resolve? name <;> simp

/-- A line is cut at its blanks and commas and nowhere else, and nothing but them is lost. So a jump
finds its label missing exactly if its line has fewer than two tokens. -/
theorem tokenize_exact (line : String) :
    (∀ token ∈ tokenize line, IsToken token) ∧
    String.join (tokenize line) =
      String.ofList (line.toList.filter fun c => !separatesTokens c) ∧
    (IsToken line → tokenize line = [line]) ∧
    (∀ before c after, separatesTokens c →
      tokenize (before ++ String.singleton c ++ after) = tokenize before ++ tokenize after) ∧
    tokenize (" ".intercalate (tokenize line)) = tokenize line ∧
    ∀ (program : Program) (word : Word), ∃ statement : Statement,
      (program.push word line).statements = program.statements.push statement ∧
      ∀ ops labels s,
        ((Instruction.ofOperands .teleport ops statement.tokens).execute labels s).1 =
            .error .missingLabel ↔
          (tokenize line).length < 2 := by
  have htokens : ∀ token ∈ tokenize line, IsToken token := fun _ => isToken_of_mem
  refine ⟨htokens, join_tokenize line, IsToken.tokenize_eq,
    fun before c after => tokenize_append before after, tokenize_intercalate htokens, ?_⟩
  intro program word
  refine ⟨⟨word, tokenize line⟩, rfl, fun ops labels s => ?_⟩
  exact (Instruction.jump_missingLabel_iff labels s _).trans (labelToken_eq_none_iff htokens)

/-- Neighbouring separators enclose no token. -/
theorem tokenize_jumpLine :
    separatesTokens ',' ∧ IsToken "tp" ∧ tokenize "tp, loop" = ["tp", "loop"] := by
  have hjump : IsToken "tp" := isToken_iff.mpr (by decide)
  have hlabel : tokenize " loop" = ["loop"] := by decide
  obtain ⟨-, -, hwhole, hcut, -⟩ := tokenize_exact "tp"
  have hline := hcut "tp" ',' " loop" (by decide)
  rw [hwhole hjump, hlabel] at hline
  exact ⟨by decide, hjump, hline⟩

end MagicAssembly
