import MagicAssembly.Proofs.TemplateLayout

namespace MagicAssembly.Template

/-- What a position is written as: by a character of its own, or as part of a named field. -/
inductive Mark
  | symbol (c : Char)
  | part (kind : FieldKind)
  deriving DecidableEq

/-- A fixed bit belongs to no field. -/
def Mark.kind? : Mark → Option FieldKind
  | .symbol c => if c = '0' ∨ c = '1' then none else some .register
  | .part kind => some kind

/-- A position, with the number of the group that it is written in. Cells of two groups are never
equal, even where the same letter is repeated across the gap. -/
structure Cell where
  group : Nat
  mark : Mark
  deriving DecidableEq

/-- Groups that stand for a field as a whole, with its width. -/
def namedField? (group : List Char) : Option (FieldKind × Nat) :=
  if group = "immediate".toList then some (.immediate, 16)
  else if group = "branchoffset".toList then some (.branchOffset, 16)
  else if group = "address26".toList then some (.jumpAddress, 26)
  else none

/-- The groups of the grammar. -/
def IsGroup (group : List Char) : Prop :=
  (namedField? group).isSome ∨ ∀ c ∈ group, c ∈ ['0', '1', 'd', 'r', 's', 't']

instance (group : List Char) : Decidable (IsGroup group) :=
  inferInstanceAs (Decidable (_ ∨ _))

def marks (group : List Char) : List Mark :=
  match namedField? group with
  | some (kind, width) => List.replicate width (.part kind)
  | none => group.map .symbol

/-- The cells of groups that are numbered from `n` on. -/
def cellsFrom (n : Nat) : List (List Char) → List Cell
  | [] => []
  | group :: groups => (marks group).map (⟨n, ·⟩) ++ cellsFrom (n + 1) groups

/-- Template text, position by position from the left. -/
def cells (text : String) : List Cell :=
  cellsFrom 0 (groups text)

/-- Segments written out in cells. -/
inductive Spells : List Segment → List Cell → Prop
  | nil : Spells [] []
  | bit {value : Bool} {c : Cell} {ss : List Segment} {cells : List Cell}
      (mark : c.mark = .symbol (if value then '1' else '0')) (rest : Spells ss cells) :
      Spells (.bit value :: ss) (List.replicate 1 c ++ cells)
  | field {kind : FieldKind} {width : Nat} {c : Cell} {ss : List Segment} {cells : List Cell}
      (kind_eq : c.mark.kind? = some kind) (pos : 0 < width) (ends : cells.head? ≠ some c)
      (rest : Spells ss cells) :
      Spells (.field kind width :: ss) (List.replicate width c ++ cells)

theorem Spells.length {ss : List Segment} {cells : List Cell} (h : Spells ss cells) :
    cells.length = totalWidth ss := by
  induction h with
  | nil => rfl
  | bit _ _ ih | field _ _ _ _ ih =>
    rw [List.length_append, List.length_replicate, ih]
    rfl

/-- A field ends where the cells change, so that a text is spelled part by part if they change
between the parts. -/
theorem Spells.append {ss ss' : List Segment} {cells cells' : List Cell} (h : Spells ss cells)
    (h' : Spells ss' cells') (apart : ∀ c ∈ cells, cells'.head? ≠ some c) :
    Spells (ss ++ ss') (cells ++ cells') := by
  induction h with
  | nil => exact h'
  | bit mark _ ih =>
    rw [List.append_assoc]
    exact .bit mark (ih fun d hd => apart d (List.mem_append_right _ hd))
  | @field kind width c ss cells kind_eq pos ends _ ih =>
    have hc : c ∈ List.replicate width c ++ cells :=
      List.mem_append_left _ (List.mem_replicate.mpr ⟨Nat.ne_of_gt pos, rfl⟩)
    rw [List.append_assoc]
    refine .field kind_eq pos ?_ (ih fun d hd => apart d (List.mem_append_right _ hd))
    cases cells with
    | nil => exact apart c hc
    | cons d cells => exact ends

/-- The cells of a run of letters in group `n`. -/
def runCells (n : Nat) : Option (Char × Nat) → List Cell
  | none => []
  | some (letter, width) => List.replicate width ⟨n, .symbol letter⟩

theorem kind_of_letter {c : Char} (h : isLetter c) : (Mark.symbol c).kind? = some .register := by
  refine if_neg ?_
  rintro (rfl | rfl) <;> exact absurd h (by decide)

/-- A run is over where something else comes after it. -/
theorem Spells.flush {n : Nat} {r : Option (Char × Nat)} {ss : List Segment} {cells : List Cell}
    (h : Spells ss cells) (hrun : IsRun r)
    (ends : ∀ letter width, r = some (letter, width) →
      cells.head? ≠ some ⟨n, .symbol letter⟩) :
    Spells (Template.flush r ++ ss) (runCells n r ++ cells) := by
  cases r with
  | none => exact h
  | some r => exact .field (kind_of_letter hrun.1) hrun.2 (ends _ _ rfl) h

/-- What is read of a group of symbols, behind a run that is not over yet. -/
theorem spells_scan (n : Nat) {r : Option (Char × Nat)} {group : List Char} {ss : List Segment}
    (hrun : IsRun r) (h : scan r group = some ss) :
    Spells ss (runCells n r ++ group.map fun c => ⟨n, .symbol c⟩) := by
  induction group generalizing r ss with
  | nil =>
    cases h
    have hflush := Spells.nil.flush (n := n) hrun (by simp)
    rwa [List.append_nil] at hflush
  | cons c cs ih =>
    rw [List.map_cons]
    obtain ⟨hc, ss', hss, rfl⟩ | ⟨hc, width, rfl, hss⟩ | ⟨hc, hother, ss', hss, rfl⟩ :=
      scan_cons_eq_some h
    · have hmark :
          (Cell.mk n (.symbol c)).mark = .symbol (if (c = '1' : Bool) then '1' else '0') := by
        rcases hc with rfl | rfl <;> rfl
      have hbit := Spells.bit hmark (ih (r := none) trivial hss)
      refine hbit.flush hrun ?_
      intro letter width hsome hhead
      subst hsome
      cases hhead
      rcases hc with rfl | rfl <;> exact absurd hrun.1 (by decide)
    · have hrest := ih (r := some (c, width + 1)) ⟨hc, Nat.succ_pos width⟩ hss
      rw [runCells, List.replicate_succ', List.append_assoc] at hrest
      exact hrest
    · have hrest := ih (r := some (c, 1)) ⟨hc, Nat.one_pos⟩ hss
      refine hrest.flush hrun ?_
      intro letter width hsome hhead
      cases hhead
      exact hother width hsome

theorem scan_isSome_iff {r : Option (Char × Nat)} {group : List Char} :
    (scan r group).isSome ↔ ∀ c ∈ group, c ∈ ['0', '1', 'd', 'r', 's', 't'] := by
  induction group generalizing r with
  | nil => simp [scan]
  | cons c cs ih =>
    have hsymbol : c ∈ ['0', '1', 'd', 'r', 's', 't'] ↔ (c = '0' ∨ c = '1') ∨ isLetter c := by
      simp [isLetter, or_assoc]
    rw [List.forall_mem_cons, hsymbol, scan.eq_def]
    dsimp only
    by_cases hbit : c = '0' ∨ c = '1'
    · rw [if_pos hbit, Option.isSome_map, ih, and_iff_right (.inl hbit)]
    · by_cases hletter : isLetter c
      · rw [if_neg hbit, if_pos hletter, and_iff_right (.inr hletter)]
        split
        · split
          · exact ih
          · rw [Option.isSome_map, ih]
        · exact ih
      · simp [hbit, hletter]

theorem groupSegments_eq (group : List Char) :
    groupSegments? group =
      match namedField? group with
      | some (kind, width) => some [.field kind width]
      | none => scan none group := by
  unfold groupSegments? namedField?
  split
  · rfl
  split
  · rfl
  split
  · rfl
  · rfl

theorem groupSegments_of_isGroup {group : List Char} (h : IsGroup group) (n : Nat) :
    ∃ ss, groupSegments? group = some ss ∧ Spells ss ((marks group).map (⟨n, ·⟩)) := by
  rw [groupSegments_eq, marks]
  cases hnamed : namedField? group with
  | some field =>
    obtain ⟨kind, width⟩ := field
    have hsegments : groupSegments? group = some [.field kind width] := by
      rw [groupSegments_eq, hnamed]
    have hpos : 0 < width := (groupSegments_declared hsegments _ List.mem_cons_self).sound.1
    refine ⟨_, rfl, ?_⟩
    have hs := Spells.field (c := ⟨n, .part kind⟩) rfl hpos (by simp) .nil
    rwa [List.append_nil, ← List.map_replicate] at hs
  | none =>
    have hsymbols : ∀ c ∈ group, c ∈ ['0', '1', 'd', 'r', 's', 't'] := by
      simpa [IsGroup, hnamed] using h
    obtain ⟨ss, hss⟩ := Option.isSome_iff_exists.mp (scan_isSome_iff.mpr hsymbols)
    refine ⟨ss, hss, ?_⟩
    rw [List.map_map]
    exact spells_scan n (r := none) trivial hss

theorem groupSegments_of_not_isGroup {group : List Char} (h : ¬IsGroup group) :
    groupSegments? group = none := by
  rw [groupSegments_eq]
  cases hnamed : namedField? group with
  | some field => exact absurd (.inl (by rw [hnamed]; rfl)) h
  | none =>
    refine Option.not_isSome_iff_eq_none.mp fun hsome => h (.inr ?_)
    exact scan_isSome_iff.mp hsome

theorem group_of_mem_cellsFrom {n : Nat} {groups : List (List Char)} {c : Cell}
    (hc : c ∈ cellsFrom n groups) : n ≤ c.group := by
  induction groups generalizing n with
  | nil => simp [cellsFrom] at hc
  | cons group groups ih =>
    rcases List.mem_append.mp hc with hc | hc
    · obtain ⟨_, _, rfl⟩ := List.mem_map.mp hc
      exact Nat.le_refl _
    · exact Nat.le_of_succ_le (ih hc)

/-- The leftmost group outside the grammar is told; without one, the text is spelled out. -/
theorem segments_eq (n : Nat) (groups : List (List Char)) :
    match groups.find? (fun group => ¬IsGroup group) with
    | some group => segments groups = .error (.malformed (String.ofList group))
    | none => ∃ ss, segments groups = .ok ss ∧ Spells ss (cellsFrom n groups) := by
  induction groups generalizing n with
  | nil => exact ⟨[], rfl, .nil⟩
  | cons group groups ih =>
    by_cases hgroup : IsGroup group
    · have hfind : (group :: groups).find? (fun group => ¬IsGroup group) =
          groups.find? (fun group => ¬IsGroup group) := by
        simp [hgroup]
      obtain ⟨first, hfirst, hspells⟩ := groupSegments_of_isGroup hgroup n
      have hrest := ih (n + 1)
      rw [hfind]
      rw [segments, hfirst]
      split
      · next bad hbad =>
        rw [hbad] at hrest
        simp only at hrest
        rw [hrest]
        rfl
      · next hnone =>
        rw [hnone] at hrest
        obtain ⟨ss, hss, hcells⟩ := hrest
        refine ⟨first ++ ss, by rw [hss]; rfl, ?_⟩
        apply hspells.append hcells
        intro c hc hhead
        obtain ⟨_, _, rfl⟩ := List.mem_map.mp hc
        exact Nat.not_succ_le_self n (group_of_mem_cellsFrom (List.mem_of_mem_head? hhead))
    · have hfind : (group :: groups).find? (fun group => ¬IsGroup group) = some group := by
        simp [hgroup]
      rw [hfind]
      simp only [segments, groupSegments_of_not_isGroup hgroup]

end MagicAssembly.Template
