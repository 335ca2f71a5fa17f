import MagicAssembly.Proofs.CatalogDisjoint

namespace MagicAssembly

namespace Template

/-- Some word can mean either. -/
def ShareWord (a b : Template) : Prop :=
  ∃ w, a.Matches w ∧ b.Matches w

theorem overlaps_comm {a b : Template} : a.Overlaps b ↔ b.Overlaps a := by
  unfold Overlaps
  rw [BitVec.xor_comm, BitVec.and_assoc, BitVec.and_assoc, BitVec.and_comm a.fixedMask]

/-- The word with all the ones of both templates. -/
theorem matches_or {a b : Template} (h : a.Overlaps b)
    (ha : a.fixedBits &&& ~~~a.fixedMask = 0) (hb : b.fixedBits &&& ~~~b.fixedMask = 0) :
    a.Matches (a.fixedBits ||| b.fixedBits) := by
  unfold Overlaps at h
  unfold Matches
  simp only [Word.bits_iff, BitVec.getLsbD_and, BitVec.getLsbD_or, BitVec.getLsbD_xor,
    BitVec.getLsbD_not] at *
  grind

/-- The bitwise test is exact for templates that have no ones outside their masks. -/
theorem Fills.overlaps_iff {a b : Template} {m n : Nat} (ha : a.Fills m) (hb : b.Fills n) :
    a.Overlaps b ↔ a.ShareWord b := by
  constructor
  · intro h
    have hwb := matches_or (overlaps_comm.mp h) hb.bits_inside ha.bits_inside
    rw [BitVec.or_comm] at hwb
    exact ⟨_, matches_or h ha.bits_inside hb.bits_inside, hwb⟩
  · rintro ⟨w, hwa, hwb⟩
    exact overlaps_of_matches hwa hwb

end Template

namespace Definition

def Duplicates (a b : Definition) : Prop :=
  a.mnemonic = b.mnemonic ∧ a.kind = b.kind

/-- One catalog can hold both. -/
def Compatible (a b : Definition) : Prop :=
  ¬a.Duplicates b ∧ ¬a.template.ShareWord b.template

theorem objection_comm {a b : Definition} : a.objection b = none ↔ b.objection a = none := by
  rw [objection_eq_none, objection_eq_none, Template.overlaps_comm, @eq_comm _ a.mnemonic,
    @eq_comm _ a.kind]

/-- A duplicate is told before a conflict. -/
theorem objection_eq_some_iff {new existing : Definition} {fault : CatalogFault} :
    new.objection existing = some fault ↔
      existing.Duplicates new ∧ fault = .duplicate new.kind ∨
        ¬existing.Duplicates new ∧ existing.template.Overlaps new.template ∧
          fault = .conflict existing.mnemonic := by
  unfold objection Duplicates
  by_cases hdup : existing.mnemonic = new.mnemonic ∧ existing.kind = new.kind
  · simp [hdup, eq_comm]
  · by_cases hover : existing.template.Overlaps new.template <;>
      simp [hdup, hover, @eq_comm _ fault]

end Definition

namespace Catalog

theorem register_eq_ok_iff {c c' : Catalog} {d : Definition} :
    c.register d = .ok c' ↔
      (∀ x ∈ c.definitions, d.objection x = none) ∧ c'.definitions = c.definitions ++ [d] := by
  constructor
  · intro h
    exact (register_eq_ok h).symm
  · rintro ⟨hnone, hdefs⟩
    rw [register, List.findSome?_eq_none_iff.mpr hnone, ← hdefs]

theorem register_eq_error_iff {c : Catalog} {d : Definition} {e : CatalogError} :
    c.register d = .error e ↔
      ∃ before x after fault, c.definitions = before ++ x :: after ∧
        (∀ y ∈ before, d.objection y = none) ∧ d.objection x = some fault ∧
          e = ⟨d.mnemonic, fault⟩ := by
  rw [register]
  constructor
  · intro h
    split at h
    · next fault hfault =>
      obtain ⟨before, x, after, hdefs, hx, hbefore⟩ := List.findSome?_eq_some_iff.mp hfault
      cases h
      exact ⟨before, x, after, fault, hdefs, hbefore, hx, rfl⟩
    · cases h
  · rintro ⟨before, x, after, fault, hdefs, hbefore, hx, rfl⟩
    rw [List.findSome?_eq_some_iff.mpr ⟨before, x, after, hdefs, hx, hbefore⟩]

/-- A new definition is held against those of the catalog word for word. -/
theorem Valid.objection_eq_none_iff {c : Catalog} (hc : c.Valid) {d x : Definition}
    (hd : d.template.Fills 32) (hx : x ∈ c.definitions) :
    d.objection x = none ↔ x.Compatible d := by
  rw [Definition.objection_eq_none, (hc.fills x hx).overlaps_iff hd]
  rfl

theorem Valid.objection_eq_some_iff {c : Catalog} (hc : c.Valid) {d x : Definition}
    (hd : d.template.Fills 32) (hx : x ∈ c.definitions) {fault : CatalogFault} :
    d.objection x = some fault ↔
      x.Duplicates d ∧ fault = .duplicate d.kind ∨
        ¬x.Duplicates d ∧ x.template.ShareWord d.template ∧ fault = .conflict x.mnemonic := by
  rw [Definition.objection_eq_some_iff, (hc.fills x hx).overlaps_iff hd]

/-- A catalog takes a new definition exactly if it holds no duplicate of it and no definition that
shares a word with it. Otherwise it stays as it was, and the earliest such definition is told. -/
theorem Reachable.register_exact {c : Catalog} (hc : c.Reachable) {e : Entry} {d : Definition}
    (hd : e.build = .ok d) :
    (∀ c', c.register d = .ok c' ↔
      (∀ x ∈ c.definitions, x.Compatible d) ∧ c'.definitions = c.definitions ++ [d]) ∧
    (∀ error, c.register d = .error error ↔
      ∃ before x after fault, c.definitions = before ++ x :: after ∧
        (∀ y ∈ before, y.Compatible d) ∧
          (x.Duplicates d ∧ fault = .duplicate d.kind ∨
            ¬x.Duplicates d ∧ x.template.ShareWord d.template ∧ fault = .conflict x.mnemonic) ∧
            error = ⟨d.mnemonic, fault⟩) ∧
    (∀ c', c.register d = .ok c' → c.offer e = c') ∧
    (∀ error, c.register d = .error error → c.offer e = c) ∧
    (∀ text text' a b, Template.parse text = .ok a → Template.parse text' = .ok b →
      (a.Overlaps b ↔ a.ShareWord b)) := by
  have hv := hc.valid
  have hfills := (Entry.build_eq_ok hd).1
  have hall (xs : List Definition) (hxs : xs ⊆ c.definitions) :
      (∀ x ∈ xs, d.objection x = none) ↔ ∀ x ∈ xs, x.Compatible d :=
    forall₂_congr fun x hx => hv.objection_eq_none_iff hfills (hxs hx)
  refine ⟨?_, ?_, ?_, ?_, ?_⟩
  · intro c'
    rw [register_eq_ok_iff, hall _ (List.Subset.refl _)]
  · intro error
    rw [register_eq_error_iff]
    refine exists_congr fun before => exists_congr fun x => exists_congr fun after =>
      exists_congr fun fault => and_congr_right fun hdefs => ?_
    have hbefore : before ⊆ c.definitions := by simp [hdefs]
    have hx : x ∈ c.definitions := by simp [hdefs]
    rw [hall before hbefore, hv.objection_eq_some_iff hfills hx]
  · intro c' h
    simp only [Catalog.offer, hd, h]
  · intro error h
    simp only [Catalog.offer, hd, h]
  · intro text text' a b ha hb
    exact (Template.fills_of_parse ha).overlaps_iff (Template.fills_of_parse hb)

/-- It asks for words that `twoCharges` reads as the second format of `chrg`. -/
def lateSwap : Entry :=
  { opcode := .swap, usage := "swap $t0,$t1,1", kind := .immediate
    description := "", template := "000001 sssss ttttt immediate" }

def lateSwapDefinition : Definition :=
  { opcode := .swap, usage := "swap $t0,$t1,1", kind := .immediate
    description := ""
    template := ⟨0xFC000000, 0x04000000,
      [⟨.register, 21, 5⟩, ⟨.register, 16, 5⟩, ⟨.immediate, 0, 16⟩]⟩ }

theorem twoCharges_refuses_swap :
    lateSwap.build = .ok lateSwapDefinition ∧
      twoCharges.register lateSwapDefinition = .error ⟨"swap", .conflict "chrg"⟩ ∧
        twoCharges.offer lateSwap = twoCharges ∧
          ∃ before x after, twoCharges.definitions = before ++ x :: after ∧
            (∀ y ∈ before, y.Compatible lateSwapDefinition) ∧ ¬x.Duplicates lateSwapDefinition ∧
              x.template.ShareWord lateSwapDefinition.template := by
  have hbuild : lateSwap.build = .ok lateSwapDefinition := by rfl
  have hconflict : twoCharges.register lateSwapDefinition = .error ⟨"swap", .conflict "chrg"⟩ := by
    rfl
  obtain ⟨_, herror, _, hoffer, _⟩ := twoCharges_reachable.register_exact hbuild
  obtain ⟨before, x, after, fault, hdefs, hbefore, hcause, he⟩ := (herror _).mp hconflict
  rcases hcause with ⟨_, rfl⟩ | ⟨hdup, hshare, _⟩
  · cases he
  · exact ⟨hbuild, hconflict, hoffer _ hconflict, before, x, after, hdefs, hbefore, hdup, hshare⟩

end Catalog

end MagicAssembly
