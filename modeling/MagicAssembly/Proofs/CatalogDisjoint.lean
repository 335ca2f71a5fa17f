import MagicAssembly.Catalog.Standard
import MagicAssembly.Proofs.TemplateCodec

namespace MagicAssembly

theorem Entry.build_eq_ok {e : Entry} {d : Definition} (h : e.build = .ok d) :
    d.template.Fills 32 ∧ d.template.Fits d.kind := by
  unfold Entry.build at h
  split at h
  · cases h
  · next t ht =>
    split at h
    · next hfits =>
      cases h
      exact ⟨Template.fills_of_parse ht, hfits⟩
    · cases h

theorem Definition.objection_eq_none {new existing : Definition} :
    new.objection existing = none ↔
      ¬(existing.mnemonic = new.mnemonic ∧ existing.kind = new.kind) ∧
        ¬existing.template.Overlaps new.template := by
  unfold objection
  by_cases hdup : existing.mnemonic = new.mnemonic ∧ existing.kind = new.kind
  · simp [hdup]
  · by_cases hover : existing.template.Overlaps new.template <;> simp [hdup, hover]

namespace Catalog

theorem register_eq_ok {c c' : Catalog} {d : Definition} (h : c.register d = .ok c') :
    c'.definitions = c.definitions ++ [d] ∧
      ∀ existing ∈ c.definitions, d.objection existing = none := by
  unfold register at h
  split at h
  · cases h
  · next hnone =>
    cases h
    exact ⟨rfl, List.findSome?_eq_none_iff.mp hnone⟩

/-- A host offers an instruction. A refused one leaves the catalog as it was. -/
def offer (c : Catalog) (e : Entry) : Catalog :=
  match e.build with
  | .error _ => c
  | .ok d =>
    match c.register d with
    | .error _ => c
    | .ok c' => c'

/-- Whatever a host offered, accepted or not, in whatever order. -/
inductive Reachable : Catalog → Prop
  | empty : Reachable .empty
  | offer {c : Catalog} (h : Reachable c) (e : Entry) : Reachable (c.offer e)

/-- What registration keeps: no two definitions overlap or go by the same mnemonic and format. -/
structure Valid (c : Catalog) : Prop where
  fills : ∀ d ∈ c.definitions, d.template.Fills 32
  fits : ∀ d ∈ c.definitions, d.template.Fits d.kind
  distinct : c.definitions.Pairwise fun a b => ¬(a.mnemonic = b.mnemonic ∧ a.kind = b.kind)
  disjoint : c.definitions.Pairwise fun a b => ¬a.template.Overlaps b.template

theorem Valid.empty : Catalog.empty.Valid :=
  ⟨by simp [Catalog.empty], by simp [Catalog.empty], .nil, .nil⟩

theorem Valid.register {c c' : Catalog} {e : Entry} {d : Definition} (hc : c.Valid)
    (hb : e.build = .ok d) (hr : c.register d = .ok c') : c'.Valid := by
  obtain ⟨hdefs, hnone⟩ := register_eq_ok hr
  obtain ⟨hfills, hfits⟩ := Entry.build_eq_ok hb
  have hnew (a : Definition) (ha : a ∈ c.definitions) (b : Definition) (hm : b ∈ [d]) :
      ¬(a.mnemonic = b.mnemonic ∧ a.kind = b.kind) ∧ ¬a.template.Overlaps b.template := by
    obtain rfl := List.mem_singleton.mp hm
    exact Definition.objection_eq_none.mp (hnone a ha)
  refine ⟨?_, ?_, ?_, ?_⟩
  · rw [hdefs]
    exact List.forall_mem_append.mpr ⟨hc.fills, by simpa using hfills⟩
  · rw [hdefs]
    exact List.forall_mem_append.mpr ⟨hc.fits, by simpa using hfits⟩
  · rw [hdefs]
    exact List.pairwise_append.mpr ⟨hc.distinct, by simp, fun a ha b hm => (hnew a ha b hm).1⟩
  · rw [hdefs]
    exact List.pairwise_append.mpr ⟨hc.disjoint, by simp, fun a ha b hm => (hnew a ha b hm).2⟩

theorem Valid.offer {c : Catalog} (hc : c.Valid) (e : Entry) : (c.offer e).Valid := by
  unfold Catalog.offer
  split
  · exact hc
  · next d hb =>
    split
    · exact hc
    · next c' hr => exact hc.register hb hr

theorem Reachable.valid {c : Catalog} (hc : c.Reachable) : c.Valid := by
  induction hc with
  | empty => exact .empty
  | offer _ e ih => exact ih.offer e

theorem Reachable.addEntries {c c' : Catalog} {es : List Entry} (hc : c.Reachable)
    (h : c.addEntries es = .ok c') : c'.Reachable := by
  induction es generalizing c with
  | nil =>
    cases h
    exact hc
  | cons e es ih =>
    simp only [Catalog.addEntries] at h
    cases hb : e.build with
    | error fault => simp [hb, bind, Except.bind] at h
    | ok d =>
      cases hr : c.register d with
      | error fault => simp [hb, hr, bind, Except.bind] at h
      | ok c₁ =>
        simp only [hb, hr, bind, Except.bind] at h
        apply ih _ h
        simpa [Catalog.offer, hb, hr] using hc.offer e

theorem reachable_of_ofEntries {es : List Entry} {c : Catalog} (h : ofEntries es = .ok c) :
    c.Reachable :=
  Reachable.empty.addEntries h

/-- At most one place of the catalog has a template that a word matches. -/
theorem Valid.matches_unique {c : Catalog} (hc : c.Valid) {w : Word} {i j : Nat}
    (hi : i < c.definitions.length) (hj : j < c.definitions.length)
    (hwi : c.definitions[i].template.Matches w) (hwj : c.definitions[j].template.Matches w) :
    i = j := by
  have hpair := List.pairwise_iff_getElem.mp hc.disjoint
  rcases Nat.lt_trichotomy i j with hlt | heq | hgt
  · exact absurd (Template.overlaps_of_matches hwi hwj) (hpair i j hi hj hlt)
  · exact heq
  · exact absurd (Template.overlaps_of_matches hwj hwi) (hpair j i hj hi hgt)

theorem Valid.eq_of_matches {c : Catalog} (hc : c.Valid) {w : Word} {a b : Definition}
    (ha : a ∈ c.definitions) (hb : b ∈ c.definitions) (hwa : a.template.Matches w)
    (hwb : b.template.Matches w) : a = b := by
  obtain ⟨i, hi, rfl⟩ := List.mem_iff_getElem.mp ha
  obtain ⟨j, hj, rfl⟩ := List.mem_iff_getElem.mp hb
  obtain rfl := hc.matches_unique hi hj hwa hwb
  rfl

theorem decode_eq_none_iff {c : Catalog} {w pc : Word} :
    c.decode w pc = none ↔ ∀ d ∈ c.definitions, ¬d.template.Matches w := by
  simp [decode, List.find?_eq_none]

/-- The opcode that a word is read as. -/
def opcode? (c : Catalog) (word : Word) : Option Opcode :=
  (c.definitions.find? fun d => d.template.Matches word).map (·.opcode)

/-- Where a word stands has no part in its opcode. -/
theorem decode_opcode (c : Catalog) (w pc : Word) :
    (c.decode w pc).map (·.definition.opcode) = c.opcode? w := by
  simp [decode, opcode?, Function.comp_def]

theorem opcode_of_decode {c : Catalog} {w pc : Word} {d : Decoded} (h : c.decode w pc = some d) :
    c.opcode? w = some d.definition.opcode := by
  rw [← c.decode_opcode w pc, h, Option.map_some]

/-- The first template that matches is the only one, so that the order of registration does not
show. -/
theorem Valid.decode_eq_some_iff {c : Catalog} (hc : c.Valid) {w pc : Word} {d : Definition}
    {ops : Operands} :
    c.decode w pc = some ⟨d, ops⟩ ↔
      d ∈ c.definitions ∧ d.template.Matches w ∧ ops = d.template.extract w pc := by
  simp only [decode, Option.map_eq_some_iff, Decoded.mk.injEq]
  constructor
  · rintro ⟨d', hfind, rfl, rfl⟩
    exact ⟨List.mem_of_find?_eq_some hfind, by simpa using List.find?_some hfind, rfl⟩
  · rintro ⟨hd, hw, rfl⟩
    cases hfind : c.definitions.find? fun d => d.template.Matches w with
    | none => exact absurd hw (by simpa using List.find?_eq_none.mp hfind d hd)
    | some d' =>
      have hw' : d'.template.Matches w := by simpa using List.find?_some hfind
      obtain rfl := hc.eq_of_matches hd (List.mem_of_find?_eq_some hfind) hw hw'
      exact ⟨_, rfl, rfl, rfl⟩

/-- One operand for every field, in the order of the fields. -/
theorem Valid.extract_values {c : Catalog} (hc : c.Valid) {d : Definition} (hd : d ∈ c.definitions)
    (w pc : Word) : (d.template.extract w pc).values = d.template.values w pc :=
  Template.extract_values (hc.fits d hd).fields_length.2 w pc

/-- No word can mean two instructions. -/
theorem Reachable.unambiguous {c : Catalog} (hc : c.Reachable) (w : Word) :
    (∀ i j, (hi : i < c.definitions.length) → (hj : j < c.definitions.length) →
      c.definitions[i].template.Matches w → c.definitions[j].template.Matches w → i = j) ∧
    (∀ pc d ops, c.decode w pc = some ⟨d, ops⟩ ↔
      d ∈ c.definitions ∧ d.template.Matches w ∧ ops = d.template.extract w pc) ∧
    (∀ pc, c.decode w pc = none ↔ ∀ d ∈ c.definitions, ¬d.template.Matches w) ∧
    (∀ d ∈ c.definitions, 1 ≤ d.template.fields.length ∧ d.template.fields.length ≤ 3 ∧
      ∀ pc, (d.template.extract w pc).values = d.template.fields.map fun f => f.extract w pc) ∧
    (c.definitions.Pairwise fun a b => ¬(a.mnemonic = b.mnemonic ∧ a.kind = b.kind)) ∧
    (∀ pc pc', (c.decode w pc).map Decoded.definition = (c.decode w pc').map Decoded.definition) := by
  have hv := hc.valid
  refine ⟨fun i j hi hj => hv.matches_unique hi hj, fun pc d ops => hv.decode_eq_some_iff,
    fun pc => decode_eq_none_iff, ?_, hv.distinct, ?_⟩
  · intro d hd
    obtain ⟨hpos, hmax⟩ := (hv.fits d hd).fields_length
    exact ⟨hpos, hmax, hv.extract_values hd w⟩
  · intro pc pc'
    simp [decode, Option.map_map, Function.comp_def]

/-- `chrg` in two formats. A second one of the first format is refused. -/
def twoCharges : Catalog :=
  ((empty.offer
    { opcode := .charge, usage := "chrg $t0", kind := .register
      description := "", template := "000000 00000 sssss 00000 00000 010101" }).offer
    { opcode := .charge, usage := "chrg $t0,$t1,1", kind := .immediate
      description := "", template := "000001 rrrrr sssss immediate" }).offer
    { opcode := .charge, usage := "chrg $t0,$t1", kind := .register
      description := "", template := "000010 rrrrr sssss 00000 00000 000000" }

theorem twoCharges_reachable : twoCharges.Reachable :=
  ((Reachable.empty.offer _).offer _).offer _

theorem twoCharges_unambiguous :
    twoCharges.Reachable ∧ twoCharges.size = 2 ∧
      ∀ pc d ops, twoCharges.decode 0x04220005 pc = some ⟨d, ops⟩ ↔
        d ∈ twoCharges.definitions ∧ d.template.Matches 0x04220005 ∧
          ops = d.template.extract 0x04220005 pc :=
  ⟨twoCharges_reachable, by decide +kernel, (twoCharges_reachable.unambiguous _).2.1⟩

end Catalog

end MagicAssembly
