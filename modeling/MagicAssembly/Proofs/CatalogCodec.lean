import MagicAssembly.Proofs.CatalogDisjoint

namespace MagicAssembly.Catalog

/-- No definition before `d` has its opcode, so that the opcode stands for `d`. -/
def First (c : Catalog) (d : Definition) : Prop :=
  ∃ earlier later, c.definitions = earlier ++ d :: later ∧ ∀ e ∈ earlier, e.opcode ≠ d.opcode

theorem byOpcode_eq_some_iff {c : Catalog} {opcode : Opcode} {d : Definition} :
    c.byOpcode? opcode = some d ↔ d.opcode = opcode ∧ c.First d := by
  unfold byOpcode? First
  rw [List.find?_eq_some_iff_append]
  constructor
  · rintro ⟨hd, earlier, later, hsplit, hne⟩
    obtain rfl : d.opcode = opcode := by simpa using hd
    exact ⟨rfl, earlier, later, hsplit, fun e he => by simpa using hne e he⟩
  · rintro ⟨rfl, earlier, later, hsplit, hne⟩
    exact ⟨by simp, earlier, later, hsplit, fun e he => by simpa using hne e he⟩

theorem First.mem {c : Catalog} {d : Definition} (h : c.First d) : d ∈ c.definitions := by
  obtain ⟨earlier, later, hsplit, _⟩ := h
  simp [hsplit]

theorem encode_eq_some_iff {c : Catalog} {opcode : Opcode} {operands : List Word} {pc w : Word} :
    c.encode opcode operands pc = some w ↔
      ∃ d, d.opcode = opcode ∧ c.First d ∧ d.template.encode operands pc = some w := by
  simp only [encode, Option.bind_eq_some_iff, byOpcode_eq_some_iff, and_assoc]

/-- A word made from the template of a definition is read as that definition with those operands. -/
theorem Valid.decode_of_encode {c : Catalog} (hc : c.Valid) {d : Definition}
    (hd : d ∈ c.definitions) {operands : List Word} {pc w : Word}
    (he : d.template.encode operands pc = some w) :
    ∃ ops, ops.values = operands ∧ c.decode w pc = some ⟨d, ops⟩ := by
  obtain ⟨hw, hvalues⟩ := (hc.fills d hd).encode_eq_some_iff.mp he
  refine ⟨d.template.extract w pc, ?_, hc.decode_eq_some_iff.mpr ⟨hd, hw, rfl⟩⟩
  rw [hc.extract_values hd, hvalues]

/-- What is encoded by opcode is read as the first definition of the opcode. -/
theorem Valid.decode_of_opcode {c : Catalog} (hc : c.Valid) {opcode : Opcode}
    {operands : List Word} {pc w : Word} (he : c.encode opcode operands pc = some w) :
    ∃ d ops, d.opcode = opcode ∧ c.First d ∧ ops.values = operands ∧
      c.decode w pc = some ⟨d, ops⟩ := by
  obtain ⟨d, hop, hfirst, he⟩ := encode_eq_some_iff.mp he
  obtain ⟨ops, hvalues, hdecode⟩ := hc.decode_of_encode hfirst.mem he
  exact ⟨d, ops, hop, hfirst, hvalues, hdecode⟩

theorem Valid.first_of_encode {c : Catalog} (hc : c.Valid) {opcode : Opcode}
    {operands : List Word} {pc w : Word} {d : Definition} {ops : Operands}
    (he : c.encode opcode operands pc = some w) (hd : c.decode w pc = some ⟨d, ops⟩) :
    c.First d := by
  obtain ⟨a, aops, _, hfirst, _, ha⟩ := hc.decode_of_opcode he
  rw [ha] at hd
  cases hd
  exact hfirst

theorem Valid.encode_of_decode {c : Catalog} (hc : c.Valid) {d : Definition} {ops : Operands}
    {pc w : Word} (h : c.decode w pc = some ⟨d, ops⟩) :
    d.template.encode ops.values pc = some w := by
  obtain ⟨hd, hw, rfl⟩ := hc.decode_eq_some_iff.mp h
  rw [hc.extract_values hd]
  exact (hc.fills d hd).encode_values hw pc

/-- An opcode names at most one definition of each format. -/
theorem Valid.kinds_differ {c : Catalog} (hc : c.Valid) :
    c.definitions.Pairwise fun a b => a.opcode = b.opcode → a.kind ≠ b.kind := by
  apply hc.distinct.imp
  intro a b hab hop hkind
  exact hab ⟨congrArg Opcode.mnemonic hop, hkind⟩

/-- Some word is read as the definition, whatever else is registered. -/
theorem Valid.exists_decode {c : Catalog} (hc : c.Valid) {d : Definition} (hd : d ∈ c.definitions)
    (pc : Word) : ∃ w ops, c.decode w pc = some ⟨d, ops⟩ := by
  have hbits := (hc.fills d hd).bits_inside
  have hw : d.template.Matches d.template.fixedBits := Word.and_of_inside hbits
  exact ⟨_, _, hc.decode_eq_some_iff.mpr ⟨hd, hw, rfl⟩⟩

/-- Encoding by opcode and decoding undo each other. Where an opcode has several formats, the ones
after the first are only ever decoded. -/
theorem Reachable.encode_decode {c : Catalog} (hc : c.Reachable) (pc : Word) :
    (∀ opcode operands w, c.encode opcode operands pc = some w →
      ∃ d ops, c.byOpcode? opcode = some d ∧ ops.values = operands ∧
        c.decode w pc = some ⟨d, ops⟩) ∧
    (∀ w d ops, c.decode w pc = some ⟨d, ops⟩ →
      d.template.encode ops.values pc = some w ∧
        (c.encode d.opcode ops.values pc = some w ↔ c.First d)) ∧
    (c.definitions.Pairwise fun a b => a.opcode = b.opcode → a.kind ≠ b.kind) ∧
    (∀ d ∈ c.definitions, (∃ w ops, c.decode w pc = some ⟨d, ops⟩) ∧
      (¬c.First d → ∀ opcode operands w ops, c.encode opcode operands pc = some w →
        c.decode w pc ≠ some ⟨d, ops⟩)) := by
  have hv := hc.valid
  refine ⟨?_, ?_, hv.kinds_differ, ?_⟩
  · intro opcode operands w h
    obtain ⟨d, ops, hop, hfirst, hvalues, hdecode⟩ := hv.decode_of_opcode h
    exact ⟨d, ops, byOpcode_eq_some_iff.mpr ⟨hop, hfirst⟩, hvalues, hdecode⟩
  · intro w d ops h
    have he := hv.encode_of_decode h
    exact ⟨he, fun hencode => hv.first_of_encode hencode h,
      fun hfirst => encode_eq_some_iff.mpr ⟨d, rfl, hfirst, he⟩⟩
  · intro d hd
    refine ⟨hv.exists_decode hd pc, ?_⟩
    intro hlater opcode operands w ops he hdecode
    exact hlater (hv.first_of_encode he hdecode)

theorem twoCharges_encode_decode :
    twoCharges.Reachable ∧ ∃ d ops, twoCharges.decode 0x04220005 0x400000 = some ⟨d, ops⟩ ∧
      d.kind = .immediate ∧ d.template.encode ops.values 0x400000 = some 0x04220005 ∧
        (twoCharges.encode d.opcode ops.values 0x400000 = some 0x04220005 ↔
          twoCharges.First d) := by
  have hkind : (twoCharges.decode 0x04220005 0x400000).map (·.definition.kind) =
      some .immediate := by
    decide +kernel
  obtain ⟨⟨d, ops⟩, hdecode, hd⟩ := Option.map_eq_some_iff.mp hkind
  exact ⟨twoCharges_reachable, d, ops, hdecode, hd,
    (twoCharges_reachable.encode_decode 0x400000).2.1 _ d ops hdecode⟩

end MagicAssembly.Catalog
