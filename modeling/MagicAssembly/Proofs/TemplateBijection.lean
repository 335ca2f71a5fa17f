import Mathlib.Data.Set.Function
import MagicAssembly.Proofs.TemplateCodec

namespace MagicAssembly.Template

/-- The operand lists that a template has a word for. -/
def encodable (t : Template) (pc : Word) : Set (List Word) :=
  {operands | ∃ w, t.encode operands pc = some w}

/-- A template with more fields than an instruction has operands still reads the first ones. -/
theorem extract_of_values {t : Template} {w pc : Word} {operands : List Word}
    (h : t.values w pc = operands) :
    (t.extract w pc).values = operands.take maxOperands ∧
      (t.extract w pc).size = min maxOperands t.fields.length := by
  subst h
  refine ⟨rfl, ?_⟩
  simp only [extract, Operands.ofFirst, Operands.size, values, List.length_take, List.length_map]

/-- A matching word is all that its operands can stand for, and each list of operands that can be
encoded stands for one. -/
theorem Fills.bijOn {t : Template} (h : t.Fills 32) (pc : Word) :
    Set.BijOn (fun w => t.values w pc) {w | t.Matches w} (t.encodable pc) := by
  refine ⟨?_, ?_, ?_⟩
  · intro w hw
    exact ⟨w, h.encode_values hw pc⟩
  · intro w hw w' hw' heq
    have hencode := h.encode_eq_some_iff.mpr ⟨hw, heq⟩
    exact Option.some.inj (hencode.symm.trans (h.encode_values hw' pc))
  · rintro operands ⟨w, hencode⟩
    exact ⟨w, h.encode_eq_some_iff.mp hencode⟩

/-- Whatever the grammar accepts is a code: the words that match a template and the operands that it
encodes correspond one to one, wherever they stand. -/
theorem codec_of_parse {text : String} {t : Template} (h : parse text = .ok t) (pc : Word) :
    (∀ operands w, t.encode operands pc = some w →
      t.Matches w ∧ t.fields.map (fun f => f.extract w pc) = operands ∧
        (t.extract w pc).values = operands.take maxOperands ∧
          (t.extract w pc).size = min maxOperands t.fields.length) ∧
    (∀ w, t.Matches w → t.encode (t.fields.map fun f => f.extract w pc) pc = some w) ∧
    Set.BijOn (fun w => t.fields.map fun f => f.extract w pc) {w | t.Matches w}
      (t.encodable pc) := by
  have hfills := fills_of_parse h
  refine ⟨?_, fun w hw => hfills.encode_values hw pc, hfills.bijOn pc⟩
  intro operands w hencode
  obtain ⟨hw, hvalues⟩ := hfills.encode_eq_some_iff.mp hencode
  exact ⟨hw, hvalues, extract_of_values hvalues⟩

/-- Five fields, one of them a branch offset. -/
def fiveFields : Template :=
  ⟨0x20000010, 0x00000010, [⟨.register, 30, 2⟩, ⟨.register, 26, 3⟩, ⟨.branchOffset, 10, 16⟩,
    ⟨.register, 5, 5⟩, ⟨.register, 0, 4⟩]⟩

/-- The branch goes back past address 0. -/
theorem codec_of_fiveFields :
    parse "dd0rrr branchoffset ttttt1ssss" = .ok fiveFields ∧
      fiveFields.encode [2, 5, 0xFFFFFFFC, 17, 9] 0 = some 0x97FFFA39 ∧
        fiveFields.Matches 0x97FFFA39 ∧
          fiveFields.fields.map (fun f => f.extract 0x97FFFA39 0) = [2, 5, 0xFFFFFFFC, 17, 9] ∧
            (fiveFields.extract 0x97FFFA39 0).values = [2, 5, 0xFFFFFFFC] ∧
              Set.BijOn (fun w => fiveFields.fields.map fun f => f.extract w 0)
                {w | fiveFields.Matches w} (fiveFields.encodable 0) := by
  have hparse : parse "dd0rrr branchoffset ttttt1ssss" = .ok fiveFields := by decide +kernel
  have hencoded : fiveFields.encode [2, 5, 0xFFFFFFFC, 17, 9] 0 = some 0x97FFFA39 := by decide
  obtain ⟨hencode, _, hbij⟩ := codec_of_parse hparse 0
  obtain ⟨hmatches, hvalues, hextract, _⟩ := hencode _ _ hencoded
  exact ⟨hparse, hencoded, hmatches, hvalues, hextract, hbij⟩

end MagicAssembly.Template
