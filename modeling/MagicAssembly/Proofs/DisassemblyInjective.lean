import MagicAssembly.Proofs.CatalogCodec
import MagicAssembly.Proofs.OperandText

namespace MagicAssembly

/-- How the operands of a format look on the line. -/
def FormatKind.Shows (styles : List OperandStyle) : FormatKind → Prop
  | .register => styles ≠ [] ∧ ∀ x ∈ styles, x = .name
  | .immediate => styles = [.name, .name, .number]
  | .branch => styles = [.name, .name, .address]
  | .jump => styles = [.address]

theorem FormatKind.shows_unique {styles : List OperandStyle} {k l : FormatKind}
    (hk : k.Shows styles) (hl : l.Shows styles) : k = l := by
  cases k <;> cases l <;> simp_all [Shows]

namespace Template

def styles (t : Template) : List OperandStyle :=
  t.fields.map fun f => f.kind.style

theorem styles_eq (t : Template) : t.styles = t.layout.map fun p => p.1.style := by
  rw [styles, layout, List.map_map]
  rfl

theorem Fits.shows {t : Template} {kind : FormatKind} (h : t.Fits kind) : kind.Shows t.styles := by
  rw [styles_eq]
  cases kind with
  | register =>
    obtain ⟨hne, _, hall⟩ := h
    refine ⟨by simpa using hne, ?_⟩
    intro x hx
    obtain ⟨p, hp, rfl⟩ := List.mem_map.mp hx
    rw [hall p hp]
    rfl
  | immediate | branch | jump =>
    rw [show t.layout = _ from h]
    rfl

theorem Fits.register_width {t : Template} {kind : FormatKind} (h : t.Fits kind) {f : Field}
    (hf : f ∈ t.fields) (hk : f.kind = .register) : f.width = registerFieldBits := by
  have hmem : (FieldKind.register, f.width) ∈ t.layout :=
    List.mem_map.mpr ⟨f, hf, by rw [hk]⟩
  cases kind with
  | register => exact congrArg Prod.snd (h.2.2 _ hmem)
  | immediate | branch =>
    rw [show t.layout = _ from h] at hmem
    simpa using hmem
  | jump =>
    rw [show t.layout = _ from h] at hmem
    simp at hmem

end Template

/-- A register field holds no more than the five bits that its name shows. -/
theorem Field.extract_of_text {f : Field} (hwidth : f.kind = .register → f.width = registerFieldBits)
    {v w pc : Word}
    (h : f.kind.operandText (f.extract v pc) = f.kind.operandText (f.extract w pc)) :
    f.extract v pc = f.extract w pc := by
  obtain ⟨kind, shift, width⟩ := f
  cases kind with
  | register =>
    obtain rfl : width = 5 := hwidth rfl
    have hlow := Registers.name_injective h
    apply BitVec.eq_of_getLsbD_eq
    intro i hi
    have hbit := congrArg (BitVec.getLsbD · i) hlow
    simp only [extract, FieldKind.operand, BitVec.getLsbD_setWidth, getLsbD_raw] at hbit ⊢
    grind
  | immediate => exact Word.decimal_injective h
  | branchOffset | jumpAddress => exact Word.hex_injective h

namespace Definition

section

variable {d e : Definition} {ops os : Operands}

theorem operandTexts_isWord {t : String} (ht : t ∈ d.operandTexts ops) :
    Text.IsWord dividesOperands t.toList := by
  rw [operandTexts, ← List.map_uncurry_zip_eq_zipWith] at ht
  obtain ⟨⟨f, value⟩, _, rfl⟩ := List.mem_map.mp ht
  exact f.kind.operandText_isWord value

/-- The offset of a memory access stands before its base, in parentheses. -/
theorem words_access {target base offset : String}
    (h : d.operandTexts ops = [target, base, offset]) :
    Text.words dividesOperands (target ++ ", " ++ offset ++ "(" ++ base ++ ")").toList =
      [target, offset, base].map String.toList := by
  have hword (t : String) (ht : t ∈ [target, base, offset]) :
      Text.words dividesOperands t.toList = [t.toList] :=
    (operandTexts_isWord (h ▸ ht)).words_eq
  simp only [String.toList_append]
  rw [← List.append_nil (_ ++ String.toList ")")]
  rw [Text.words_append_gap (by decide) (by decide), Text.words_append_gap (by decide) (by decide),
    Text.words_append_gap (by decide) (by decide), hword target (by simp), hword base (by simp),
    hword offset (by simp), Text.words_nil]
  rfl

theorem words_list (d : Definition) (ops : Operands) :
    Text.words dividesOperands (", ".intercalate (d.operandTexts ops)).toList =
      (d.operandTexts ops).map String.toList := by
  rw [String.toList_intercalate]
  apply Text.words_intercalate (by decide) (by decide)
  intro w hw
  obtain ⟨t, ht, rfl⟩ := List.mem_map.mp hw
  exact operandTexts_isWord ht

theorem paren_not_mem_list (d : Definition) (ops : Operands) :
    '(' ∉ (", ".intercalate (d.operandTexts ops)).toList := by
  rw [String.toList_intercalate]
  apply Text.not_mem_intercalate (by decide)
  intro w hw hparen
  obtain ⟨t, ht, rfl⟩ := List.mem_map.mp hw
  have hfree := (operandTexts_isWord ht).2 _ hparen
  revert hfree
  decide

/-- A parenthesis tells a memory access from a list. -/
theorem operandList_cases (d : Definition) (ops : Operands) :
    (∃ target base offset, d.operandTexts ops = [target, base, offset] ∧
      '(' ∈ (d.operandList ops).toList ∧
        Text.words dividesOperands (d.operandList ops).toList =
          [target, offset, base].map String.toList) ∨
    ('(' ∉ (d.operandList ops).toList ∧
      Text.words dividesOperands (d.operandList ops).toList =
        (d.operandTexts ops).map String.toList) := by
  have hlist := d.words_list ops
  have hparen := d.paren_not_mem_list ops
  unfold operandList
  split
  · next target base offset htexts =>
    rw [htexts] at hlist hparen
    split
    · exact .inl ⟨target, base, offset, htexts, by simp, words_access htexts⟩
    · exact .inr ⟨hparen, htexts ▸ hlist⟩
  · exact .inr ⟨hparen, hlist⟩

theorem operandTexts_of_operandList (h : d.operandList ops = e.operandList os) :
    d.operandTexts ops = e.operandTexts os := by
  have htoList (s t : String) (hst : s.toList = t.toList) : s = t := String.toList_inj.mp hst
  rcases d.operandList_cases ops with ⟨t, b, o, ht, hp, hw⟩ | ⟨hp, hw⟩ <;>
    rcases e.operandList_cases os with ⟨t', b', o', ht', hp', hw'⟩ | ⟨hp', hw'⟩ <;>
    rw [h] at hp hw
  · have hwords := (List.map_inj_right htoList).mp (hw.symm.trans hw')
    simp only [List.cons.injEq, and_true] at hwords
    obtain ⟨rfl, rfl, rfl⟩ := hwords
    rw [ht, ht']
  · exact absurd hp hp'
  · exact absurd hp' hp
  · exact (List.map_inj_right htoList).mp (hw.symm.trans hw')

theorem operandList_ne_empty (h : d.operandTexts ops ≠ []) : d.operandList ops ≠ "" := by
  intro hempty
  rcases d.operandList_cases ops with ⟨_, _, _, _, hp, _⟩ | ⟨_, hw⟩
  · rw [hempty] at hp
    simp at hp
  · rw [hempty] at hw
    exact h (List.map_eq_nil_iff.mp hw.symm)

theorem render_eq (h : d.operandTexts ops ≠ []) :
    d.render ops = d.mnemonic ++ " " ++ d.operandList ops :=
  if_neg (operandList_ne_empty h)

end

end Definition

theorem Opcode.mnemonic_isWord (op : Opcode) :
    Text.IsWord dividesOperands op.mnemonic.toList := by
  cases op <;> decide

theorem Opcode.mnemonic_ne_data (op : Opcode) : op.mnemonic ≠ ".word" := by
  cases op <;> decide

/-- The first word of a line says which instruction it is. -/
theorem line_inj {a b x y : String} (ha : Text.IsWord dividesOperands a.toList)
    (hb : Text.IsWord dividesOperands b.toList) (h : a ++ " " ++ x = b ++ " " ++ y) :
    a = b ∧ x = y := by
  have hlists := congrArg String.toList h
  simp only [String.toList_append, List.append_assoc] at hlists
  obtain ⟨hfirst, hrest⟩ := ha.append_cons_inj (c := ' ') hb (by decide) hlists
  exact ⟨String.toList_inj.mp hfirst, String.toList_inj.mp hrest⟩

namespace Catalog

section

variable {c : Catalog} (hc : c.Valid)

include hc

theorem Valid.operandTexts_extract {d : Definition} (hd : d ∈ c.definitions) (w pc : Word) :
    d.operandTexts (d.template.extract w pc) =
      d.template.fields.map fun f => f.kind.operandText (f.extract w pc) := by
  rw [Definition.operandTexts, hc.extract_values hd, Template.values,
    List.zipWith_map_right, List.zipWith_self]

theorem Valid.render_extract {d : Definition} (hd : d ∈ c.definitions) (w pc : Word) :
    d.render (d.template.extract w pc) =
      d.mnemonic ++ " " ++ d.operandList (d.template.extract w pc) := by
  apply Definition.render_eq
  rw [hc.operandTexts_extract hd]
  have hpos := (hc.fits d hd).fields_length.1
  simpa using List.ne_nil_of_length_pos hpos

/-- A mnemonic names at most one definition of each format. -/
theorem Valid.eq_of_mnemonic {d e : Definition} (hd : d ∈ c.definitions) (he : e ∈ c.definitions)
    (hmnemonic : d.mnemonic = e.mnemonic) (hkind : d.kind = e.kind) : d = e := by
  have hpair := List.pairwise_iff_getElem.mp hc.distinct
  obtain ⟨i, hi, rfl⟩ := List.mem_iff_getElem.mp hd
  obtain ⟨j, hj, rfl⟩ := List.mem_iff_getElem.mp he
  rcases Nat.lt_trichotomy i j with hlt | rfl | hgt
  · exact absurd ⟨hmnemonic, hkind⟩ (hpair i j hi hj hlt)
  · rfl
  · exact absurd ⟨hmnemonic.symm, hkind.symm⟩ (hpair j i hj hi hgt)

theorem Valid.styles_operandTexts {d : Definition} (hd : d ∈ c.definitions) (w pc : Word) :
    (d.operandTexts (d.template.extract w pc)).map OperandStyle.ofText = d.template.styles := by
  rw [hc.operandTexts_extract hd, List.map_map, Template.styles]
  apply List.map_congr_left
  intro f _
  exact f.kind.ofText_operandText _

/-- The operands, and with them the word, can be told from their texts. -/
theorem Valid.eq_of_operandTexts {d : Definition} (hd : d ∈ c.definitions) {v w pc : Word}
    (hv : d.template.Matches v) (hw : d.template.Matches w)
    (h : d.operandTexts (d.template.extract v pc) = d.operandTexts (d.template.extract w pc)) :
    v = w := by
  rw [hc.operandTexts_extract hd, hc.operandTexts_extract hd] at h
  have hvalues : d.template.values v pc = d.template.values w pc := by
    apply List.map_congr_left
    intro f hf
    exact Field.extract_of_text ((hc.fits d hd).register_width hf) (List.map_inj_left.mp h f hf)
  have hencode := (hc.fills d hd).encode_values hv pc
  rw [hvalues, (hc.fills d hd).encode_values hw pc] at hencode
  exact (Option.some.inj hencode).symm

theorem Valid.render_injective {d e : Definition} (hd : d ∈ c.definitions)
    (he : e ∈ c.definitions) {v w pc : Word} (hv : d.template.Matches v) (hw : e.template.Matches w)
    (h : d.render (d.template.extract v pc) = e.render (e.template.extract w pc)) : v = w := by
  rw [hc.render_extract hd, hc.render_extract he] at h
  obtain ⟨hmnemonic, hlist⟩ := line_inj d.opcode.mnemonic_isWord e.opcode.mnemonic_isWord h
  have htexts := Definition.operandTexts_of_operandList hlist
  have hstyles := congrArg (List.map OperandStyle.ofText) htexts
  rw [hc.styles_operandTexts hd, hc.styles_operandTexts he] at hstyles
  have hshows := (hc.fits d hd).shows
  rw [hstyles] at hshows
  have hkind := FormatKind.shows_unique hshows (hc.fits e he).shows
  obtain rfl := hc.eq_of_mnemonic hd he hmnemonic hkind
  exact hc.eq_of_operandTexts hd hv hw htexts

/-- No instruction is shown as data. -/
theorem Valid.render_ne_data {d : Definition} (hd : d ∈ c.definitions) (v w pc : Word) :
    d.render (d.template.extract v pc) ≠ dataText w := by
  intro h
  rw [hc.render_extract hd] at h
  have hdata : Text.IsWord dividesOperands ".word".toList := by decide
  obtain ⟨hmnemonic, _⟩ := line_inj (x := d.operandList _) (y := w.hex)
    d.opcode.mnemonic_isWord hdata h
  exact d.opcode.mnemonic_ne_data hmnemonic

theorem Valid.disassemble_cases (w pc : Word) :
    (∃ d ∈ c.definitions, d.template.Matches w ∧
      c.disassemble w pc = d.render (d.template.extract w pc)) ∨
    c.disassemble w pc = dataText w := by
  unfold disassemble
  cases hdecode : c.decode w pc with
  | none => exact .inr rfl
  | some d =>
    obtain ⟨d, ops⟩ := d
    obtain ⟨hd, hw, rfl⟩ := hc.decode_eq_some_iff.mp hdecode
    exact .inl ⟨d, hd, hw, rfl⟩

end

theorem dataText_injective {v w : Word} (h : dataText v = dataText w) : v = w :=
  Word.hex_injective (String.append_right_inj _ |>.mp h)

/-- Words that are shown as one text at one address are one word, instructions or not. -/
theorem Reachable.disassemble_injective {c : Catalog} (hc : c.Reachable) (pc : Word) :
    (∀ v w, c.disassemble v pc = c.disassemble w pc → v = w) ∧
      ∀ w, (∀ d ∈ c.definitions, ¬d.template.Matches w) →
        c.disassemble w pc = ".word " ++ w.hex := by
  have hvalid := hc.valid
  constructor
  · intro v w h
    rcases hvalid.disassemble_cases v pc with ⟨d, hd, hv, hdv⟩ | hdv <;>
      rcases hvalid.disassemble_cases w pc with ⟨e, he, hw, hew⟩ | hew <;>
      rw [hdv, hew] at h
    · exact hvalid.render_injective hd he hv hw h
    · exact absurd h (hvalid.render_ne_data hd v w pc)
    · exact absurd h.symm (hvalid.render_ne_data he w v pc)
    · exact dataText_injective h
  · intro w hnone
    rw [disassemble, decode_eq_none_iff.mpr hnone]
    rfl

/-- One mnemonic in three formats, two of which show their last operand before a parenthesis. -/
def threeConjures : Catalog :=
  ((empty.offer
    { opcode := .conjure, usage := "cnjr $t0,$t1,$t2", kind := .register
      description := "", template := "000000 ddddd sssss ttttt 00000 000001" }).offer
    { opcode := .conjure, usage := "cnjr $t0,4($t1)", kind := .immediate
      description := "", template := "100000 rrrrr sssss immediate" }).offer
    { opcode := .conjure, usage := "cnjr $t0,label($t1)", kind := .branch
      description := "", template := "000100 rrrrr sssss branchoffset" }

theorem threeConjures_injective :
    threeConjures.Reachable ∧ threeConjures.size = 3 ∧
      threeConjures.disassemble 0x8128FFFC 0x400000 = "cnjr $t1, -4($t0)" ∧
        ∀ v w, threeConjures.disassemble v 0x400000 = threeConjures.disassemble w 0x400000 → v = w :=
  have hc : threeConjures.Reachable := ((Reachable.empty.offer _).offer _).offer _
  ⟨hc, by decide +kernel, by decide +kernel, (hc.disassemble_injective 0x400000).1⟩

end Catalog

end MagicAssembly
