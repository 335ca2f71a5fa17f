import MagicAssembly.Proofs.TemplateLayout

namespace MagicAssembly

/-- Reading more bits of a word at once is reading both parts, where neither reaches into the other.
-/
theorem Word.and_or_eq_iff {w done field acc bits : Word} (apart : done &&& field = 0)
    (hacc : acc &&& ~~~done = 0) (hbits : bits &&& ~~~field = 0) :
    w &&& (done ||| field) = acc ||| bits ↔ w &&& done = acc ∧ w &&& field = bits := by
  simp only [Word.bits_iff, BitVec.getLsbD_and, BitVec.getLsbD_or, BitVec.getLsbD_not] at *
  grind

/-- A field takes an operand exactly if the bits it is given read back as the operand. -/
theorem Field.insert_iff_extract {f : Field} (hk : f.KeepsBits) {w value pc : Word} :
    f.insert value pc = some (w &&& f.mask) ↔ f.extract w pc = value := by
  constructor
  · intro h
    rw [← extract_and_mask]
    exact extract_of_insert h
  · rintro rfl
    exact insert_extract hk w pc

namespace Template

/-- The word that is built up by filling fields is the one that has the bits already `done`, reads
as the operands, and has no other bit. -/
theorem fill_eq_some_iff {fs : List Field} {vs : List Word} {pc done acc w : Word}
    (keeps : ∀ f ∈ fs, f.KeepsBits) (apart : ∀ f ∈ fs, done &&& f.mask = 0)
    (disjoint : fs.Pairwise fun f g => f.mask &&& g.mask = 0) (hacc : acc &&& ~~~done = 0) :
    fill pc acc fs vs = some w ↔
      w &&& ~~~(done ||| fieldsMask fs) = 0 ∧ w &&& done = acc ∧
        fs.map (fun f => f.extract w pc) = vs := by
  induction fs generalizing vs done acc with
  | nil =>
    cases vs with
    | nil =>
      simp only [fill, Option.some.injEq, fieldsMask_nil, List.map_nil, and_true]
      have hdone : done ||| 0 = done := BitVec.or_zero
      rw [hdone]
      exact Word.eq_iff_inside hacc
    | cons v vs => simp [fill]
  | cons f fs ih =>
    cases vs with
    | nil => simp [fill]
    | cons v vs =>
      have hf := keeps f List.mem_cons_self
      have hdone := apart f List.mem_cons_self
      obtain ⟨hfs, hpair⟩ := List.pairwise_cons.mp disjoint
      have hnext (bits : Word) (hb : bits &&& ~~~f.mask = 0) :
          fill pc (acc ||| bits) fs vs = some w ↔
            w &&& ~~~(done ||| f.mask ||| fieldsMask fs) = 0 ∧
              (w &&& done = acc ∧ w &&& f.mask = bits) ∧
                fs.map (fun f => f.extract w pc) = vs := by
        rw [← Word.and_or_eq_iff hdone hacc hb]
        apply ih (fun g hg => keeps g (List.mem_cons_of_mem _ hg)) _ hpair
        · exact Word.or_inside hacc hb
        · intro g hg
          exact Word.or_apart (apart g (List.mem_cons_of_mem _ hg)) (hfs g hg)
      simp only [fill, Option.bind_eq_some_iff, fieldsMask_cons, List.map_cons, List.cons.injEq]
      rw [← BitVec.or_assoc]
      constructor
      · rintro ⟨bits, hbits, hrest⟩
        obtain ⟨hout, ⟨hin, rfl⟩, hmap⟩ := (hnext bits (Field.insert_inside hbits)).mp hrest
        exact ⟨hout, hin, (Field.insert_iff_extract hf).mp hbits, hmap⟩
      · rintro ⟨hout, hin, hv, hmap⟩
        have hbits := (Field.insert_iff_extract hf).mpr hv
        exact ⟨_, hbits, (hnext _ (Field.insert_inside hbits)).mpr ⟨hout, ⟨hin, rfl⟩, hmap⟩⟩

/-- Encoding inverts the reading of matching words, in both directions. -/
theorem Fills.encode_eq_some_iff {t : Template} (h : t.Fills 32) {operands : List Word}
    {pc w : Word} :
    t.encode operands pc = some w ↔ t.Matches w ∧ t.values w pc = operands := by
  have hall : w &&& ~~~(t.fixedMask ||| fieldsMask t.fields) = 0 := by
    rw [h.cover, Word.low_full]
    simp
  rw [encode, fill_eq_some_iff h.keeps h.apart h.masks_disjoint h.bits_inside]
  exact ⟨fun hw => hw.2, fun hw => ⟨hall, hw⟩⟩

theorem Fills.encode_values {t : Template} (h : t.Fills 32) {w : Word} (hw : t.Matches w)
    (pc : Word) : t.encode (t.values w pc) pc = some w :=
  h.encode_eq_some_iff.mpr ⟨hw, rfl⟩

/-- A word that has the fixed bits of two templates shows that they overlap. -/
theorem overlaps_of_matches {a b : Template} {w : Word} (ha : a.Matches w) (hb : b.Matches w) :
    a.Overlaps b := by
  unfold Matches at ha hb
  unfold Overlaps
  simp only [Word.bits_iff, BitVec.getLsbD_and, BitVec.getLsbD_xor] at *
  grind

/-- Every format has from one to three operands. -/
theorem Fits.fields_length {t : Template} {kind : FormatKind} (h : t.Fits kind) :
    1 ≤ t.fields.length ∧ t.fields.length ≤ maxOperands := by
  have hlen : t.layout.length = t.fields.length := List.length_map ..
  rw [← hlen]
  cases kind with
  | register => exact ⟨List.length_pos_iff.mpr h.1, h.2.1⟩
  | immediate | branch | jump =>
    rw [show t.layout = _ from h]
    decide

theorem extract_values {t : Template} (h : t.fields.length ≤ maxOperands) (w pc : Word) :
    (t.extract w pc).values = t.values w pc := by
  apply List.take_of_length_le
  simpa [values] using h

end Template

end MagicAssembly
