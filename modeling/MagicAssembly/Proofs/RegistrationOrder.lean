import MagicAssembly.Disassembly
import MagicAssembly.Proofs.Registration

namespace MagicAssembly.Catalog

variable {ds ds' : List Definition}

/-- A list is registered exactly if none of its definitions objects to another one. -/
theorem foldlM_register_eq_ok_iff {c c' : Catalog}
    (hc : c.definitions.Pairwise fun x d => d.objection x = none) :
    ds.foldlM register c = .ok c' ↔
      ((c.definitions ++ ds).Pairwise fun x d => d.objection x = none) ∧
        c'.definitions = c.definitions ++ ds := by
  induction ds generalizing c with
  | nil =>
    obtain ⟨xs⟩ := c
    obtain ⟨xs'⟩ := c'
    simpa [pure, Except.pure, @eq_comm _ xs] using fun _ => hc
  | cons d ds ih =>
    rw [List.foldlM_cons]
    cases hr : c.register d with
    | error error =>
      constructor
      · intro h
        cases h
      · rintro ⟨hpair, _⟩
        have hnone : ∀ x ∈ c.definitions, d.objection x = none := fun x hx =>
          (List.pairwise_append.mp hpair).2.2 x hx d List.mem_cons_self
        have hok := register_eq_ok_iff.mpr ⟨hnone, rfl⟩
        rw [hr] at hok
        cases hok
    | ok c₁ =>
      obtain ⟨hnone, hdefs⟩ := register_eq_ok_iff.mp hr
      have hc₁ : c₁.definitions.Pairwise fun x d => d.objection x = none := by
        rw [hdefs]
        exact List.pairwise_append.mpr ⟨hc, List.pairwise_singleton .., by simpa using hnone⟩
      have hrest := ih hc₁
      rw [hdefs, List.append_assoc, List.singleton_append] at hrest
      exact hrest

theorem find?_perm {p : Definition → Bool} (h : ds.Perm ds')
    (hp : ds.Pairwise fun a b => ¬(p a ∧ p b)) : ds.find? p = ds'.find? p := by
  induction h with
  | nil => rfl
  | cons d _ ih => rw [List.find?_cons, List.find?_cons, ih hp.of_cons]
  | swap a b ds =>
    have hab := List.rel_of_pairwise_cons hp List.mem_cons_self
    rw [List.find?_cons, List.find?_cons, List.find?_cons, List.find?_cons]
    cases ha : p a <;> cases hb : p b <;> simp [ha, hb] at hab ⊢
  | trans h _ ih ih' =>
    rw [ih hp, ih' ((h.pairwise_iff fun hab hba => hab hba.symm).mp hp)]

theorem registered_perm (h : ds.Perm ds') {c : Catalog} (hc : ds.foldlM register empty = .ok c) :
    ∃ c', ds'.foldlM register empty = .ok c' ∧ ∀ w pc, c.decode w pc = c'.decode w pc := by
  obtain ⟨hpair, hdefs⟩ := (foldlM_register_eq_ok_iff .nil).mp hc
  have hpair' := (h.pairwise_iff fun hab => Definition.objection_comm.mp hab).mp hpair
  refine ⟨⟨ds'⟩, (foldlM_register_eq_ok_iff .nil).mpr ⟨hpair', rfl⟩, fun w pc => ?_⟩
  have hfind : ds.find? (fun d => d.template.Matches w) =
      ds'.find? fun d => d.template.Matches w := by
    apply find?_perm h
    apply hpair.imp
    intro a b hab hw
    simp only [decide_eq_true_eq] at hw
    exact (Definition.objection_eq_none.mp hab).2 (Template.overlaps_of_matches hw.1 hw.2)
  rw [decode, decode, hdefs]
  exact congrArg _ hfind

/-- In whatever order definitions are registered, the same lists are taken, and the words mean the
same. -/
theorem register_order (h : ds.Perm ds') :
    (∀ c, ds.foldlM register empty = .ok c →
      ∃ c', ds'.foldlM register empty = .ok c' ∧
        ∀ w pc, c.decode w pc = c'.decode w pc ∧ c.disassemble w pc = c'.disassemble w pc) ∧
    (∀ error, ds.foldlM register empty = .error error →
      ∃ error', ds'.foldlM register empty = .error error') := by
  refine ⟨?_, ?_⟩
  · intro c hc
    obtain ⟨c', hc', hdecode⟩ := registered_perm h hc
    refine ⟨c', hc', fun w pc => ⟨hdecode w pc, ?_⟩⟩
    rw [disassemble, disassemble, hdecode]
  · intro error herror
    cases hc' : ds'.foldlM register empty with
    | error error' => exact ⟨error', rfl⟩
    | ok c' =>
      obtain ⟨c, hc, _⟩ := registered_perm h.symm hc'
      rw [herror] at hc
      cases hc

theorem twoCharges_register_order :
    twoCharges.definitions.Perm twoCharges.definitions.reverse ∧
      ∃ c, twoCharges.definitions.reverse.foldlM register empty = .ok c ∧
        ∀ w pc, twoCharges.decode w pc = c.decode w pc ∧
          twoCharges.disassemble w pc = c.disassemble w pc := by
  have hperm := (List.reverse_perm twoCharges.definitions).symm
  have hc : twoCharges.definitions.foldlM register empty = .ok twoCharges := by rfl
  exact ⟨hperm, (register_order hperm).1 _ hc⟩

end MagicAssembly.Catalog
