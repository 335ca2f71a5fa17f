import MagicAssembly.Proofs.RunPath
import MagicAssembly.Proofs.StorageView

namespace MagicAssembly

theorem BinaryOp.map_apply_ok {op : BinaryOp} {lhs rhs : Word} {f : Word → α} {a : α}
    (h : (op.apply lhs rhs).map f = .ok a) : ∃ value, f value = a := by
  cases hv : op.apply lhs rhs with
  | error fault => simp [hv, Except.map] at h
  | ok value =>
    rw [hv] at h
    exact ⟨value, Except.ok.inj h⟩

namespace Instruction

/-- Nothing but a store writes to memory. -/
theorem effect_memory {labels : Labels} {s : Storage} {i : Instruction} {e : Effect}
    (h : i.effect labels s = .ok e) (hstore : ∀ rt base offset, i ≠ .store rt base offset) :
    (s.commit e.writes).memory = s.memory := by
  cases i with
  | binary | binaryImmediate =>
    obtain ⟨value, rfl⟩ := BinaryOp.map_apply_ok h
    rfl
  | unary | swap | clear | increment | branch =>
    cases h
    rfl
  | load rt base offset =>
    simp only [effect] at h
    split at h <;> cases h
    rfl
  | store rt base offset => exact absurd rfl (hstore rt base offset)
  | jump label =>
    cases label with
    | none => cases h
    | some label =>
      simp only [effect] at h
      split at h <;> cases h
      rfl

/-- Nothing but a load looks into the memory. -/
theorem effect_of_registers {s s' : Storage} {i : Instruction}
    (hload : ∀ rt base offset, i ≠ .load rt base offset)
    (registers : s'.registers = s.registers) (labels : Labels) :
    i.effect labels s' = i.effect labels s := by
  cases i with
  | load rt base offset => exact absurd rfl (hload rt base offset)
  | jump label => cases label <;> rfl
  | _ => simp only [effect, Storage.get_of_registers registers]

theorem ofOperands_ne_store {opcode : Opcode} (h : opcode ≠ .implant) (ops : Operands)
    (tokens : List String) (rt base : Register) (offset : Word) :
    ofOperands opcode ops tokens ≠ .store rt base offset := by
  intro heq
  cases opcode <;> cases heq
  exact h rfl

theorem ofOperands_ne_load {opcode : Opcode} (h : opcode ≠ .conjure) (ops : Operands)
    (tokens : List String) (rt base : Register) (offset : Word) :
    ofOperands opcode ops tokens ≠ .load rt base offset := by
  intro heq
  cases opcode <;> cases heq
  exact h rfl

end Instruction

/-- No word of the program is read as a load. -/
def Program.Loadless (p : Program) (c : Catalog) : Prop :=
  ∀ s ∈ p.statements, ∀ pc d, c.decode s.word pc = some d → d.definition.opcode ≠ .conjure

namespace Machine

/-- The statement at the `pc` is an access to memory, and it retires: a load from `address` into the
register, or a store of the register to `address`. -/
structure Accesses (m : Machine) (opcode : Opcode) (address : Word) (r : Register) : Prop where
  retires : ∃ control, m.step.outcome = .retired control
  statement : ∃ s d, m.fetch = .ok (some s) ∧ m.catalog.decode s.word m.pc = some d ∧
    d.definition.opcode = opcode ∧ d.operands.register 0 = r ∧
      effectiveAddress (m.storage.get (d.operands.register 1)) (d.operands.value 2) = address

section

variable {m : Machine} {opcode : Opcode} {address : Word} {r : Register}

theorem Accesses.of_decode {s : Statement} (fetch : m.fetch = .ok (some s))
    (retires : ∃ control, m.step.outcome = .retired control)
    (access : (m.catalog.decode s.word m.pc).map (fun d =>
      (d.definition.opcode, d.operands.register 0,
        effectiveAddress (m.storage.get (d.operands.register 1)) (d.operands.value 2))) =
      some (opcode, r, address)) : m.Accesses opcode address r := by
  obtain ⟨d, hdecode, haccess⟩ := Option.map_eq_some_iff.mp access
  simp only [Prod.mk.injEq] at haccess
  obtain ⟨hopcode, hregister, haddress⟩ := haccess
  exact ⟨retires, s, d, fetch, hdecode, hopcode, hregister, haddress⟩

/-- A step makes one access at most. -/
theorem Accesses.unique (h : m.Accesses opcode address r) {opcode' : Opcode} {address' : Word}
    {r' : Register} (h' : m.Accesses opcode' address' r') :
    opcode' = opcode ∧ address' = address ∧ r' = r := by
  obtain ⟨_, s, d, hfetch, hdecode, rfl, rfl, rfl⟩ := h
  obtain ⟨_, s', d', hfetch', hdecode', rfl, rfl, rfl⟩ := h'
  cases hfetch.symm.trans hfetch'
  cases hdecode.symm.trans hdecode'
  exact ⟨rfl, rfl, rfl⟩

theorem Accesses.effect (h : m.Accesses opcode address r) :
    ∃ ops tokens e, ops.register 0 = r ∧
      effectiveAddress (m.storage.get (ops.register 1)) (ops.value 2) = address ∧
        (Instruction.ofOperands opcode ops tokens).effect m.program.labels m.storage = .ok e ∧
          m.step.machine.storage = m.storage.commit e.writes := by
  obtain ⟨⟨control, hretired⟩, s, d, hfetch, hdecode, rfl, hr, haddress⟩ := h
  obtain ⟨s', d', e, _, hfetch', hdecode', heffect, _, hstep⟩ := effect_of_retired hretired
  cases hfetch.symm.trans hfetch'
  cases hdecode.symm.trans hdecode'
  exact ⟨d.operands, s.tokens, e, hr, haddress, heffect, by rw [hstep]; rfl⟩

/-- A load delivers the word it reads and changes nothing else. -/
theorem Accesses.loads (h : m.Accesses .conjure address r) :
    ∃ value, m.storage.memory.read address = .ok value ∧
      m.step.machine.storage.view = m.storage.view.assign r value := by
  obtain ⟨ops, tokens, e, rfl, rfl, heffect, hstorage⟩ := h.effect
  simp only [Instruction.ofOperands, Opcode.instruction, Instruction.effect] at heffect
  split at heffect
  · cases heffect
  · next value hread =>
    cases heffect
    refine ⟨value, hread, ?_⟩
    rw [hstorage]
    exact Storage.view_write_register ..

/-- A store may write where it writes and changes nothing else. -/
theorem Accesses.stores (h : m.Accesses .implant address r) :
    checkWrite address = .ok () ∧
      m.step.machine.storage =
        ⟨m.storage.registers, m.storage.memory.put address (m.storage.get r)⟩ := by
  obtain ⟨ops, tokens, e, rfl, rfl, heffect, hstorage⟩ := h.effect
  simp only [Instruction.ofOperands, Opcode.instruction, Instruction.effect] at heffect
  split at heffect
  · cases heffect
  · next hwrite =>
    cases heffect
    exact ⟨hwrite, hstorage⟩

/-- Nothing but a store that retires changes the memory. -/
theorem step_memory (h : ∀ address r, ¬m.Accesses .implant address r) :
    m.step.machine.storage.memory = m.storage.memory := by
  generalize hr : m.step = r
  cases stepCase hr with
  | latched | finished | spent | lost | past | undecoded | refused => rfl
  | @retired s d e status budget fetch decode effect =>
    refine Instruction.effect_memory effect (Instruction.ofOperands_ne_store ?_ _ _)
    intro hop
    refine h _ _ ⟨⟨e.control, ?_⟩, s, d, fetch, decode, hop, rfl, rfl⟩
    rw [hr]
    rfl

/-- A step leaves every word that it does not store. -/
theorem step_find (a : Word) (h : ∀ r, ¬m.Accesses .implant a r) :
    m.step.machine.storage.memory.find? a = m.storage.memory.find? a := by
  by_cases hstores : ∃ address r, m.Accesses .implant address r
  · obtain ⟨address, r, hstore⟩ := hstores
    have hne : a ≠ address := by
      rintro rfl
      exact h r hstore
    rw [hstore.stores.2, Memory.find_put, if_neg hne]
  · rw [step_memory (by simpa using hstores)]

end

end Machine

end MagicAssembly
