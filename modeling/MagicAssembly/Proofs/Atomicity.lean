import MagicAssembly.Proofs.StepCases

namespace MagicAssembly

/-- Reads and writes of the storage, one after the other. A fault ends them but undoes nothing. -/
def Access (α : Type) : Type :=
  Storage → Except Fault α × Storage

namespace Access

instance : Monad Access where
  pure a s := (.ok a, s)
  bind x f s :=
    match x s with
    | (.error fault, s') => (.error fault, s')
    | (.ok a, s') => f a s'

def fail (fault : Fault) : Access α :=
  fun s => (.error fault, s)

def compute (result : Except Fault α) : Access α :=
  fun s => (result, s)

def get (r : Register) : Access Word :=
  fun s => (.ok (s.get r), s)

def set (r : Register) (value : Word) : Access Unit :=
  fun s => (.ok (), s.write (.register r value))

def load (address : Word) : Access Word :=
  fun s => ((s.memory.read address).mapError .address, s)

def store (address value : Word) : Access Unit :=
  fun s =>
    match s.memory.write address value with
    | .error e => (.error (.address e), s)
    | .ok memory => (.ok (), { s with memory })

end Access

namespace Instruction

/-- The rules as they are carried out, access by access. -/
def accesses (labels : Labels) : Instruction → Access Control
  | .binary op rd rs rt => do
    let lhs ← .get rs
    let rhs ← .get rt
    let result ← .compute (op.apply lhs rhs)
    .set rd result
    return .sequential
  | .binaryImmediate op rd rs immediate => do
    let lhs ← .get rs
    let result ← .compute (op.apply lhs immediate)
    .set rd result
    return .sequential
  | .unary op rd rs => do
    let value ← .get rs
    .set rd (op.apply value)
    return .sequential
  | .swap rs rt => do
    let first ← .get rs
    let second ← .get rt
    .set rs second
    .set rt first
    return .sequential
  | .clear rd => do
    .set rd 0
    return .sequential
  | .increment rs => do
    let value ← .get rs
    .set rs (value + 1)
    return .sequential
  | .load rt base offset => do
    let start ← .get base
    let value ← .load (effectiveAddress start offset)
    .set rt value
    return .sequential
  | .store rt base offset => do
    let start ← .get base
    let value ← .get rt
    .store (effectiveAddress start offset) value
    return .sequential
  | .branch whenEqual rs rt target => do
    let first ← .get rs
    let second ← .get rt
    return if (first == second) = whenEqual then .transfer target else .sequential
  | .jump none => .fail .missingLabel
  | .jump (some label) =>
    match labels.resolve? label with
    | none => .fail (.unresolved label)
    | some target => return .transfer target

/-- Carrying out access by access comes to the same as checking everything first. -/
theorem accesses_eq (labels : Labels) (s : Storage) (i : Instruction) :
    i.accesses labels s = i.execute labels s := by
  cases i with
  | binary op rd rs rt =>
    simp only [accesses, execute, effect, bind, Access.get, Access.compute]
    cases op.apply (s.get rs) (s.get rt) <;> rfl
  | binaryImmediate op rd rs immediate =>
    simp only [accesses, execute, effect, bind, Access.get, Access.compute]
    cases op.apply (s.get rs) immediate <;> rfl
  | unary | swap | clear | increment | branch => rfl
  | load rt base offset =>
    simp only [accesses, execute, effect, bind, Access.get, Access.load]
    cases s.memory.read (effectiveAddress (s.get base) offset) <;> rfl
  | store rt base offset =>
    simp only [accesses, execute, effect, bind, Access.get, Access.store, Memory.write]
    cases checkWrite (effectiveAddress (s.get base) offset) <;> rfl
  | jump label =>
    cases label with
    | none => rfl
    | some label =>
      simp only [accesses, execute, effect]
      cases labels.resolve? label <;> rfl

theorem execute_fault {labels : Labels} {s s' : Storage} {i : Instruction} {fault : Fault}
    (h : i.execute labels s = (.error fault, s')) : s' = s := by
  unfold execute at h
  split at h
  · exact (Prod.mk.inj h).2.symm
  · cases (Prod.mk.inj h).1

end Instruction

namespace Machine

/-- All that a step without a retired instruction can change is the status, and that only if the
machine was running. -/
def Rests (m : Machine) (r : Step) : Prop :=
  match r.outcome with
  | .retired _ => True
  | .completed =>
    (m.status = .running ∨ m.status = .completed) ∧ r.machine = { m with status := .completed }
  | .fault kind =>
    ∃ e, e.fault.kind = kind ∧ (m.status = .running ∨ m.status = .faulted e) ∧
      r.machine = { m with status := .faulted e }
  | .budgetExhausted => r.machine = m

theorem step_rests (m : Machine) : m.Rests m.step := by
  generalize h : m.step = r
  cases stepCase h with
  | latched status => exact ⟨_, rfl, .inr status, by rw [← status]⟩
  | finished status => exact ⟨.inr status, by rw [← status]⟩
  | spent => rfl
  | past status => exact ⟨.inl status, rfl⟩
  | lost status => exact ⟨_, rfl, .inl status, rfl⟩
  | undecoded status => exact ⟨_, rfl, .inl status, rfl⟩
  | refused status => exact ⟨_, rfl, .inl status, rfl⟩
  | retired => trivial

/-- A step that retires nothing leaves the storage, the `pc`, the count and the program alone, and
so does a rule that faults, in whatever order it makes its accesses. -/
theorem unretired_unchanged :
    (∀ m : Machine, m.Rests m.step) ∧
      ∀ opcode ops tokens labels s,
        let i := Instruction.ofOperands opcode ops tokens
        i.accesses labels s = i.execute labels s ∧
          ∀ fault s', i.execute labels s = (.error fault, s') → s' = s :=
  ⟨step_rests, fun _ _ _ labels s =>
    ⟨Instruction.accesses_eq labels s _, fun _ _ h => Instruction.execute_fault h⟩⟩

end Machine

end MagicAssembly
