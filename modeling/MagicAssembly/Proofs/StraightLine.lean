import Mathlib.Algebra.Group.Nat.Defs
import MagicAssembly.Proofs.Apart
import MagicAssembly.Proofs.Budget

namespace MagicAssembly

/-- The address of a statement, also of one past the end of the address space. -/
def Config.wordAt (c : Config) (index : Nat) : Word :=
  c.textBase + BitVec.ofNat 32 (4 * index)

theorem Config.wordAt_succ (c : Config) (i : Nat) : c.wordAt (i + 1) = c.wordAt i + 4 := by
  simp only [wordAt, Nat.mul_succ, BitVec.ofNat_add, BitVec.add_assoc]
  rfl

theorem Config.wordAt_toNat {c : Config} {size i : Nat}
    (room : c.textBase.toNat + 4 * size < 2 ^ 32) (hi : i ≤ size) :
    (c.wordAt i).toNat = c.textBase.toNat + 4 * i := by
  simp only [wordAt, BitVec.toNat_add, BitVec.toNat_ofNat]
  omega

/-- Only branches and jumps go on elsewhere. -/
theorem Instruction.ofOperands_sequential {op : Opcode} (h : op ∉ [.ward, .curse, .teleport])
    {ops : Operands} {tokens : List String} {labels : Labels} {s : Storage} {e : Effect}
    (heffect : (Instruction.ofOperands op ops tokens).effect labels s = .ok e) :
    e.control = .sequential := by
  cases op with
  | ward | curse | teleport => simp at h
  | conjure =>
    simp only [ofOperands, Opcode.instruction, effect] at heffect
    split at heffect <;> cases heffect
    rfl
  | _ =>
    refine Plain.control ?_ heffect
    trivial

/-- What the rule of a statement at `pc` leaves of the storage. -/
def Statement.apply (catalog : Catalog) (labels : Labels) (pc : Word) (s : Statement)
    (storage : Storage) : Except Fault Storage :=
  match catalog.decode s.word pc with
  | none => .error (.illegalEncoding s.word)
  | some d =>
    match (d.instruction s.tokens).execute labels storage with
    | (.error fault, _) => .error fault
    | (.ok _, storage') => .ok storage'

namespace Program

/-- The rules of the first `n` statements, applied in turn to the storage after a reset. -/
def fold (p : Program) (config : Config) (catalog : Catalog) (n : Nat) : Except Fault Storage :=
  (p.statements.toList.zipIdx.take n).foldlM
    (fun storage x => x.1.apply catalog p.labels (config.wordAt x.2) storage)
    (Machine.initialStorage config p)

/-- Whether the statement faults in its turn, or one before it. -/
def faulted (p : Program) (config : Config) (catalog : Catalog) (index : Nat) : Bool :=
  !(p.fold config catalog (index + 1)).isOk

/-- The index of the first statement that faults, or the number of statements if none does. -/
def firstFault (p : Program) (config : Config) (catalog : Catalog) : Nat :=
  (List.range p.size).findIdx (p.faulted config catalog)

/-- No word of the program is read as a branch or a jump. -/
def Straight (p : Program) (c : Catalog) : Prop :=
  ∀ s ∈ p.statements, ∀ pc d, c.decode s.word pc = some d →
    d.definition.opcode ∉ [.ward, .curse, .teleport]

theorem fold_succ (config : Config) (catalog : Catalog) {p : Program} {i : Nat} {s : Statement}
    (hs : p.statements[i]? = some s) :
    p.fold config catalog (i + 1) =
      (p.fold config catalog i).bind (s.apply catalog p.labels (config.wordAt i)) := by
  have hx : p.statements.toList.zipIdx[i]? = some (s, i) := by
    simp [List.getElem?_zipIdx, hs]
  simp only [fold, List.take_add_one, hx, Option.toList_some, List.foldlM_append, List.foldlM_cons,
    List.foldlM_nil, bind_pure]
  rfl

section

variable {p : Program} {config : Config} {catalog : Catalog}

theorem firstFault_le : p.firstFault config catalog ≤ p.size := by
  have hle : p.firstFault config catalog ≤ (List.range p.size).length :=
    List.findIdx_le_length
  rwa [List.length_range] at hle

/-- Up to there the fold succeeds. -/
theorem fold_of_le {n : Nat} (h : n ≤ p.firstFault config catalog) :
    ∃ storage, p.fold config catalog n = .ok storage := by
  cases n with
  | zero => exact ⟨_, rfl⟩
  | succ n =>
    have hn := List.not_of_lt_findIdx h
    rw [List.getElem_range, faulted] at hn
    cases hfold : p.fold config catalog (n + 1) with
    | ok storage => exact ⟨storage, rfl⟩
    | error fault => simp [hfold, Except.isOk, Except.toBool] at hn

theorem fold_firstFault (h : p.firstFault config catalog < p.size) :
    ∃ fault, p.fold config catalog (p.firstFault config catalog + 1) = .error fault := by
  have hfound : p.faulted config catalog (p.firstFault config catalog) = true := by
    have hlt : (List.range p.size).findIdx (p.faulted config catalog) <
        (List.range p.size).length := by
      rwa [List.length_range]
    have hget := List.findIdx_getElem (w := hlt)
    rwa [List.getElem_range] at hget
  rw [faulted] at hfound
  cases hfold : p.fold config catalog (p.firstFault config catalog + 1) with
  | ok storage => simp [hfold, Except.isOk, Except.toBool] at hfound
  | error fault => exact ⟨fault, rfl⟩

end

end Program

namespace Machine

section

variable {m : Machine} {s : Statement}

theorem step_of_apply_error {fault : Fault} (status : m.status = .running)
    (budget : m.steps < m.config.stepBudget) (fetch : m.fetch = .ok (some s))
    (apply : s.apply m.catalog m.program.labels m.pc m.storage = .error fault) :
    m.step.outcome = .fault fault.kind := by
  unfold Statement.apply at apply
  split at apply
  · next decode =>
    cases apply
    rw [(StepCase.undecoded status budget fetch decode).step_eq]
    rfl
  · next d decode =>
    unfold Instruction.execute at apply
    cases effect : (d.instruction s.tokens).effect m.program.labels m.storage with
    | error fault' =>
      rw [effect] at apply
      cases apply
      rw [(StepCase.refused status budget fetch decode effect).step_eq]
      rfl
    | ok e =>
      rw [effect] at apply
      cases apply

theorem step_of_apply_ok {storage : Storage} (status : m.status = .running)
    (budget : m.steps < m.config.stepBudget) (fetch : m.fetch = .ok (some s))
    (straight : ∀ d, m.catalog.decode s.word m.pc = some d →
      d.definition.opcode ∉ [.ward, .curse, .teleport])
    (apply : s.apply m.catalog m.program.labels m.pc m.storage = .ok storage) :
    m.Retires ⟨m.pc, s.word, .sequential⟩ ∧
      m.step.machine = { m with storage, pc := m.pc + 4, steps := m.steps + 1 } := by
  unfold Statement.apply at apply
  split at apply
  · cases apply
  · next d decode =>
    unfold Instruction.execute at apply
    cases effect : (d.instruction s.tokens).effect m.program.labels m.storage with
    | error fault =>
      rw [effect] at apply
      cases apply
    | ok e =>
      rw [effect] at apply
      cases apply
      have hcontrol := Instruction.ofOperands_sequential (straight d decode) effect
      have hretires := retires_of_effect status budget fetch decode effect
      rw [hcontrol] at hretires
      refine ⟨hretires, ?_⟩
      rw [(StepCase.retired status budget fetch decode effect).step_eq, hcontrol]
      rfl

end

/-- A machine that has carried out `n` statements, one after the other, and holds the storage. -/
def midway (config : Config) (catalog : Catalog) (program : Program) (n : Nat)
    (storage : Storage) : Machine :=
  { boot config catalog program with storage, pc := config.wordAt n, steps := n }

section

variable {config : Config} {catalog : Catalog} {program : Program} {n : Nat} {storage : Storage}

theorem midway_fetch (room : config.textBase.toNat + 4 * program.size < 2 ^ 32) {s : Statement}
    (hs : program.statements[n]? = some s) :
    (midway config catalog program n storage).fetch = .ok (some s) := by
  obtain ⟨hn, _⟩ := Array.getElem?_eq_some_iff.mp hs
  have hpc := Config.wordAt_toNat room (Nat.le_of_lt hn)
  exact fetch_eq_some_iff.mpr ⟨n, Config.address_eq_some_iff.mpr hpc, hs⟩

theorem midway_retires (room : config.textBase.toNat + 4 * program.size < 2 ^ 32)
    (straight : program.Straight catalog) {s : Statement} (hs : program.statements[n]? = some s)
    (left : n < config.stepBudget) {storage' : Storage}
    (apply : s.apply catalog program.labels (config.wordAt n) storage = .ok storage') :
    (midway config catalog program n storage).Retires ⟨config.wordAt n, s.word, .sequential⟩ ∧
      (midway config catalog program n storage).step.machine =
        midway config catalog program (n + 1) storage' := by
  have hstraight := straight s (Array.mem_of_getElem? hs) (config.wordAt n)
  obtain ⟨hretires, hmachine⟩ :=
    step_of_apply_ok (m := midway config catalog program n storage) rfl left
      (midway_fetch room hs) hstraight apply
  refine ⟨hretires, hmachine.trans ?_⟩
  simp only [midway, Config.wordAt_succ]

/-- Until a statement faults or the budget is spent, the machine does what the fold does. -/
theorem after_midway (room : config.textBase.toNat + 4 * program.size < 2 ^ 32)
    (straight : program.Straight catalog) (hfault : n ≤ program.firstFault config catalog)
    (hbudget : n ≤ config.stepBudget) :
    ∃ storage, program.fold config catalog n = .ok storage ∧
      after attempt n (boot config catalog program) = midway config catalog program n storage ∧
        ∀ i < n, ∃ s, program.statements[i]? = some s ∧
          (after attempt i (boot config catalog program)).Retires
            ⟨config.wordAt i, s.word, .sequential⟩ := by
  induction n with
  | zero =>
    refine ⟨_, rfl, ?_, ?_⟩
    · simp [after, midway, Config.wordAt, boot]
    · intro i hi
      cases hi
  | succ n ih =>
    obtain ⟨storage, hfold, hafter, hretired⟩ :=
      ih (Nat.le_of_succ_le hfault) (Nat.le_of_succ_le hbudget)
    obtain ⟨storage', hfold'⟩ := Program.fold_of_le hfault
    have hs := Array.getElem?_eq_getElem (Nat.lt_of_lt_of_le hfault Program.firstFault_le)
    have hstep := Program.fold_succ config catalog hs
    rw [hfold, hfold'] at hstep
    obtain ⟨hretires, hmachine⟩ := midway_retires room straight hs hbudget hstep.symm
    rw [← hafter] at hretires hmachine
    refine ⟨storage', hfold', (after_attempt_succ ..).trans hmachine, ?_⟩
    intro i hi
    rcases Nat.lt_succ_iff_lt_or_eq.mp hi with hi | rfl
    · exact hretired i hi
    · exact ⟨_, hs, hretires⟩

/-- How a program ends whose first fault is at `k`. A spent budget is noticed first. -/
structure Ends (program : Program) (config : Config) (catalog : Catalog) (k : Nat)
    (outcome : StepOutcome) : Prop where
  spent : config.stepBudget ≤ k → outcome = .budgetExhausted
  fault : k < config.stepBudget → k < program.size →
    ∃ fault, program.fold config catalog (k + 1) = .error fault ∧ outcome = .fault fault.kind
  completed : k < config.stepBudget → k = program.size → outcome = .completed

theorem Ends.unretired {k : Nat} {outcome : StepOutcome}
    (h : Ends program config catalog k outcome) (hk : k ≤ program.size) (control : Control) :
    outcome ≠ .retired control := by
  rcases Nat.lt_or_ge k config.stepBudget with hleft | hspent
  · rcases Nat.lt_or_eq_of_le hk with hlt | heq
    · obtain ⟨fault, _, houtcome⟩ := h.fault hleft hlt
      simp [houtcome]
    · simp [h.completed hleft heq]
  · simp [h.spent hspent]

/-- Where the fold cannot go on, the machine stops, and for the same reason. -/
theorem midway_ends (room : config.textBase.toNat + 4 * program.size < 2 ^ 32)
    (hn : n = min (program.firstFault config catalog) config.stepBudget)
    (hfold : program.fold config catalog n = .ok storage) :
    Ends program config catalog (program.firstFault config catalog)
      (midway config catalog program n storage).step.outcome where
  spent hspent := by
    obtain rfl : n = config.stepBudget := hn.trans (Nat.min_eq_right hspent)
    exact spent_iff.mpr ⟨rfl, Nat.le_refl _⟩
  fault hleft hlt := by
    obtain rfl : n = program.firstFault config catalog :=
      hn.trans (Nat.min_eq_left (Nat.le_of_lt hleft))
    obtain ⟨fault, hfault⟩ := Program.fold_firstFault hlt
    have hs := Array.getElem?_eq_getElem hlt
    have hstep := Program.fold_succ config catalog hs
    rw [hfold, hfault] at hstep
    exact ⟨fault, hfault, step_of_apply_error (m := midway config catalog program _ storage) rfl
      hleft (midway_fetch room hs) hstep.symm⟩
  completed hleft heq := by
    obtain rfl : n = program.firstFault config catalog :=
      hn.trans (Nat.min_eq_left (Nat.le_of_lt hleft))
    have hpc := Config.wordAt_toNat room (Nat.le_refl program.size)
    rw [← heq] at hpc
    have hfetch :
        (midway config catalog program (program.firstFault config catalog) storage).fetch =
          .ok none := by
      rw [fetch_eq_none_iff]
      simp only [midway, boot, hpc]
      omega
    rw [(StepCase.past rfl hleft hfetch).step_eq]
    rfl

/-- A program without branches and jumps runs as the fold of its rules over the storage, statement
by statement, up to the first fault, the end of the program or the end of the budget. -/
theorem run_folds (room : config.textBase.toNat + 4 * program.size < 2 ^ 32)
    (straight : program.Straight catalog) :
    let start := (create config catalog).load program
    let r := start.run
    let k := program.firstFault config catalog
    let n := min k config.stepBudget
    r.retired = n ∧
    (∀ i < n, ∃ s, program.statements[i]? = some s ∧
      (after attempt i start).Retires ⟨config.wordAt i, s.word, .sequential⟩) ∧
    Ends program config catalog k r.final ∧
    program.fold config catalog n = .ok r.machine.storage ∧
    r.machine.pc = config.wordAt n ∧ r.machine.pc.toNat = config.textBase.toNat + 4 * n := by
  intro start r k n
  have hsize : k ≤ program.size := Program.firstFault_le
  obtain ⟨storage, hfold, hafter, hretired⟩ :=
    after_midway room straight (Nat.min_le_left k config.stepBudget) (Nat.min_le_right _ _)
  change after attempt n start = midway config catalog program n storage at hafter
  have hends :
      Ends program config catalog k (midway config catalog program n storage).step.outcome :=
    midway_ends room rfl hfold
  have hstop : (after attempt n start).Stops := by
    intro control
    rw [hafter]
    exact hends.unretired hsize control
  have hretires : ∀ i < n, ∃ x, (after attempt i start).Retires x := by
    intro i hi
    obtain ⟨s, _, hs⟩ := hretired i hi
    exact ⟨_, hs⟩
  obtain ⟨hcount, hfinal, hmachine⟩ := run_of_retires hretires hstop
  obtain ⟨status, hkeeps⟩ := hstop.keeps
  have hlast : r.machine = { midway config catalog program n storage with status } := by
    rw [hmachine, hkeeps, hafter]
  have hpc : (config.wordAt n).toNat = config.textBase.toNat + 4 * n :=
    Config.wordAt_toNat room (Nat.le_trans (Nat.min_le_left _ _) hsize)
  rw [hlast]
  refine ⟨hcount, hretired, ?_, hfold, rfl, hpc⟩
  rw [hfinal, hafter]
  exact hends

end

/-- The third word is none of the catalog's. -/
def thirdUnknown : Program :=
  ((Program.empty.push 0x00080015 "chrg $t0").push 0x00080015 "chrg $t0").push 0xFFFFFFFF ""

/-- A budget of two is spent before the third word is looked at. -/
theorem run_folds_thirdUnknown :
    let run budget :=
      ((create { stepBudget := budget } Listing.chargeLoop.catalog).load thirdUnknown).run
    thirdUnknown.Straight Listing.chargeLoop.catalog ∧
      (∀ budget,
        ({ stepBudget := budget } : Config).textBase.toNat + 4 * thirdUnknown.size < 2 ^ 32) ∧
      (run 2).retired = 2 ∧ (run 2).final = .budgetExhausted ∧
      (run 3).retired = 2 ∧ (run 3).final = .fault .decode := by
  intro run
  have hopcodes : ∀ s ∈ thirdUnknown.statements, ∀ op ∈ Listing.chargeLoop.catalog.opcode? s.word,
      op ∉ [Opcode.ward, .curse, .teleport] := by
    decide +kernel
  have straight : thirdUnknown.Straight Listing.chargeLoop.catalog := by
    intro s hs pc d hdecode
    exact hopcodes s hs _ (Catalog.opcode_of_decode hdecode)
  have room (budget : Nat) :
      ({ stepBudget := budget } : Config).textBase.toNat + 4 * thirdUnknown.size < 2 ^ 32 := by
    change 0x400000 + 4 * 3 < 2 ^ 32
    decide
  have htwo : thirdUnknown.firstFault { stepBudget := 2 } Listing.chargeLoop.catalog = 2 := by
    decide +kernel
  have hthree : thirdUnknown.firstFault { stepBudget := 3 } Listing.chargeLoop.catalog = 2 := by
    decide +kernel
  obtain ⟨hretired, _, hends, _⟩ := run_folds (room 2) straight
  obtain ⟨hretired', _, hends', _⟩ := run_folds (room 3) straight
  rw [htwo] at hretired hends
  rw [hthree] at hretired' hends'
  obtain ⟨fault, hfault, hfinal⟩ := hends'.fault (by decide) (by decide)
  obtain rfl : Fault.illegalEncoding 0xFFFFFFFF = fault := Except.error.inj hfault
  exact ⟨straight, room, hretired, hends.spent (Nat.le_refl _), hretired', hfinal⟩

end Machine

end MagicAssembly
