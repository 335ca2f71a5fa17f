import MagicAssembly.Proofs.Atomicity
import MagicAssembly.Proofs.Fetch

namespace MagicAssembly

namespace Word

/-- The number as a word, if it is not too large. -/
def ofNat? (n : Nat) : Option Word :=
  if n < 1 <<< wordBits then some (BitVec.ofNat 32 n) else none

/-- The sum, unless it overflows. -/
def add? (a b : Word) : Option Word :=
  if a.uaddOverflow b then none else some (a + b)

def mul? (a b : Word) : Option Word :=
  if a.umulOverflow b then none else some (a * b)

def sub? (a b : Word) : Option Word :=
  if a.usubOverflow b then none else some (a - b)

section

variable {a b w : Word}

theorem ofNat_eq_some_iff {n : Nat} : ofNat? n = some w ↔ w.toNat = n := by
  have hw := w.isLt
  simp only [ofNat?, wordBits, Nat.one_shiftLeft, Option.ite_none_right_eq_some,
    Option.some.injEq, ← BitVec.toNat_inj, BitVec.toNat_ofNat]
  omega

theorem add_eq_some_iff : a.add? b = some w ↔ w.toNat = a.toNat + b.toNat := by
  have hw := w.isLt
  simp only [add?, BitVec.uaddOverflow, Option.ite_none_left_eq_some, decide_eq_true_eq,
    Option.some.injEq, ← BitVec.toNat_inj, BitVec.toNat_add]
  omega

theorem mul_eq_some_iff : a.mul? b = some w ↔ w.toNat = a.toNat * b.toNat := by
  have hw := w.isLt
  simp only [mul?, BitVec.umulOverflow, Option.ite_none_left_eq_some, decide_eq_true_eq,
    Option.some.injEq, ← BitVec.toNat_inj, BitVec.toNat_mul]
  generalize a.toNat * b.toNat = n
  omega

theorem sub_eq_some_iff : a.sub? b = some w ↔ a.toNat = w.toNat + b.toNat := by
  have hw := w.isLt
  have ha := a.isLt
  have hb := b.isLt
  simp only [sub?, BitVec.usubOverflow, Option.ite_none_left_eq_some, decide_eq_true_eq,
    Option.some.injEq, ← BitVec.toNat_inj, BitVec.toNat_sub]
  omega

end

end Word

namespace Config

/-- The address of a statement, reckoned in words and refused where a word is too small. -/
def reckonAddress? (c : Config) (index : Nat) : Option Word :=
  (Word.ofNat? index).bind fun number => (number.mul? 4).bind fun offset => c.textBase.add? offset

theorem reckonAddress_eq (c : Config) (index : Nat) :
    c.reckonAddress? index = c.address? index := by
  ext a
  have hfour : (4 : Word).toNat = 4 := rfl
  rw [address_eq_some_iff]
  simp only [reckonAddress?, Option.bind_eq_some_iff, Word.ofNat_eq_some_iff, Word.mul_eq_some_iff,
    Word.add_eq_some_iff, hfour]
  constructor
  · rintro ⟨number, hnumber, offset, hoffset, ha⟩
    omega
  · intro ha
    have hlt := a.isLt
    refine ⟨BitVec.ofNat 32 index, ?_, BitVec.ofNat 32 (index * 4), ?_, ?_⟩ <;>
      simp only [BitVec.toNat_ofNat] <;> omega

section

variable {c : Config} {i j : Nat} {a b : Word}

theorem address_lt (hi : c.address? i = some a) (hj : c.address? j = some b) (hij : i < j) :
    a < b := by
  rw [address_eq_some_iff] at hi hj
  exact BitVec.lt_def.mpr (by omega)

/-- Statements in front of one that has an address have theirs. -/
theorem address_of_le (hj : c.address? j = some b) (hij : i ≤ j) : ∃ a, c.address? i = some a := by
  have hroom := exists_address_iff.mp ⟨b, hj⟩
  exact exists_address_iff.mpr (by omega)

theorem address_none_of_le (hi : c.address? i = none) (hij : i ≤ j) : c.address? j = none := by
  cases hj : c.address? j with
  | none => rfl
  | some b =>
    obtain ⟨a, ha⟩ := address_of_le hj hij
    cases hi.symm.trans ha

end

end Config

namespace Machine

/-- The number of the statement at `pc`, reckoned in words from the distance to the text base. -/
def reckonIndex (m : Machine) (pc : Word) : Except AddressError (Option Nat) :=
  match pc.sub? m.config.textBase with
  | none => .error ⟨pc, .outOfRange⟩
  | some offset =>
    if offset % 4 ≠ 0 then .error ⟨pc, .unaligned⟩
    else if (offset / 4).toNat < m.program.size then .ok (some (offset / 4).toNat)
    else .ok none

/-- A step that looks its statement up by number. Were there none of that number, it would report
completion and leave the machine running. -/
def lookupStep (m : Machine) : Step :=
  match m.status with
  | .faulted error => ⟨m, .fault error.fault.kind, []⟩
  | .completed => ⟨m, .completed, []⟩
  | .running =>
    if m.config.stepBudget ≤ m.steps then ⟨m, .budgetExhausted, []⟩
    else
      match m.reckonIndex m.pc with
      | .error e => m.latch [] ⟨"(fetch)", m.pc, .address e⟩
      | .ok none => m.complete
      | .ok (some index) =>
        match m.program.statements[index]? with
        | none => ⟨m, .completed, []⟩
        | some statement => m.perform statement

theorem reckonIndex_eq (m : Machine) (pc : Word) :
    m.reckonIndex pc = (m.statementIndex pc).map (·.map Fin.val) := by
  unfold reckonIndex
  rw [statementIndex_eq, Config.fetchFault?]
  by_cases hlt : pc.toNat < m.config.textBase.toNat
  · have hsub : pc.sub? m.config.textBase = none := by simp [Word.sub?, BitVec.usubOverflow, hlt]
    rw [hsub, if_pos hlt]
    rfl
  · have hle : m.config.textBase ≤ pc := BitVec.le_def.mpr (Nat.le_of_not_lt hlt)
    have hoffset := BitVec.toNat_sub_of_le hle
    have hsub : pc.sub? m.config.textBase = some (pc - m.config.textBase) :=
      Word.sub_eq_some_iff.mpr (by omega)
    have hmod : (pc - m.config.textBase) % 4 ≠ 0 ↔
        (pc.toNat - m.config.textBase.toNat) % 4 ≠ 0 := by
      rw [← hoffset, Ne, ← BitVec.toNat_inj, BitVec.toNat_umod]
      rfl
    have hdiv : ((pc - m.config.textBase) / 4).toNat =
        (pc.toNat - m.config.textBase.toNat) / 4 := by
      rw [← hoffset, BitVec.toNat_udiv]
      rfl
    simp only [hsub, if_neg hlt, hmod, hdiv]
    split
    · rfl
    · dsimp only
      unfold Program.size
      split <;> rfl

section

variable {m : Machine} {pc : Word}

theorem exists_index_iff {i : Nat} :
    (∃ h, m.statementIndex pc = .ok (some ⟨i, h⟩)) ↔
      i < m.program.size ∧ m.statementAddress? i = some pc := by
  constructor
  · rintro ⟨h, hindex⟩
    exact ⟨h, statementIndex_eq_some_iff.mp hindex⟩
  · rintro ⟨h, haddress⟩
    exact ⟨h, statementIndex_eq_some_iff.mpr haddress⟩

theorem index_eq_error_iff {cause : AddressFault} :
    m.statementIndex pc = .error ⟨pc, cause⟩ ↔ m.config.fetchFault? pc = some cause := by
  rw [statementIndex_eq]
  cases m.config.fetchFault? pc with
  | some cause' => simp
  | none =>
    dsimp only
    split <;> simp

theorem index_outOfRange_iff :
    m.statementIndex pc = .error ⟨pc, .outOfRange⟩ ↔ pc.toNat < m.config.textBase.toNat := by
  rw [index_eq_error_iff, Config.fetchFault?]
  split
  · next hlt => simp [hlt]
  · next hle => split <;> simp [hle]

theorem index_unaligned_iff :
    m.statementIndex pc = .error ⟨pc, .unaligned⟩ ↔ m.config.textBase.toNat ≤ pc.toNat ∧
      (pc.toNat - m.config.textBase.toNat) % 4 ≠ 0 := by
  rw [index_eq_error_iff, Config.fetchFault?]
  split
  · next hlt => simp [Nat.not_le.mpr hlt]
  · next hle =>
    have hle := Nat.le_of_not_lt hle
    split
    · next hmod => simp [hle, hmod]
    · next hmod => simp [hmod]

/-- Whatever lies a whole number of words behind the text base and is no statement is past the
program. -/
theorem index_eq_none_iff :
    m.statementIndex pc = .ok none ↔ m.config.textBase.toNat ≤ pc.toNat ∧
      (pc.toNat - m.config.textBase.toNat) % 4 = 0 ∧
        ∀ i < m.program.size, m.statementAddress? i ≠ some pc := by
  constructor
  · intro hnone
    have hle : m.config.textBase.toNat ≤ pc.toNat := by
      refine Nat.le_of_not_lt fun hlt => ?_
      cases hnone.symm.trans (index_outOfRange_iff.mpr hlt)
    refine ⟨hle, Decidable.of_not_not fun hmod => ?_, ?_⟩
    · cases hnone.symm.trans (index_unaligned_iff.mpr ⟨hle, hmod⟩)
    · intro i hi haddress
      obtain ⟨_, hindex⟩ := exists_index_iff.mpr ⟨hi, haddress⟩
      cases hnone.symm.trans hindex
  · rintro ⟨hle, hmod, hnowhere⟩
    have hfault : m.config.fetchFault? pc = none := by
      simp [Config.fetchFault?, Nat.not_lt.mpr hle, hmod]
    rw [statementIndex_eq, hfault]
    exact dif_neg fun hi => hnowhere _ hi (Config.address_eq_some_iff.mpr (by omega))

end

/-- A number that is found is the number of a statement. -/
theorem statement_of_reckonIndex {m : Machine} {pc : Word} {i : Nat}
    (h : m.reckonIndex pc = .ok (some i)) : ∃ s, m.program.statements[i]? = some s := by
  rw [reckonIndex_eq] at h
  cases hindex : m.statementIndex pc with
  | error e =>
    rw [hindex] at h
    cases h
  | ok index =>
    rw [hindex] at h
    cases index with
    | none => cases h
    | some j =>
      cases h
      exact ⟨_, Array.getElem?_eq_getElem j.isLt⟩

theorem lookupStep_eq (m : Machine) : m.lookupStep = m.step := by
  unfold lookupStep step fetch
  cases m.status with
  | faulted | completed => rfl
  | running =>
    rw [reckonIndex_eq]
    cases m.statementIndex m.pc with
    | error e => rfl
    | ok index =>
      cases index with
      | none => rfl
      | some i =>
        simp only [Except.map, Option.map_some, Array.getElem?_eq_getElem i.isLt]
        rfl

theorem runState_of_completed {m : Machine} (h : m.step.outcome = .completed) :
    m.step.machine.runState = .completed := by
  have hrests := m.step_rests
  rw [Rests, h] at hrests
  rw [hrests.2]
  rfl

/-- Addresses and numbers of statements answer each other, also when they are reckoned in words. The
number that is found belongs to a statement, so a step that reports completion has completed the
machine. -/
theorem fetch_agrees (m : Machine) :
    ((∀ i, m.config.reckonAddress? i = m.statementAddress? i) ∧
      ∀ pc, m.reckonIndex pc = (m.statementIndex pc).map (·.map Fin.val)) ∧
    (∀ pc i, (∃ h, m.statementIndex pc = .ok (some ⟨i, h⟩)) ↔
      i < m.program.size ∧ m.statementAddress? i = some pc) ∧
    ((∀ i j a b, i < j → m.statementAddress? i = some a → m.statementAddress? j = some b → a < b) ∧
      (∀ i j, i ≤ j → m.statementAddress? i = none → m.statementAddress? j = none) ∧
        ∀ i pc h, m.statementAddress? i = none → m.statementIndex pc ≠ .ok (some ⟨i, h⟩)) ∧
    (∀ pc,
      (m.statementIndex pc = .error ⟨pc, .outOfRange⟩ ↔
        pc.toNat < m.config.textBase.toNat) ∧
      (m.statementIndex pc = .error ⟨pc, .unaligned⟩ ↔
        m.config.textBase.toNat ≤ pc.toNat ∧
          (pc.toNat - m.config.textBase.toNat) % 4 ≠ 0) ∧
      (m.statementIndex pc = .ok none ↔
        m.config.textBase.toNat ≤ pc.toNat ∧
          (pc.toNat - m.config.textBase.toNat) % 4 = 0 ∧
            ∀ i < m.program.size, m.statementAddress? i ≠ some pc)) ∧
    ((∀ pc i, m.reckonIndex pc = .ok (some i) → ∃ s, m.program.statements[i]? = some s) ∧
      m.lookupStep = m.step ∧
        (m.step.outcome = .completed → m.step.machine.runState = .completed)) := by
  refine ⟨⟨m.config.reckonAddress_eq, m.reckonIndex_eq⟩, fun _ _ => exists_index_iff, ⟨?_, ?_, ?_⟩,
    fun _ => ⟨index_outOfRange_iff, index_unaligned_iff, index_eq_none_iff⟩,
    fun _ _ => statement_of_reckonIndex, m.lookupStep_eq, runState_of_completed⟩
  · intro i j a b hij ha hb
    exact Config.address_lt ha hb hij
  · intro i j hij hi
    exact Config.address_none_of_le hi hij
  · intro i pc h hi hindex
    cases hi.symm.trans (statementIndex_eq_some_iff.mp hindex)

end Machine

end MagicAssembly
