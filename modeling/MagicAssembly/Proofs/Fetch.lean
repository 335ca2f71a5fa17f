import MagicAssembly.Machine.Basic

namespace MagicAssembly

theorem Config.address_eq_some_iff {c : Config} {index : Nat} {a : Word} :
    c.address? index = some a ↔ a.toNat = c.textBase.toNat + 4 * index := by
  have ha := a.isLt
  simp only [address?, wordBytes, wordBits, Nat.one_shiftLeft]
  by_cases hlt : c.textBase.toNat + 4 * index < 2 ^ 32
  · rw [if_pos hlt, Option.some.injEq, ← BitVec.toNat_inj, BitVec.toNat_ofNat,
      Nat.mod_eq_of_lt hlt]
    exact eq_comm
  · rw [if_neg hlt]
    constructor
    · intro h
      cases h
    · intro h
      omega

theorem Config.exists_address_iff {c : Config} {index : Nat} :
    (∃ a, c.address? index = some a) ↔ c.textBase.toNat + 4 * index < 0x100000000 := by
  constructor
  · rintro ⟨a, ha⟩
    rw [← address_eq_some_iff.mp ha]
    exact a.isLt
  · intro hlt
    exact ⟨_, if_pos hlt⟩

/-- No two statements share an address. -/
theorem Config.address_inj {c : Config} {i j : Nat} {a : Word} (hi : c.address? i = some a)
    (hj : c.address? j = some a) : i = j := by
  rw [address_eq_some_iff] at hi hj
  omega

/-- Why no statement can start at an address, whatever the length of the program. -/
def Config.fetchFault? (c : Config) (pc : Word) : Option AddressFault :=
  if pc.toNat < c.textBase.toNat then some .outOfRange
  else if (pc.toNat - c.textBase.toNat) % 4 ≠ 0 then some .unaligned
  else none

namespace Machine

/-- The address of a statement and the statement at an address are one relation. -/
theorem statementIndex_eq (m : Machine) (pc : Word) :
    m.statementIndex pc =
      match m.config.fetchFault? pc with
      | some cause => .error ⟨pc, cause⟩
      | none =>
        if h : (pc.toNat - m.config.textBase.toNat) / 4 < m.program.statements.size then
          .ok (some ⟨_, h⟩)
        else .ok none := by
  unfold statementIndex Config.fetchFault?
  by_cases hlt : pc < m.config.textBase
  · rw [if_pos hlt, if_pos (BitVec.lt_def.mp hlt)]
  · have hle : m.config.textBase ≤ pc := BitVec.not_lt.mp hlt
    rw [if_neg hlt, if_neg (mt BitVec.lt_def.mpr hlt)]
    simp only [BitVec.toNat_sub_of_le hle, wordBytes]
    split <;> rfl

theorem statementIndex_eq_some_iff {m : Machine} {pc : Word}
    {i : Fin m.program.statements.size} :
    m.statementIndex pc = .ok (some i) ↔ m.config.address? i = some pc := by
  rw [statementIndex_eq, Config.address_eq_some_iff]
  have hi := i.isLt
  unfold Config.fetchFault?
  grind

theorem fetch_eq_some_iff {m : Machine} {s : Statement} :
    m.fetch = .ok (some s) ↔
      ∃ i, m.config.address? i = some m.pc ∧ m.program.statements[i]? = some s := by
  constructor
  · intro h
    unfold fetch at h
    cases hindex : m.statementIndex m.pc with
    | error e => simp [hindex, Except.map] at h
    | ok index =>
      cases index with
      | none => simp [hindex, Except.map] at h
      | some i =>
        exact ⟨i, statementIndex_eq_some_iff.mp hindex, by simpa [hindex, Except.map] using h⟩
  · rintro ⟨i, haddress, hs⟩
    obtain ⟨hi, rfl⟩ := Array.getElem?_eq_some_iff.mp hs
    have hindex : m.statementIndex m.pc = .ok (some ⟨i, hi⟩) :=
      statementIndex_eq_some_iff.mpr haddress
    simp [fetch, hindex, Except.map]

theorem fetch_eq_error_iff {m : Machine} {e : AddressError} :
    m.fetch = .error e ↔ ∃ cause, m.config.fetchFault? m.pc = some cause ∧ e = ⟨m.pc, cause⟩ := by
  unfold fetch
  rw [statementIndex_eq]
  cases m.config.fetchFault? m.pc with
  | some cause => simp [Except.map, eq_comm]
  | none =>
    dsimp only
    split <;> simp [Except.map]

/-- Nothing is fetched at a whole number of words past the text base that the program does not
reach. -/
theorem fetch_eq_none_iff {m : Machine} :
    m.fetch = .ok none ↔ m.config.textBase.toNat ≤ m.pc.toNat ∧
      (m.pc.toNat - m.config.textBase.toNat) % 4 = 0 ∧
        m.program.size ≤ (m.pc.toNat - m.config.textBase.toNat) / 4 := by
  have hsize : m.program.size = m.program.statements.size := rfl
  rw [fetch, statementIndex_eq, hsize]
  unfold Config.fetchFault?
  simp only [Except.map]
  grind

theorem fetchFault_eq_none {m : Machine} {s : Option Statement} (h : m.fetch = .ok s) :
    m.config.fetchFault? m.pc = none := by
  cases hcause : m.config.fetchFault? m.pc with
  | none => rfl
  | some cause =>
    rw [fetch_eq_error_iff.mpr ⟨cause, hcause, rfl⟩] at h
    cases h

end Machine

end MagicAssembly
