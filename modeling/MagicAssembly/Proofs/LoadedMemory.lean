import MagicAssembly.Proofs.Coherence
import MagicAssembly.Proofs.MemoryHistory
import MagicAssembly.Proofs.Placement
import MagicAssembly.Proofs.StandardTable

namespace MagicAssembly

theorem Config.reads_iff {config : Config} {i : Nat} :
    config.Reads i ↔ config.textBase.toNat % 4 = 0 ∧
      0x00400000 ≤ config.textBase.toNat + 4 * i ∧ config.textBase.toNat + 4 * i < 0x80000000 := by
  constructor
  · rintro ⟨a, ha, hread⟩
    rw [address_eq_some_iff] at ha
    rw [checkRead_eq_ok_iff] at hread
    omega
  · intro h
    obtain ⟨a, ha⟩ : ∃ a, config.address? i = some a := exists_address_iff.mpr (by omega)
    refine ⟨a, ha, ?_⟩
    rw [checkRead_eq_ok_iff, address_eq_some_iff.mp ha]
    omega

theorem Config.reads_zero_iff {config : Config} :
    config.Reads 0 ↔ checkRead config.textBase = .ok () := by
  rw [reads_iff, checkRead_eq_ok_iff, Nat.mul_zero, Nat.add_zero]

/-- The numbers of the statements whose address may be read. -/
def Config.readable (config : Config) (program : Program) : Set Nat :=
  {i | i < program.size ∧ config.Reads i}

namespace Machine

/-- Each word of the program that may be read is where its statement lies, and nothing else is in
memory. -/
structure Laid (m : Machine) : Prop where
  words : ∀ i s a, m.program.statements[i]? = some s → m.statementAddress? i = some a →
    checkRead a = .ok () → m.storage.memory.read a = .ok s.word
  others : ∀ a, checkRead a = .ok () → (∀ i < m.program.size, m.statementAddress? i ≠ some a) →
    m.storage.memory.read a = .ok 0
  size : m.storage.memory.size = (m.config.readable m.program).ncard

/-- The program starts in front of all memory that may be read and reaches into it. -/
def Straddles (m : Machine) : Prop :=
  m.config.textBase.toNat % 4 = 0 ∧ m.config.textBase.toNat < 0x00400000 ∧
    0x00400000 < m.config.textBase.toNat + 4 * m.program.size

theorem straddles_iff {m : Machine} :
    m.Straddles ↔ (m.config.readable m.program).Nonempty ∧ ¬m.config.Reads 0 := by
  simp only [Set.Nonempty, Config.readable, Set.mem_ofPred_eq, Config.reads_iff, Straddles]
  constructor
  · intro h
    exact ⟨⟨(0x00400000 - m.config.textBase.toNat) / 4, by omega⟩, by omega⟩
  · rintro ⟨⟨i, hi⟩, hstart⟩
    omega

section

variable {config : Config} {catalog : Catalog} {program : Program}

/-- Nothing is placed unless the first statement is. -/
theorem boot_bare (h : ¬config.Reads 0) :
    (boot config catalog program).storage.memory = .empty :=
  place_unreadable h

theorem boot_words (h : config.Reads 0) {i : Nat} {s : Statement} {a : Word}
    (hs : program.statements[i]? = some s) (ha : config.address? i = some a)
    (hread : checkRead a = .ok ()) :
    (boot config catalog program).storage.memory.find? a = some s.word :=
  find_boot.mpr ⟨⟨i, s, ha, hs, rfl⟩, Config.reads_zero_iff.mp h, hread⟩

theorem boot_others {a : Word} (h : ∀ i < program.size, config.address? i ≠ some a) :
    (boot config catalog program).storage.memory.find? a = none := by
  cases hfind : (boot config catalog program).storage.memory.find? a with
  | none => rfl
  | some w =>
    obtain ⟨i, s, ha, hs, _⟩ := (find_boot.mp hfind).statement
    obtain ⟨hi, _⟩ := Array.getElem?_eq_some_iff.mp hs
    exact absurd ha (h i hi)

/-- Statements lie at different addresses, so there are as many words as statements. -/
theorem boot_size (h : (config.readable program).Nonempty → config.Reads 0) :
    (boot config catalog program).storage.memory.size = (config.readable program).ncard := by
  rw [Memory.size_eq]
  symm
  refine Set.ncard_congr (fun i _ => (config.address? i).getD 0) ?_ ?_ ?_
  · rintro i ⟨hi, a, ha, hread⟩
    rw [ha]
    have hs := Array.getElem?_eq_getElem hi
    exact ⟨_, boot_words (h ⟨i, hi, a, ha, hread⟩) hs ha hread⟩
  · rintro i j ⟨_, a, ha, _⟩ ⟨_, b, hb, _⟩ heq
    rw [ha, hb] at heq
    obtain rfl : a = b := heq
    exact Config.address_inj ha hb
  · rintro a ⟨w, hw⟩
    obtain ⟨⟨i, s, ha, hs, _⟩, _, hread⟩ := find_boot.mp hw
    obtain ⟨hi, _⟩ := Array.getElem?_eq_some_iff.mp hs
    exact ⟨i, ⟨hi, a, ha, hread⟩, by rw [ha]; rfl⟩

theorem boot_laid (h : (config.readable program).Nonempty → config.Reads 0) :
    (boot config catalog program).Laid := by
  refine ⟨?_, ?_, boot_size h⟩
  · intro i s a hs ha hread
    obtain ⟨hi, _⟩ := Array.getElem?_eq_some_iff.mp hs
    have hfind : (boot config catalog program).storage.memory.find? a = some s.word :=
      boot_words (h ⟨i, hi, a, ha, hread⟩) hs ha hread
    rw [Memory.read_of_checkRead hread, hfind]
    rfl
  · intro a hread hother
    have hfind : (boot config catalog program).storage.memory.find? a = none := boot_others hother
    rw [Memory.read_of_checkRead hread, hfind]
    rfl

end

/-- An empty memory holds all of a program only if nothing of it may be read. -/
theorem Laid.unreadable {m : Machine} (h : m.Laid) (bare : m.storage.memory = .empty) :
    ¬(m.config.readable m.program).Nonempty := by
  have hfinite : (m.config.readable m.program).Finite :=
    (Set.finite_lt_nat m.program.size).subset fun _ hi => hi.1
  have hsize := h.size
  rw [bare] at hsize
  rw [Set.not_nonempty_iff_eq_empty, ← Set.ncard_eq_zero hfinite, ← hsize]
  exact Memory.size_empty

/-- Nothing but a load changes the program. -/
theorem call_program (m : Machine) {c : Call} (h : ∀ p, c ≠ .load p) :
    (m.call c).program = m.program := by
  cases c with
  | load p => exact absurd rfl (h p)
  | step => exact m.step_program
  | run =>
    exact run_invariant (fun n => n.program = m.program) (fun n hn => n.step_program.trans hn) rfl
  | reset | setRegister | memory => rfl

/-- A reset lays the program out as loading it did, whatever happened in between. -/
theorem reset_eq_load (m : Machine) (program : Program) {cs : List Call}
    (h : ∀ c ∈ cs, ∀ p, c ≠ .load p) : ((m.load program).calls cs).reset = m.load program := by
  have hprogram : ((m.load program).calls cs).program = program :=
    calls_keep (P := fun n => n.program = program)
      (fun n c hc hn => (n.call_program (h c hc)).trans hn) rfl
  rw [reset, hprogram, load, calls_config, calls_catalog]
  rfl

/-- A program is laid out in memory from its first statement on. If that may not be read, nothing is
placed, also where later statements reach addresses that may be. -/
theorem laid_iff (m : Machine) (program : Program) :
    let n := m.load program
    (n.Laid ↔ ¬n.Straddles) ∧
    (n.Straddles → n.storage.memory.size = 0 ∧
      ∀ a, checkRead a = .ok () → n.storage.memory.read a = .ok 0) ∧
    ∀ cs : List Call, (∀ c ∈ cs, ∀ p, c ≠ .load p) → (n.calls cs).reset = n := by
  intro n
  have hbare (h : n.Straddles) : n.storage.memory = .empty := boot_bare (straddles_iff.mp h).2
  refine ⟨⟨?_, ?_⟩, ?_, fun _ => m.reset_eq_load program⟩
  · intro hlaid hstraddles
    exact hlaid.unreadable (hbare hstraddles) (straddles_iff.mp hstraddles).1
  · intro hstraddles
    rw [straddles_iff, not_and, not_not] at hstraddles
    exact boot_laid hstraddles
  · intro hstraddles
    rw [hbare hstraddles]
    exact ⟨Memory.size_empty, fun _ => Memory.read_empty⟩

/-- Two statements, the first of them in front of the text. -/
def astride : Program :=
  (Program.empty.push 0x00080015 "chrg $t0").push 0x00080015 "chrg $t0"

/-- So not every word of a program that may be read is placed: the second one is not, neither when
the program is loaded nor when the machine is reset. -/
theorem astride_not_laid :
    ∃ c, Catalog.standard = .ok c ∧
      let n := (create { textBase := 0x003FFFFC } c).load astride
      n.statementAddress? 1 = some 0x00400000 ∧ checkRead 0x00400000 = .ok () ∧
      (astride.statements[1]?).map Statement.word = some 0x00080015 ∧
      n.storage.memory.read 0x00400000 = .ok 0 ∧ n.storage.memory.size = 0 ∧ ¬n.Laid ∧
      n.reset = n := by
  obtain ⟨c, hc⟩ := Catalog.standard_ok
  refine ⟨c, hc, ?_⟩
  intro n
  have haddress : n.statementAddress? 1 = some 0x00400000 := Config.address_eq_some_iff.mpr rfl
  have hbase : n.config.textBase.toNat = 0x003FFFFC := rfl
  have hsize : n.program.size = 2 := rfl
  have hstraddles : n.Straddles := by
    rw [Straddles, hbase, hsize]
    decide
  have hbare : n.storage.memory = .empty := boot_bare (straddles_iff.mp hstraddles).2
  have hreadable : checkRead 0x00400000 = .ok () := rfl
  have hread : n.storage.memory.read 0x00400000 = .ok 0 := by
    rw [hbare]
    exact Memory.read_empty hreadable
  refine ⟨haddress, hreadable, rfl, hread, ?_, ?_, rfl⟩
  · rw [hbare]
    exact Memory.size_empty
  · intro hlaid
    cases hread.symm.trans (hlaid.words 1 _ _ rfl haddress hreadable)

end Machine

end MagicAssembly
