import MagicAssembly.Proofs.MemoryAccess
import MagicAssembly.Proofs.Placement
import MagicAssembly.Proofs.Session
import MagicAssembly.Proofs.StandardTable

namespace MagicAssembly

/-- Calls that store only where a program may write: all but those that load a program, place words
past the write policy or clear the memory. -/
def Call.Guarded : Call → Prop
  | .step | .run | .setRegister .. | .memory (.read _) | .memory (.write ..) => True
  | .load _ | .reset | .memory (.preload ..) | .memory .clear => False

theorem Memory.find_write {m m' : Memory} {address value a : Word}
    (h : m.write address value = .ok m') (ha : checkWrite a ≠ .ok ()) : m'.find? a = m.find? a := by
  unfold write at h
  cases hwrite : checkWrite address with
  | error e => simp [hwrite, Except.map] at h
  | ok =>
    rw [hwrite] at h
    cases h
    have hne : a ≠ address := by
      rintro rfl
      exact ha hwrite
    rw [find_put, if_neg hne]

namespace Machine

/-- A word that a program may not write outlasts every guarded call. -/
theorem call_find {m : Machine} {c : Call} (hc : c.Guarded) {a : Word}
    (ha : checkWrite a ≠ .ok ()) :
    (m.call c).storage.memory.find? a = m.storage.memory.find? a := by
  have hstep (m : Machine) : m.step.machine.storage.memory.find? a = m.storage.memory.find? a :=
    step_find a fun _ hstore => ha hstore.stores.1
  cases c with
  | step => exact hstep m
  | run =>
    exact run_invariant (fun n => n.storage.memory.find? a = m.storage.memory.find? a)
      (fun n hn => (hstep n).trans hn) rfl
  | setRegister => rfl
  | load | reset => cases hc
  | memory c =>
    cases c with
    | read => rfl
    | write address value =>
      change (((m.storage.memory.write address value).toOption).getD m.storage.memory).find? a = _
      cases hwrite : m.storage.memory.write address value with
      | error => rfl
      | ok memory => exact Memory.find_write hwrite ha
    | preload | clear => cases hc

theorem calls_find {m : Machine} {cs : List Call} (h : ∀ c ∈ cs, c.Guarded) {a : Word}
    (ha : checkWrite a ≠ .ok ()) :
    (m.calls cs).storage.memory.find? a = m.storage.memory.find? a :=
  calls_keep (P := fun n => n.storage.memory.find? a = m.storage.memory.find? a)
    (fun _ c hc hn => (call_find (h c hc) ha).trans hn) rfl

theorem text_unwritable {a : Word} (h : Region.text.Contains a) : checkWrite a ≠ .ok () := by
  intro hwrite
  obtain ⟨_, hdata⟩ := checkWrite_eq_ok_iff_region.mp hwrite
  exact absurd (BitVec.le_trans hdata.1 h.2) (by decide)

theorem text_readable {a : Word} (aligned : Aligned a) (h : Region.text.Contains a) :
    checkRead a = .ok () :=
  checkRead_eq_ok_iff_region.mpr ⟨aligned, .inl h⟩

/-- From a text base in the text, statements lie at aligned addresses and behind it. -/
theorem placed_in_text {config : Config} (aligned : Aligned config.textBase)
    (base : Region.text.first ≤ config.textBase) {program : Program} {i : Nat} {s : Statement}
    {a : Word} (hs : program.statements[i]? = some s) (ha : config.address? i = some a)
    (hlast : a ≤ Region.text.last) : Region.text.Contains a ∧ Placed config program a s.word := by
  have haddress := Config.address_eq_some_iff.mp ha
  have hafter : config.textBase ≤ a := BitVec.le_def.mpr (by omega)
  have htext : Region.text.Contains a := ⟨BitVec.le_trans base hafter, hlast⟩
  have haligned : Aligned a := by
    have hbase : config.textBase.toNat % 4 = 0 := aligned
    change a.toNat % 4 = 0
    omega
  exact ⟨htext, ⟨i, s, ha, hs, rfl⟩, text_readable aligned ⟨base, BitVec.le_trans hafter hlast⟩,
    text_readable haligned htext⟩

/-- Whatever a program does and a host writes, the words of the program stay where they were placed
in the text, and the rest of the text stays empty. -/
theorem text_kept {config : Config} (aligned : Aligned config.textBase)
    (base : Region.text.first ≤ config.textBase) (catalog : Catalog) (program : Program)
    {cs : List Call} (guarded : ∀ c ∈ cs, c.Guarded) :
    let start := (create config catalog).load program
    let m := start.calls cs
    (∀ i s a, program.statements[i]? = some s → start.statementAddress? i = some a →
      a ≤ Region.text.last → m.storage.memory.read a = .ok s.word) ∧
    (∀ a, Aligned a → Region.text.Contains a →
      (∀ i < program.size, start.statementAddress? i ≠ some a) →
        m.storage.memory.read a = .ok 0) := by
  intro start m
  have hkept (a : Word) (ha : Region.text.Contains a) :
      m.storage.memory.find? a = start.storage.memory.find? a :=
    calls_find guarded (text_unwritable ha)
  refine ⟨?_, ?_⟩
  · intro i s a hs ha hlast
    obtain ⟨htext, hplaced⟩ := placed_in_text aligned base hs ha hlast
    have hfind : m.storage.memory.find? a = some s.word :=
      (hkept a htext).trans (find_boot.mpr hplaced)
    rw [Memory.read_eq_ok_iff, Memory.get, hfind]
    exact ⟨hplaced.readable, rfl⟩
  · intro a haligned htext hother
    have hnone : start.storage.memory.find? a = none := by
      cases hfind : start.storage.memory.find? a with
      | none => rfl
      | some word =>
        obtain ⟨i, s, ha, hs, _⟩ := (find_boot.mp hfind).statement
        obtain ⟨hi, _⟩ := Array.getElem?_eq_some_iff.mp hs
        exact absurd ha (hother i hi)
    rw [Memory.read_eq_ok_iff, Memory.get, hkept a htext, hnone]
    exact ⟨text_readable haligned htext, rfl⟩

/-- One statement, which would overwrite itself if it could. -/
def selfStore : Program :=
  Program.empty.push 0x87BC0000 "implant $sp, 0($gp)"

/-- The host points the base register of the store at the text and writes there itself. -/
def selfStoreCalls : List Call :=
  [.setRegister 28 0x00400000, .step, .memory (.write 0x00400000 7), .run]

theorem selfStore_kept :
    ∃ c, Catalog.standard = .ok c ∧ (∀ call ∈ selfStoreCalls, call.Guarded) ∧
      let start := (create {} c).load selfStore
      let m := start.calls selfStoreCalls
      m.storage.memory.read 0x00400000 = .ok 0x87BC0000 ∧
        m.storage.memory.read 0x00400004 = .ok 0 := by
  obtain ⟨c, hc⟩ := Catalog.standard_ok
  have guarded : ∀ call ∈ selfStoreCalls, call.Guarded := by simp [selfStoreCalls, Call.Guarded]
  have aligned : Aligned ({} : Config).textBase := by decide
  have base : Region.text.first ≤ ({} : Config).textBase := by decide
  have hkept := text_kept aligned base c selfStore guarded
  refine ⟨c, hc, guarded, hkept.1 0 _ 0x00400000 rfl rfl (by decide), ?_⟩
  apply hkept.2 0x00400004 (by decide) (by decide)
  intro i hi ha
  have hzero : i = 0 := by simpa [selfStore, Program.size, Program.push, Program.empty] using hi
  subst hzero
  cases ha

end Machine

end MagicAssembly
