import MagicAssembly.Proofs.Fetch
import MagicAssembly.Proofs.StorageView

namespace MagicAssembly

/-- Loading leaves `word` at `address`: it is the word of the statement there, and the program can
be read from its first word up to this one. -/
structure Placed (config : Config) (program : Program) (address word : Word) : Prop where
  statement : ∃ i s, config.address? i = some address ∧ program.statements[i]? = some s ∧
    s.word = word
  start : checkRead config.textBase = .ok ()
  readable : checkRead address = .ok ()

/-- The statement has an address that may be read. -/
def Config.Reads (config : Config) (index : Nat) : Prop :=
  ∃ address, config.address? index = some address ∧ checkRead address = .ok ()

/-- What may be read is one stretch of memory. -/
theorem Config.Reads.between {config : Config} {i j k : Nat} (hi : config.Reads i)
    (hk : config.Reads k) (hij : i ≤ j) (hjk : j ≤ k) : config.Reads j := by
  obtain ⟨a, ha, hra⟩ := hi
  obtain ⟨b, hb, hrb⟩ := hk
  rw [address_eq_some_iff] at ha hb
  rw [checkRead_eq_ok_iff] at hra hrb
  obtain ⟨c, hc⟩ : ∃ c, config.address? j = some c := exists_address_iff.mpr (by omega)
  refine ⟨c, hc, ?_⟩
  rw [checkRead_eq_ok_iff, address_eq_some_iff.mp hc]
  omega

/-- From `index` on, the statements have that word at that address. -/
def Config.Holds (config : Config) (index : Nat) (ss : List Statement) (address word : Word) :
    Prop :=
  ∃ i s, config.address? (index + i) = some address ∧ ss[i]? = some s ∧ s.word = word

theorem Config.holds_cons {config : Config} {index : Nat} {s : Statement} {ss : List Statement}
    {a w : Word} :
    config.Holds index (s :: ss) a w ↔
      config.address? index = some a ∧ s.word = w ∨ config.Holds (index + 1) ss a w := by
  constructor
  · rintro ⟨i, s', ha, hs, hw⟩
    cases i with
    | zero =>
      cases hs
      exact .inl ⟨ha, hw⟩
    | succ i =>
      rw [← Nat.add_assoc, Nat.add_right_comm] at ha
      exact .inr ⟨i, s', ha, hs, hw⟩
  · rintro (⟨ha, hw⟩ | ⟨i, s', ha, hs, hw⟩)
    · exact ⟨0, s, ha, rfl, hw⟩
    · rw [Nat.add_right_comm] at ha
      exact ⟨i + 1, s', ha, hs, hw⟩

theorem Config.Reads.next {config : Config} {index : Nat} {ss : List Statement} {a w : Word}
    (h : config.Reads index) (readable : checkRead a = .ok ())
    (later : config.Holds (index + 1) ss a w) : config.Reads (index + 1) := by
  obtain ⟨i, s, ha, _⟩ := later
  exact h.between ⟨a, ha, readable⟩ (Nat.le_add_right index 1) (Nat.le_add_right _ i)

namespace Machine

variable {config : Config} {index : Nat} {ss : List Statement} {memory : Memory} {a w : Word}

theorem place_unreadable (h : ¬config.Reads index) : place config index ss memory = memory := by
  cases ss with
  | nil => rfl
  | cons s ss =>
    cases hb : config.address? index with
    | none => simp only [place, hb]
    | some b =>
      cases hread : checkRead b with
      | error e => simp only [place, hb, Memory.preload, hread, Except.map]
      | ok => exact absurd ⟨b, hb, hread⟩ h

theorem place_readable {s : Statement} {b : Word} (hb : config.address? index = some b)
    (hread : checkRead b = .ok ()) :
    place config index (s :: ss) memory =
      place config (index + 1) ss (memory.put b s.word) := by
  simp only [place, hb, Memory.preload, hread, Except.map]

/-- Statements lie at different addresses, so the next ones find theirs free. -/
theorem find_put_next {b word : Word} (hb : config.address? index = some b)
    (fresh : ∀ i c, config.address? (index + i) = some c → memory.find? c = none) (i : Nat)
    (c : Word) (hc : config.address? (index + 1 + i) = some c) :
    (memory.put b word).find? c = none := by
  rw [Nat.add_assoc] at hc
  have hne : c ≠ b := by
    rintro rfl
    have := Config.address_inj hb hc
    omega
  rw [Memory.find_put, if_neg hne, fresh _ c hc]

/-- Once the first statement is placed, all the others are that may be read. -/
theorem find_place (fresh : ∀ i b, config.address? (index + i) = some b → memory.find? b = none) :
    (place config index ss memory).find? a = some w ↔
      memory.find? a = some w ∨
        config.Reads index ∧ checkRead a = .ok () ∧ config.Holds index ss a w := by
  induction ss generalizing index memory with
  | nil => simp [place, Config.Holds]
  | cons s ss ih =>
    by_cases hreads : config.Reads index
    · obtain ⟨b, hb, hread⟩ := id hreads
      have hrest : config.Reads (index + 1) ∧ checkRead a = .ok () ∧
          config.Holds (index + 1) ss a w ↔
          checkRead a = .ok () ∧ config.Holds (index + 1) ss a w :=
        ⟨And.right, fun h => ⟨hreads.next h.1 h.2, h⟩⟩
      rw [place_readable hb hread, ih (find_put_next hb fresh), Memory.find_put, hrest,
        Config.holds_cons]
      by_cases hab : a = b
      · subst hab
        simp only [if_pos, fresh 0 a hb, hb, hread, hreads, Option.some.injEq, reduceCtorEq,
          true_and, false_or]
      · have hba : some b ≠ some a := fun h => hab (Option.some.inj h).symm
        simp only [if_neg hab, hb, hba, hreads, false_and, true_and, false_or]
    · rw [place_unreadable hreads]
      simp [hreads]

theorem find_boot {config : Config} {catalog : Catalog} {program : Program} {a w : Word} :
    (boot config catalog program).storage.memory.find? a = some w ↔
      Placed config program a w := by
  have hzero : config.address? 0 = some config.textBase :=
    Config.address_eq_some_iff.mpr (by omega)
  have hstart : config.Reads 0 ↔ checkRead config.textBase = .ok () := by
    simp [Config.Reads, hzero]
  change (place config 0 program.statements.toList .empty).find? a = some w ↔ _
  rw [find_place fun _ b _ => Memory.find_empty b, Memory.find_empty, hstart]
  simp only [Config.Holds, Nat.zero_add, Array.getElem?_toList]
  constructor
  · rintro (h | ⟨hstart, hread, i, s, ha, hs, hw⟩)
    · cases h
    · exact ⟨⟨i, s, ha, hs, hw⟩, hstart, hread⟩
  · rintro ⟨⟨i, s, ha, hs, hw⟩, hstart, hread⟩
    exact .inr ⟨hstart, hread, i, s, ha, hs, hw⟩

end Machine

end MagicAssembly
