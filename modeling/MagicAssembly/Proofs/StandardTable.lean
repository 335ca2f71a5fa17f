import MagicAssembly.Catalog.Standard
import MagicAssembly.Proofs.CatalogCodec

namespace MagicAssembly

namespace Opcode

/-- Where the operands of an instruction lie, in the order of its assembly line. -/
def fields : Opcode → List Field
  | .fuse | .dispel | .alchemize | .dissipate | .bind | .sever | .veil =>
    [⟨.register, 21, 5⟩, ⟨.register, 16, 5⟩, ⟨.register, 11, 5⟩]
  | .conjure | .implant | .channel | .amplify =>
    [⟨.register, 21, 5⟩, ⟨.register, 16, 5⟩, ⟨.immediate, 0, 16⟩]
  | .ward | .curse => [⟨.register, 21, 5⟩, ⟨.register, 16, 5⟩, ⟨.branchOffset, 0, 16⟩]
  | .teleport => [⟨.jumpAddress, 0, 26⟩]
  | .transmute | .clone | .barrier => [⟨.register, 21, 5⟩, ⟨.register, 16, 5⟩]
  | .swap => [⟨.register, 16, 5⟩, ⟨.register, 11, 5⟩]
  | .cancel => [⟨.register, 21, 5⟩]
  | .charge => [⟨.register, 16, 5⟩]

/-- The word of an instruction whose operand bits are all 0. -/
def bits : Opcode → Word
  | .fuse => 0x00000001
  | .dispel => 0x00000002
  | .alchemize => 0x00000003
  | .dissipate => 0x00000004
  | .bind => 0x00000005
  | .sever => 0x00000006
  | .veil => 0x00000007
  | .conjure => 0x80000000
  | .implant => 0x84000000
  | .channel => 0x60000000
  | .amplify => 0xA0000000
  | .cancel => 0x00000012
  | .ward => 0x10000000
  | .curse => 0x14000000
  | .teleport => 0x08000000
  | .transmute => 0x00000010
  | .swap => 0x00000011
  | .clone => 0x00000013
  | .barrier => 0x00000014
  | .charge => 0x00000015

/-- Every bit outside the fields is fixed. -/
def template (op : Opcode) : Template :=
  ⟨~~~Template.fieldsMask op.fields, op.bits, op.fields⟩

end Opcode

namespace Catalog

theorem standard_table :
    (standard.toOption.map fun c => c.definitions.map fun d => (d.opcode, d.template)) =
      some (standardEntries.map fun e => (e.opcode, e.opcode.template)) := by
  decide +kernel

/-- Every standard entry can be built and registered. -/
theorem standard_ok : ∃ c, standard = .ok c := by
  have htable := standard_table
  cases h : standard with
  | ok c => exact ⟨c, rfl⟩
  | error e =>
    rw [h] at htable
    cases htable

theorem mem_standardEntries (op : Opcode) : op ∈ standardEntries.map Entry.opcode := by
  cases op <;> decide

section

variable {c : Catalog} (hc : standard = .ok c)

include hc

theorem standard_definitions :
    c.definitions.map (fun d => (d.opcode, d.template)) =
      standardEntries.map fun e => (e.opcode, e.opcode.template) := by
  have h := standard_table
  rw [hc] at h
  exact Option.some.inj h

theorem standard_template {d : Definition} (hd : d ∈ c.definitions) :
    d.template = d.opcode.template := by
  have hmem := List.mem_map_of_mem (f := fun d => (d.opcode, d.template)) hd
  rw [standard_definitions hc] at hmem
  obtain ⟨e, _, he⟩ := List.mem_map.mp hmem
  obtain ⟨hop, ht⟩ := Prod.mk.inj he
  rw [← ht, hop]

theorem standard_definition (op : Opcode) : ∃ d ∈ c.definitions, d.opcode = op := by
  obtain ⟨e, he, rfl⟩ := List.mem_map.mp (mem_standardEntries op)
  have hmem := List.mem_map_of_mem (f := fun e => (e.opcode, e.opcode.template)) he
  rw [← standard_definitions hc] at hmem
  obtain ⟨d, hd, heq⟩ := List.mem_map.mp hmem
  exact ⟨d, hd, congrArg Prod.fst heq⟩

/-- A word is read as the one instruction whose fixed bits it has. -/
theorem standard_decode {w pc : Word} {d : Decoded} (h : c.decode w pc = some d) :
    d.definition.opcode.template.Matches w ∧
      d.operands.values = d.definition.opcode.template.values w pc := by
  have hv := (reachable_of_ofEntries hc).valid
  obtain ⟨hd, hw, hops⟩ := hv.decode_eq_some_iff.mp h
  rw [← standard_template hc hd, hops]
  exact ⟨hw, hv.extract_values hd w pc⟩

theorem standard_decodes {op : Opcode} {w : Word} (hw : op.template.Matches w) (pc : Word) :
    ∃ d, c.decode w pc = some d ∧ d.definition.opcode = op := by
  have hv := (reachable_of_ofEntries hc).valid
  obtain ⟨d, hd, rfl⟩ := standard_definition hc op
  rw [← standard_template hc hd] at hw
  exact ⟨_, hv.decode_eq_some_iff.mpr ⟨hd, hw, rfl⟩, rfl⟩

end

end Catalog

end MagicAssembly
