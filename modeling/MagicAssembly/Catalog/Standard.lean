import MagicAssembly.Catalog.Basic

namespace MagicAssembly.Catalog

/-- The instructions of the language, in registration order. -/
def standardEntries : List Entry :=
  [{ opcode := .fuse, usage := "fuse $t0,$t1,$t2", kind := .register
     description := "Fuse: rd = rs + rt"
     template := "000000 ddddd sssss ttttt 00000 000001" },
   { opcode := .dispel, usage := "dspl $t0,$t1,$t2", kind := .register
     description := "Dispel: rd = rs - rt"
     template := "000000 ddddd sssss ttttt 00000 000010" },
   { opcode := .alchemize, usage := "alchm $t0,$t1,$t2", kind := .register
     description := "Alchemize: rd = rs * rt"
     template := "000000 ddddd sssss ttttt 00000 000011" },
   { opcode := .dissipate, usage := "dspt $t0,$t1,$t2", kind := .register
     description := "Dissipate: rd = rs / rt"
     template := "000000 ddddd sssss ttttt 00000 000100" },
   { opcode := .bind, usage := "bind $t0,$t1,$t2", kind := .register
     description := "Bind: rd = rs & rt"
     template := "000000 ddddd sssss ttttt 00000 000101" },
   { opcode := .sever, usage := "svr $t0,$t1,$t2", kind := .register
     description := "Sever: rd = rs | rt"
     template := "000000 ddddd sssss ttttt 00000 000110" },
   { opcode := .veil, usage := "veil $t0,$t1,$t2", kind := .register
     description := "Veil: rd = rs ^ rt"
     template := "000000 ddddd sssss ttttt 00000 000111" },
   { opcode := .conjure, usage := "cnjr $t0,4($t1)", kind := .immediate
     description := "Conjure: R[rt] = Memory[R[rs] + imm]"
     template := "100000 rrrrr sssss immediate" },
   { opcode := .implant, usage := "implant $t0,4($t1)", kind := .immediate
     description := "Implant: Memory[R[rs] + imm] = R[rt]"
     template := "100001 rrrrr sssss immediate" },
   { opcode := .channel, usage := "chnl $t0,$t1,100", kind := .immediate
     description := "Channel: R[rd] = R[rs] + immediate"
     template := "011000 rrrrr sssss immediate" },
   { opcode := .amplify, usage := "amp $t0,$t1,100", kind := .immediate
     description := "Amplify: R[rd] = R[rs] * immediate"
     template := "101000 rrrrr sssss immediate" },
   { opcode := .cancel, usage := "cncl $t0", kind := .register
     description := "Cancel: rd = 0"
     template := "000000 ddddd 00000 00000 00000 010010" },
   { opcode := .ward, usage := "ward $t0,$t1,label", kind := .branch
     description := "Ward: branch if R[rs] == R[rt] to label"
     template := "000100 sssss ttttt branchoffset" },
   { opcode := .curse, usage := "curse $t0,$t1,label", kind := .branch
     description := "Curse: branch if R[rs] != R[rt] to label"
     template := "000101 sssss ttttt branchoffset" },
   { opcode := .teleport, usage := "tp label", kind := .jump
     description := "Teleport: unconditional jump to label"
     template := "000010 address26" },
   { opcode := .transmute, usage := "trns $t0,$t1", kind := .register
     description := "Transmute: R[rd] = R[rs] (copy)"
     template := "000000 ddddd sssss 00000 00000 010000" },
   { opcode := .swap, usage := "swap $t0,$t1", kind := .register
     description := "Swap: exchange contents of rs and rt"
     template := "000000 00000 sssss ttttt 00000 010001" },
   { opcode := .clone, usage := "clone $t0,$t1", kind := .register
     description := "Clone: R[rd] = R[rs] + R[rs]"
     template := "000000 ddddd sssss 00000 00000 010011" },
   { opcode := .barrier, usage := "brir $t0,$t1", kind := .register
     description := "Barrier: R[rd] = max(R[rs],0) (clamp negative to zero)"
     template := "000000 ddddd sssss 00000 00000 010100" },
   { opcode := .charge, usage := "chrg $t0", kind := .register
     description := "Charge: increment R[rs] by 1"
     template := "000000 00000 sssss 00000 00000 010101" }]

def standard : Except CatalogError Catalog :=
  ofEntries standardEntries

end MagicAssembly.Catalog
