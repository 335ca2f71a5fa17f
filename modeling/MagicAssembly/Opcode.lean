namespace MagicAssembly

inductive Opcode
  | fuse
  | dispel
  | alchemize
  | dissipate
  | bind
  | sever
  | veil
  | conjure
  | implant
  | channel
  | amplify
  | cancel
  | ward
  | curse
  | teleport
  | transmute
  | swap
  | clone
  | barrier
  | charge
  deriving DecidableEq

/-- The word that opens a line of source. -/
def Opcode.mnemonic : Opcode → String
  | .fuse => "fuse"
  | .dispel => "dspl"
  | .alchemize => "alchm"
  | .dissipate => "dspt"
  | .bind => "bind"
  | .sever => "svr"
  | .veil => "veil"
  | .conjure => "cnjr"
  | .implant => "implant"
  | .channel => "chnl"
  | .amplify => "amp"
  | .cancel => "cncl"
  | .ward => "ward"
  | .curse => "curse"
  | .teleport => "tp"
  | .transmute => "trns"
  | .swap => "swap"
  | .clone => "clone"
  | .barrier => "brir"
  | .charge => "chrg"

end MagicAssembly
