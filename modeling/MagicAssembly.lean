import MagicAssembly.Catalog.Standard
import MagicAssembly.Machine.Run
import MagicAssembly.Proofs.Listing
import MagicAssembly.Proofs.Meaning
import MagicAssembly.Proofs.Words
import MagicAssembly.Proofs.OperandText
import MagicAssembly.Proofs.DisassemblyInjective
import MagicAssembly.Proofs.Atomicity
import MagicAssembly.Proofs.RunPath
import MagicAssembly.Proofs.Session
import MagicAssembly.Proofs.SplitState
import MagicAssembly.Proofs.Coherence
import MagicAssembly.Proofs.Trace
import MagicAssembly.Proofs.Layout
import MagicAssembly.Proofs.ProgramEnd
import MagicAssembly.Proofs.Placement
import MagicAssembly.Proofs.MemoryAccess
import MagicAssembly.Proofs.LatestStore
import MagicAssembly.Proofs.ProgramText
import MagicAssembly.Proofs.Budget
import MagicAssembly.Proofs.RunBound
import MagicAssembly.Proofs.StraightLine
import MagicAssembly.Proofs.Relocation
import MagicAssembly.Proofs.Noninterference
import MagicAssembly.Proofs.FreshStart
import MagicAssembly.Proofs.Halting
import MagicAssembly.Proofs.TemplateBijection
import MagicAssembly.Proofs.FieldReach
import MagicAssembly.Proofs.TemplateText
import MagicAssembly.Proofs.TemplatePartition
import MagicAssembly.Proofs.RegistrationOrder
import MagicAssembly.Proofs.TemplateCells
import MagicAssembly.Proofs.MemoryHistory
import MagicAssembly.Proofs.LoadedMemory
import MagicAssembly.Proofs.OperandReads
import MagicAssembly.Proofs.Alignment
import MagicAssembly.Proofs.RegisterSwaps
import MagicAssembly.Proofs.LabelHistory
import MagicAssembly.Proofs.RegisterNames
import MagicAssembly.Proofs.Tokens
import MagicAssembly.Proofs.StorageInvariant
