import MagicAssembly.Machine.Run

namespace MagicAssembly

/-- What a host may ask of a memory. -/
inductive MemoryCall
  | read (address : Word)
  | write (address value : Word)
  | preload (address value : Word)
  | clear

/-- A call that is refused changes nothing. -/
def Memory.call (m : Memory) : MemoryCall → Memory
  | .read _ => m
  | .write address value => (m.write address value).toOption.getD m
  | .preload address value => (m.preload address value).toOption.getD m
  | .clear => .empty

/-- What a host may ask of a machine. Traced steps and runs are steps and runs: what they report
changes nothing. -/
inductive Call
  | load (program : Program)
  | reset
  | step
  | run
  | setRegister (index : Nat) (value : Word)
  | memory (call : MemoryCall)

namespace Machine

def call (m : Machine) : Call → Machine
  | .load program => m.load program
  | .reset => m.reset
  | .step => m.step.machine
  | .run => m.run.machine
  | .setRegister index value => m.setRegister index value
  | .memory c => m.setMemory (m.storage.memory.call c)

/-- How many instructions retire in the course of a call. -/
def retiredBy (m : Machine) : Call → Nat
  | .step =>
    match m.step.outcome with
    | .retired _ => 1
    | _ => 0
  | .run => m.run.retired
  | _ => 0

/-- The machine after all the calls, in order. -/
def calls (m : Machine) (cs : List Call) : Machine :=
  cs.foldl call m

/-- What each of the calls keeps, all of them keep. -/
theorem calls_keep {P : Machine → Prop} {cs : List Call}
    (keeps : ∀ m, ∀ c ∈ cs, P m → P (m.call c)) {m : Machine} (h : P m) : P (m.calls cs) := by
  induction cs generalizing m with
  | nil => exact h
  | cons c cs ih =>
    exact ih (fun m d hd => keeps m d (List.mem_cons_of_mem _ hd)) (keeps m c List.mem_cons_self h)

end Machine

/-- A machine in the hands of a host. -/
structure Session where
  machine : Machine
  /-- Instructions retired since the machine was last loaded or reset. -/
  retired : Nat

namespace Session

def start (config : Config) (catalog : Catalog) : Session :=
  ⟨.create config catalog, 0⟩

def call (s : Session) (c : Call) : Session where
  machine := s.machine.call c
  retired :=
    match c with
    | .load _ | .reset => 0
    | _ => s.retired + s.machine.retiredBy c

/-- A new machine after all the calls, in order. -/
def after (config : Config) (catalog : Catalog) (calls : List Call) : Session :=
  calls.foldl call (start config catalog)

end Session

end MagicAssembly
