import ScriptMachine.Proofs.Flow.Interrupts
import ScriptMachine.Proofs.Machine.Sparing

/-!
# What a run does to the module

A run counts the hits of coverage instructions, and apart from breakpoints, which only the host sets
and clears, it does nothing else to the module.  A hit is counted when the operation at the slot
comes to execute; a hook that ends the frame before that keeps it from being counted.
-/

namespace ScriptMachine

variable {id : VmId} {index slot : Nat}

/-! ## Hits of a module -/

/-- A slot with its instruction changed. -/
def Slot.map (f : Instruction → Instruction) : Slot → Slot
  | .instruction i => .instruction (f i)
  | .aux word => .aux word

namespace Module

/-- How often the instruction at a slot has run, for coverage. -/
def hits? (m : Module) (index slot : Nat) : Option UInt32 :=
  (m.prototype index).code[slot]?.map fun s => s.asInstruction.hits

end Module

/-- The operations of a version are those of the module. -/
theorem Prototype.VersionOf.underlyingAt? {p q : Prototype} (h : p.VersionOf q) (slot : Nat) :
    p.underlyingAt? slot = q.underlyingAt? slot := by
  unfold Prototype.underlyingAt?
  rcases rel_cases (h slot) with ⟨hp, hq⟩ | ⟨s, t, hp, hq, hst⟩
  · rw [hp, hq]
  · rw [hp, hq]
    cases hst with
    | instruction hij => exact congrArg some hij.underlying
    | aux word => rfl

/-! ## Hits of a world -/

namespace World

variable {w w' : World}

end World

namespace Machine

variable {m : Machine} {n : Module}

/-! ## Steps -/

/-- The next step dispatches the instruction at a slot of a machine. -/
def dispatches (m : Machine) (id : VmId) (index slot : Nat) : Bool :=
  m.dispatching?.any fun (f, _) => f.vm = id && f.prototype = index && f.pc = slot

/-- The instruction at a slot of a machine is dispatched, and no hook cuts that short: the step hook
and that of breakpoints raise no error, and no breakpoint ends the frame early. -/
def executes (m : Machine) (id : VmId) (index slot : Nat) : Bool :=
  m.dispatches id index slot && m.executing?.isSome

end Machine

end ScriptMachine
