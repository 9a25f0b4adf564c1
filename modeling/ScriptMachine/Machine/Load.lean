import ScriptMachine.Machine.Step

/-!
# Loading machines

A module becomes a machine with an environment and settings; its main closure is what the host
calls.  The host may also call any function under protection, which turns the errors of scripts
into results.
-/

namespace ScriptMachine

/-- A loaded machine and its main closure. -/
structure Entry where
  /-- The machine. -/
  vm : VmId
  /-- The closure of its main prototype. -/
  main : FunctionId

/-- The message when there is nothing to load. -/
def emptyModuleMessage : Bytes := .ofString "load: module has no prototypes"

namespace World

/-- A new machine for a module. -/
def createVm (w : World) (module : Module) (environment : Option TableId) (settings : Settings) :
    Entry × World :=
  let vm : VmId := ⟨w.vms.size⟩
  let w := { w with vms := w.vms.push { module, environment, settings } }
  let (main, w) := w.createFunction (.closure { vm, prototype := module.main, upvalues := #[] })
  (⟨vm, main⟩, w)

/-- A new machine for a module, when it has a prototype to run. -/
def load? (w : World) (module : Option Module) (environment : Option TableId)
    (settings : Settings) : Option (Entry × World) :=
  match module with
  | some module =>
    if module.prototypes.isEmpty then none else some (w.createVm module environment settings)
  | none => none

/-- A new machine for the module that a byte string holds. -/
def loadBytes (w : World) (bytes : Bytes) (environment : Option TableId) (settings : Settings) :
    Except LoadError (Entry × World) :=
  (settings.toLoadOptions.load bytes w.heap).map fun (module, heap) =>
    { w with heap }.createVm module environment settings

/-- The world with a number given to a machine that could not be loaded. -/
def reserveVm (w : World) : World :=
  { w with vms := w.vms.push { Vm.empty with alive := false, held := false } }

/-! ## What the host sees -/

/-- A machine that the host holds. -/
def heldVm? (w : World) (id : VmId) : Option Vm := (w.vm? id).filter (·.held)

/-- The world with the coverage counters of a machine at zero. -/
def resetCoverage (w : World) (id : VmId) : World :=
  w.modifyVm id fun vm => { vm with module := vm.module.resetCoverage }

end World

/-! ## Protected calls -/

/-- The outcome of a call under protection. -/
inductive Protected where
  /-- It has ended with results. -/
  | results (values : List Value)
  /-- A script-level error has ended it. -/
  | error (payload : Value) (message : Bytes)

/-- The outcome of a call under protection; failures that are not script-level stay failures. -/
def Protected.ofOutcome : Except Failure (List Value) → Except Failure Protected
  | .ok values => .ok (.results values)
  | .error failure =>
    if failure.isScriptLevel then .ok (.error failure.payload (failure.message?.getD []))
    else .error failure

end ScriptMachine
