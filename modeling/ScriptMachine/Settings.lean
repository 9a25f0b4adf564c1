import ScriptMachine.Bytecode.Link
import ScriptMachine.Host.Program

/-!
# Settings

A machine is loaded with settings: limits, switches, tables that it consults, and the hooks by
which its host watches and steers it.
-/

namespace ScriptMachine

/-- The hooks of a machine. -/
structure Hooks where
  /-- Called before every instruction. -/
  step : Option (HookContext → HookProgram Unit) := none
  /-- Called at a breakpoint; values make the frame return them at once. -/
  breakpoint : Option (HookContext → HookProgram (Option (List Value))) := none
  /-- Called before calls, returns, backward jumps and loop continuations. -/
  interrupt : Option (HookContext → HookProgram Unit) := none
  /-- Called when an error leaves a frame for the first time, with its message and the value that
  the host will get. -/
  panic : Option (Bytes → Value → HookContext → HookProgram Unit) := none

/-- The settings of a machine. -/
structure Settings extends LoadOptions where
  /-- The greatest size of a register file that grows. -/
  maxRegisters : Nat := 16384
  /-- The greatest count of calls in progress. -/
  maxCallDepth : Nat := 200
  /-- Whether loops run over tables without an iterator function. -/
  generalizedIteration : Bool := true
  /-- Whether errors are located, reported to the panic hook and raised again. -/
  errorHandling : Bool := true
  /-- Whether an error value that is no string is kept as it is. -/
  allowProxyErrors : Bool := false
  /-- Whether method calls are offered to the host. -/
  useNativeNamecall : Bool := false
  /-- Takes a method call over by giving its results, or declines it. -/
  namecallHandler : Option (Bytes → List Value → HookProgram (Option (List Value))) := none
  /-- Whether the hooks of a method call run before it is offered, and not once it is taken. -/
  namecallReinvokesHooks : Bool := true
  /-- Consulted for globals before the environment. -/
  extensions : Option TableId := none
  /-- Consulted for the fields of strings. -/
  stringMethods : Option TableId := none
  /-- The hooks. -/
  hooks : Hooks := {}
  /-- Whether instructions are traced. -/
  trace : Bool := false
  /-- The greatest count of traced instructions; zero for no limit. -/
  traceLimit : Nat := 0

instance : Inhabited Settings := ⟨{}⟩

end ScriptMachine
