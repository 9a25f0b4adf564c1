import ScriptMachine.Bytecode.Listing
import ScriptMachine.Library
import ScriptMachine.Machine.Load
import ScriptMachine.Settings.Document

/-!
# Executing modules

The whole way from the bytes of a module to the results of its main function, in a world of its
own whose only globals are the base library.  An execution is given a bound on the steps of its run
and has no outcome when it would need more.
-/

namespace ScriptMachine

/-! ## Errors -/

/-- Why there are no results. -/
inductive ExecutionError where
  /-- The settings are wrong. -/
  | settings (reason : SettingsError)
  /-- The bytes are no module. -/
  | load (reason : LoadError)
  /-- The run has failed. -/
  | run (failure : Failure)
  /-- There is no report on coverage. -/
  | coverage (reason : CoverageError)

/-- The message of a confusion of kinds, which has none of its own. -/
def confusionMessage : Bytes := .ofString "std::get: wrong index for variant"

namespace ExecutionError

/-- The message of an error. -/
def message : ExecutionError → Bytes
  | settings reason => reason.message
  | load reason => reason.message
  | run failure => failure.message?.getD confusionMessage
  | coverage reason => reason.message

/-- Whether it is the module that is to blame: its bytes, or an error of its script. -/
def blamesModule : ExecutionError → Bool
  | load _ => true
  | run failure => failure.isScriptLevel
  | _ => false

end ExecutionError

/-! ## Executions -/

/-- What an execution leaves behind. -/
structure Execution where
  /-- The world. -/
  world : World
  /-- The results, or why there are none. -/
  outcome : Except ExecutionError (List Value)
  /-- The module afterwards, if it could be loaded. -/
  module : Option Module

namespace Execution

/-- What has been written. -/
def output (e : Execution) : Bytes := e.world.output.toList.flatten

/-- What has been traced. -/
def traced (e : Execution) : Bytes := e.world.traceLines.toList.flatten

end Execution

/-- A world with the base library in a table of its own. -/
def World.standard : TableId × World :=
  let (t, heap) := ({} : Heap).create .empty
  (t, World.openLibrary { heap } t)

/-- Loads a module and calls its main function without arguments. -/
def execute (fuel : Nat) (settings : Settings) (bytes : Bytes) : Option Execution :=
  let (globals, w) := World.standard
  match w.loadBytes bytes (some globals) settings with
  | .error reason => some { world := w, outcome := .error (.load reason), module := none }
  | .ok (entry, w) =>
    (w.call fuel (.function entry.main) []).map fun (w, outcome) =>
      { world := w.close entry.vm
        outcome := outcome.mapError .run
        module := (w.vm? entry.vm).map (·.module) }

/-- The module of some bytes, its vectors being made in a world of their own. -/
def readModule (settings : Settings) (bytes : Bytes) : Except ExecutionError Module :=
  match settings.toLoadOptions.load bytes {} with
  | .ok (m, _) => .ok m
  | .error reason => .error (.load reason)

end ScriptMachine
