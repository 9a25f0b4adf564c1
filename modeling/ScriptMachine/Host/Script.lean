import ScriptMachine.Settings

/-!
# Scripted hosts

A host that is described by data: hooks that count their calls and, at given counts, list what they
see, close the machine, raise a fault or end the frame, and a handler of method calls in one of
four modes.  Such hosts drive a machine from a script of requests.
-/

namespace ScriptMachine

/-- The name of a place at which a machine calls its host. -/
def HookKind.name : HookKind → String
  | .step => "step"
  | .breakpoint => "break"
  | .interrupt => "interrupt"
  | .panic => "panic"

/-! ## Hooks -/

/-- What a scripted hook does. -/
structure HookScript where
  /-- Whether its calls are listed. -/
  log : Bool := false
  /-- Whether they are listed with the registers. -/
  showsRegisters : Bool := false
  /-- The call at which it closes the machine. -/
  closeAt : Option Int := none
  /-- The call at which it raises a fault. -/
  faultAt : Option Int := none
  /-- How many breakpoints it lets pass before it ends the frame. -/
  skip : Int := 0
  /-- The values with which it ends the frame at a breakpoint. -/
  result : Option (List Value) := none

namespace HookScript

/-- The program of a scripted hook; its result is the count of its calls. -/
def program (script : HookScript) (vm : VmId) (kind : HookKind) (context : HookContext)
    (error : Option (Bytes × Value)) : HookProgram Nat :=
  .count vm kind fun n =>
    let raising : HookProgram Nat :=
      if script.faultAt = some (n : Int) then
        .fault (.host (.ofString kind.name ++ .ofString " hook fault"))
      else .done n
    let closing := if script.closeAt = some (n : Int) then .close vm raising else raising
    if script.log || error.isSome then
      .record (.hook { vm, kind, context, error, listed := script.log
                       showsRegisters := script.showsRegisters }) closing
    else closing

/-- The program of a scripted hook that gives nothing. -/
def watch (script : HookScript) (vm : VmId) (kind : HookKind) (context : HookContext) :
    HookProgram Unit :=
  (script.program vm kind context none).bind fun _ => .done ()

/-- The program of a scripted breakpoint hook. -/
def breakpoint (script : HookScript) (vm : VmId) (context : HookContext) :
    HookProgram (Option (List Value)) :=
  (script.program vm .breakpoint context none).bind fun n =>
    .done (if script.skip < n then script.result else none)

/-- The program of a scripted panic hook. -/
def panic (script : HookScript) (vm : VmId) (message : Bytes) (error : Value)
    (context : HookContext) : HookProgram Unit :=
  (script.program vm .panic context (some (message, error))).bind fun _ => .done ()

end HookScript

/-- The scripts of the hooks of a machine; a hook without one is not there. -/
structure HookScripts where
  /-- Before every instruction. -/
  step : Option HookScript := none
  /-- At a breakpoint. -/
  breakpoint : Option HookScript := none
  /-- Before calls, returns, backward jumps and loop continuations. -/
  interrupt : Option HookScript := none
  /-- When an error leaves a frame for the first time. -/
  panic : Option HookScript := none

/-- The hooks that scripts describe. -/
def HookScripts.hooks (scripts : HookScripts) (vm : VmId) : Hooks :=
  { step := scripts.step.map fun script => script.watch vm .step
    breakpoint := scripts.breakpoint.map fun script => script.breakpoint vm
    interrupt := scripts.interrupt.map fun script => script.watch vm .interrupt
    panic := scripts.panic.map fun script => script.panic vm }

/-! ## Method calls -/

/-- What a scripted handler does with the method calls that it takes. -/
inductive HandlerMode where
  /-- Raises a fault. -/
  | fault
  /-- Declines them. -/
  | decline
  /-- Gives values of its own. -/
  | give (values : List Value)
  /-- Gives the method and the arguments. -/
  | echo

/-- A scripted handler of method calls. -/
structure HandlerScript where
  /-- What it does. -/
  mode : HandlerMode
  /-- The only methods that it takes. -/
  only : Option (List Bytes) := none

/-- The program of a scripted handler. -/
def HandlerScript.handler (script : HandlerScript) (vm : VmId) (method : Bytes)
    (args : List Value) : HookProgram (Option (List Value)) :=
  .record (.namecall vm method args) <|
    if script.only.all (·.contains method) then
      match script.mode with
      | .fault => .fault (.host (.ofString "namecall handler fault"))
      | .decline => .done none
      | .give values => .done (some values)
      | .echo => .done (some (.string method :: args))
    else .done none

/-! ## Vectors -/

/-- What a scripted host makes of vector constants. -/
inductive VectorStyle where
  /-- The vector with its components in reverse order. -/
  | reverse
  /-- A table with the components at `1` to `4`. -/
  | table
  /-- The texts of the components, with bars between them. -/
  | text

/-- The value that a scripted host makes of a vector. -/
def VectorStyle.make (style : VectorStyle) (v : Vector4) (heap : Heap) : Value × Heap :=
  match style with
  | .reverse => (.vector ⟨v.w, v.z, v.y, v.x⟩, heap)
  | .table =>
    let content := (v.toList.zipIdx 1).foldl
      (fun content (c, i) => content.setInt i (.number (Number.widen c))) Table.empty
    let (t, heap) := heap.create content
    (.table t, heap)
  | .text =>
    (.string (Bytes.join [0x7c] (v.toList.map fun c => Number.text (Number.widen c))), heap)

end ScriptMachine
