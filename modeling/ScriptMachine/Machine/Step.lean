import ScriptMachine.Machine.Dispatch

/-!
# Steps of a run

A run is a sequence of steps.  At every moment it executes a frame, begins a call, hands results
to the call that waits for them, or hands a failure to the calls below.  A failure that leaves a
frame is located, reported to the panic hook and raised again as an error value, once: further
frames let it through.  However a frame ends, its captured variables are closed and its machine
counts one call less in progress.
-/

namespace ScriptMachine

/-! ## Failures that leave a frame -/

namespace Frame

/-- The operation of the instruction that runs, without regard to breakpoints. -/
def operation (f : Frame) (p : Prototype) : Option Opcode := p.underlyingAt? f.current

/-- A message with the place of the instruction that runs: its line, or else its slot and its
operation. -/
def locate (f : Frame) (p : Prototype) (message : Bytes) : Bytes :=
  if p.lines.isSome then
    Bytes.concat
      [p.name, .ofString ":", .ofInt (p.lineAt f.current), .ofString ": ", message]
  else
    let operation := match f.operation p with
      | some op => op.name
      | none => .ofString "?"
    Bytes.concat
      [p.name, .ofString ":pc ", .ofNat f.current, .ofString " (", operation, .ofString "): ",
        message]

end Frame

/-- The error value that leaves a frame in place of a payload, and the message of its report. -/
def reportOf (settings : Settings) (f : Frame) (p : Prototype) (payload : Value) : Bytes × Value :=
  match payload, settings.allowProxyErrors with
  | .string text, _ => let located := f.locate p text; (located, .string located)
  | _, true => (payload.kindName, payload)
  | _, false => let located := f.locate p payload.kindName; (located, .string located)

/-- The failure that leaves a frame in place of one that its settings handle: the panic hook has
had it, unless the hook has failed itself. -/
def raise (w : World) (vm : Vm) (f : Frame) (payload : Value) : World × Failure :=
  let p := vm.prototype f.prototype
  let (message, error) := reportOf vm.settings f p payload
  match vm.settings.hooks.panic with
  | none => (w, .script error true)
  | some hook =>
    let context := Effect.contextOf f ((f.operation p).getD .nop)
    match (hook message error context).perform w with
    | (w, .ok ()) => (w, .script error true)
    | (w, .error failure) => (w, failure)

/-- The failure that leaves a frame when one is raised in it. -/
def handle (w : World) (f : Frame) (failure : Failure) : World × Failure :=
  match w.vm? f.vm, failure with
  | some vm, .fault fault =>
    if vm.settings.errorHandling then raise w vm f (.string fault.message) else (w, failure)
  | some vm, .script payload false =>
    if vm.settings.errorHandling then raise w vm f payload else (w, failure)
  | _, _ => (w, failure)

/-! ## Runs -/

/-- What a run is about to do. -/
inductive Control where
  /-- Execute a frame. -/
  | run (f : Frame)
  /-- Begin a call. -/
  | call (function : Value) (args : List Value)
  /-- Hand results to the call that waits. -/
  | give (values : List Value)
  /-- Hand a failure to the call that waits. -/
  | fail (failure : Failure)

/-- A run at some moment. -/
structure Machine where
  /-- The world. -/
  world : World
  /-- The calls that wait. -/
  stack : Stack
  /-- What comes next. -/
  control : Control

namespace Machine

/-- The world after a frame has ended. -/
def endFrame (w : World) (f : Frame) : World :=
  { w.modifyVm f.vm fun vm => { vm with depth := vm.depth - 1 } with
    cells := (f.toScope.closeFrom w.cells 0).2 }

/-- The frame ends with results. -/
def leave (w : World) (f : Frame) (stack : Stack) (values : List Value) : Machine :=
  ⟨endFrame w f, stack, .give values⟩

/-- The frame ends with a failure. -/
def abort (w : World) (f : Frame) (stack : Stack) (failure : Failure) : Machine :=
  let (w, failure) := handle w f failure
  ⟨endFrame w f, stack, .fail failure⟩

/-- A function of the host has run up to its end or its next call. -/
def ofSettled (stack : Stack) : World × Settled FunctionCall (List Value) → Machine
  | (w, .done values) => ⟨w, stack, .give values⟩
  | (w, .fail failure) => ⟨w, stack, .fail failure⟩
  | (w, .call target resume) => ⟨w, .native resume :: stack, .call target.function target.args⟩

/-- The call of a closure begins. -/
def enter (w : World) (stack : Stack) (c : Closure) (vm : Vm) (args : List Value) : Machine :=
  if !vm.isPresent then
    ⟨w, stack, .fail (.fault (.released (vm.prototype c.prototype).name))⟩
  else if !vm.alive then ⟨w, stack, .give []⟩
  else
    let f := Frame.enter ⟨w.nextFrame⟩ (vm.prototype c.prototype) c args
    let w := { w.modifyVm c.vm fun vm => { vm with depth := vm.depth + 1 } with
      nextFrame := w.nextFrame + 1 }
    if vm.settings.maxCallDepth < vm.depth + 1 then abort w f stack (.fault .stackOverflow)
    else ⟨w, stack, .run f⟩

/-- A call begins. -/
def call (w : World) (stack : Stack) (function : Value) (args : List Value) : Machine :=
  match function with
  | .function id =>
    match w.function? id with
    | some (.native _ run) => ofSettled stack ((run args).settle w)
    | some (.closure c) => enter w stack c (w.vms.getD c.vm.index .empty) args
    | none => ⟨w, stack, .give []⟩
  | _ => ⟨w, stack, .fail (.fault (.notCallable function.kind))⟩

/-- A frame has run an instruction. -/
def ofOutcome : EStateM.Result Failure Running Outcome → Machine
  | .ok .next s => ⟨s.world, s.stack, .run s.frame⟩
  | .ok (.leave values) s => leave s.world s.frame s.stack values
  | .ok (.call function args next) s =>
    ⟨s.world, .frame s.frame next :: s.stack, .call function args⟩
  | .error failure s => abort s.world s.frame s.stack failure

/-- The instruction that a frame runs next, if its machine is alive and its code has not ended. -/
def nextInstruction? (w : World) (f : Frame) : Option Instruction :=
  match w.vm? f.vm with
  | some vm =>
    if vm.alive then (vm.prototype f.prototype).code[f.pc]?.map Slot.asInstruction else none
  | none => none

/-- A frame takes the results of its call. -/
def accept (next : Continuation) (values : List Value) : Effect Outcome := do
  match next with
  | .results base wanted => Effect.storeResults base wanted values
  | .iteration base arity distance => Effect.storeRound base arity distance values
  return .next

/-- One step of a run.  A run without waiting calls that hands on results or a failure has ended,
and stays as it is. -/
def step (m : Machine) : Machine :=
  match m with
  | ⟨w, stack, .run f⟩ =>
    match nextInstruction? w f with
    | some i => ofOutcome (Effect.dispatch i ⟨w, f, stack⟩)
    | none => leave w f stack []
  | ⟨w, stack, .call function args⟩ => call w stack function args
  | ⟨w, .frame f next :: stack, .give values⟩ => ofOutcome (accept next values ⟨w, f, stack⟩)
  | ⟨w, .native resume :: stack, .give values⟩ =>
    ofSettled stack ((resume (.ok values)).settle w)
  | ⟨w, .frame f _ :: stack, .fail failure⟩ => abort w f stack failure
  | ⟨w, .native resume :: stack, .fail failure⟩ =>
    ofSettled stack ((resume (.error failure)).settle w)
  | ⟨w, [], .give values⟩ => ⟨w, [], .give values⟩
  | ⟨w, [], .fail failure⟩ => ⟨w, [], .fail failure⟩

/-- How a run has ended, if it has. -/
def outcome? (m : Machine) : Option (Except Failure (List Value)) :=
  match m.stack, m.control with
  | [], .give values => some (.ok values)
  | [], .fail failure => some (.error failure)
  | _, _ => none

/-- The run after at most `fuel` steps, and how it has ended; none when it has not. -/
def run : Nat → Machine → Option (World × Except Failure (List Value))
  | 0, m => m.outcome?.map (m.world, ·)
  | fuel + 1, m =>
    match m.outcome? with
    | some outcome => some (m.world, outcome)
    | none => run fuel m.step

/-- The run that begins with a call. -/
def start (w : World) (function : Value) (args : List Value) : Machine :=
  ⟨w, [], .call function args⟩

end Machine

namespace World

/-- Calls a function; none when the call has not ended after `fuel` steps. -/
def call (w : World) (fuel : Nat) (function : Value) (args : List Value) :
    Option (World × Except Failure (List Value)) :=
  (Machine.start w function args).run fuel

end World

end ScriptMachine
