import ScriptMachine.Command.Options
import ScriptMachine.Document.Text
import ScriptMachine.Execution

/-!
# The command line

What a command line writes and how it exits, given its arguments and the files that it may read.
Progress and traces go to the error stream; results, listings and errors go to the output.
-/

namespace ScriptMachine

namespace Command

/-- What a command line has to say. -/
structure Report where
  /-- The exit code. -/
  code : Nat
  /-- What it writes. -/
  output : Bytes := []
  /-- A document that it writes then. -/
  document : Option Document := none
  /-- What it writes to the error stream. -/
  errors : Bytes := []

/-- Everything that is written to the output. -/
def Report.fullOutput (r : Report) : Bytes :=
  r.output ++ match r.document with
    | some d => d.toIndentedText ++ [0x0a]
    | none => []

/-! ## Texts -/

/-- How to use the command line. -/
def usageText : Bytes :=
  .ofString <|
    "Usage: bcvm [--run|--dump|--coverage] [--settings PATH] [--trace] [--trace-limit N] <file>" ++
      "\n       bcvm --version | --help\n"

/-- The version. -/
def versionText : Bytes := .ofString "bcvm 0.3.0\n"

/-- A line with a label. -/
def labelled (label : String) (text : Bytes) : Bytes :=
  Bytes.concat [.ofString label, text, [0x0a]]

/-- The line that says that a mode has begun; listings say nothing. -/
def entered : Mode → Bytes
  | .run => .ofString "[cli] enter --run\n"
  | .coverage => .ofString "[cli] enter --coverage\n"
  | .dump => []

/-- The line that says why there is no result. -/
def errorLine (e : ExecutionError) : Bytes :=
  match e with
  | .load _ => labelled "Load error: " e.message
  | _ => labelled "Runtime error: " e.message

/-- The line of results. -/
def resultLine (values : List Value) : Bytes :=
  labelled "Result: " (Bytes.join (.ofString ", ") (values.map Value.toText))

/-- The line that counts results. -/
def countLine (values : List Value) : Bytes :=
  Bytes.concat [.ofString "[cli] ran: ", .ofNat values.length, .ofString " value(s)\n"]

/-! ## Modes -/

/-- The settings of a command line: those of the document, and then the options. -/
def settingsOf (files : Bytes → Option Bytes) (options : Options) :
    Except ExecutionError Settings := do
  let settings ←
    if options.settingsPath = [] then pure {}
    else
      (({} : Settings).applyFile options.settingsPath (files options.settingsPath)).mapError
        .settings
  return { settings with
    trace := settings.trace || options.trace
    traceLimit := if options.traceLimit = 0 then settings.traceLimit else options.traceLimit }

/-- The report on an error behind what has been written. -/
def failed (output errors : Bytes) (e : ExecutionError) : Report :=
  { code := 1, output := output ++ errorLine e, errors }

/-- The report on a run. -/
def runReport (e : Execution) : Report :=
  match e.outcome with
  | .error reason => failed e.output e.traced reason
  | .ok values =>
    { code := 0, output := e.output ++ resultLine values, errors := e.traced ++ countLine values }

/-- The report on a run for its coverage; none when the walk over its prototypes does not end. -/
def coverageReport (e : Execution) : Option Report :=
  match e.outcome, e.module with
  | .ok _, some m => m.coverageListing.map fun
    | .ok d => { code := 0, output := e.output, document := some d, errors := e.traced }
    | .error reason => failed e.output e.traced (.coverage reason)
  | .error reason, _ => some (failed e.output e.traced reason)
  | .ok _, none => some { code := 0, output := e.output, errors := e.traced }

/-- The report of a mode on the bytes of a module. -/
def modeReport (fuel : Nat) (mode : Mode) (settings : Settings) (bytes : Bytes) : Option Report :=
  match mode with
  | .dump =>
    match readModule settings bytes with
    | .ok m => some { code := 0, document := some m.listing }
    | .error reason => some (failed [] [] reason)
  | .run => (execute fuel settings bytes).map runReport
  | .coverage => (execute fuel settings bytes).bind coverageReport

/-! ## Requests -/

/-- The report with lines on the error stream before its own. -/
def Report.after (lines : Bytes) (r : Report) : Report := { r with errors := lines ++ r.errors }

/-- The report on a request, given the files that it may read; none when its run has not ended
after `fuel` steps, or the walk for its coverage has no end. -/
def Request.report (files : Bytes → Option Bytes) (fuel : Nat) : Request → Option Report
  | .usage expected => some { code := if expected then 0 else 2, output := usageText }
  | .version => some { code := 0, output := versionText }
  | .process mode options path =>
    let input := labelled "[cli] input: " path
    match files path with
    | none => some { code := 1, output := labelled "cannot open file: " path, errors := input }
    | some bytes =>
      let begun := input ++
        if options.settingsPath = [] then [] else labelled "[cli] settings: " options.settingsPath
      match settingsOf files options with
      | .error reason => some (failed [] begun reason)
      | .ok settings =>
        (modeReport fuel mode settings bytes).map (Report.after (begun ++ entered mode))

/-- The paths of the files that a request reads. -/
def Request.files : Request → List Bytes
  | .process _ options path =>
    if options.settingsPath = [] then [path] else [path, options.settingsPath]
  | _ => []

end Command

end ScriptMachine
