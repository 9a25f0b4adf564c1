import ScriptMachine.Document.Text
import ScriptMachine.Execution

/-!
# Embedding

The interface for programs that know nothing of the machine: a module goes in as bytes, settings as
the text of a document, and a code, a document and a message come out.  Texts that cross this border
end at their first zero byte.
-/

namespace ScriptMachine

namespace Embedding

/-- The codes that tell how a request has ended. -/
inductive Code where
  /-- Well. -/
  | done
  /-- Something that it needs was missing. -/
  | incomplete
  /-- Badly, and not because of the module. -/
  | hostError
  /-- Badly because of the module. -/
  | moduleError
deriving DecidableEq, Repr

/-- The number of a code. -/
def Code.toNat : Code → Nat
  | done => 0
  | incomplete => 1
  | hostError => 3
  | moduleError => 4

/-- A request. -/
structure Request where
  /-- The bytes of a module. -/
  bytes : Option Bytes
  /-- The text of a document of settings. -/
  settings : Option Bytes := none
  /-- Whether there is a place for the document of the answer. -/
  hasDocumentPlace : Bool := true
  /-- Whether there is a place for the message of the answer. -/
  hasMessagePlace : Bool := true

/-- An answer. -/
structure Answer where
  /-- How the request has ended. -/
  code : Code
  /-- The document, if it has ended well. -/
  document : Option Document := none
  /-- The message, if it has not. -/
  message : Option Bytes := none
  /-- What the module has written. -/
  output : Bytes := []
  /-- What has been traced. -/
  traced : Bytes := []

namespace Answer

/-- The answer when something is missing. -/
def incomplete : Answer := { code := .incomplete }

/-- The answer to a request that has ended with a document or an error. -/
def ofOutcome : Except ExecutionError Document → Answer
  | .ok d => { code := .done, document := some d }
  | .error e =>
    { code := if e.blamesModule then .moduleError else .hostError
      message := some e.message }

end Answer

/-- The bytes of a request that has all that it needs. -/
def Request.complete? (r : Request) : Option Bytes :=
  if r.hasDocumentPlace && r.hasMessagePlace then r.bytes else none

/-- The settings of a request. -/
def Request.settings? (r : Request) : Except ExecutionError Settings :=
  match r.settings with
  | none => .ok {}
  | some text => (({} : Settings).applyText text.untilZero).mapError .settings

/-- A result in the document of an answer: nil, truth values and numbers as such, and the text of
anything else. -/
def resultDocument : Value → Document
  | .nil => .null
  | .boolean b => .boolean b
  | .number n => .number n
  | v => .text v.toText

/-- Reads a module and answers with its listing. -/
def check (r : Request) : Answer :=
  match r.complete? with
  | none => .incomplete
  | some bytes => .ofOutcome ((readModule {} bytes).map Module.listing)

/-- Runs a module and answers with its results. -/
def run (fuel : Nat) (r : Request) : Option Answer :=
  match r.complete? with
  | none => some .incomplete
  | some bytes =>
    match r.settings? with
    | .error e => some (.ofOutcome (.error e))
    | .ok settings =>
      (execute fuel settings bytes).map fun e =>
        { Answer.ofOutcome (e.outcome.map fun values => .list (values.map resultDocument)) with
          output := e.output, traced := e.traced }

end Embedding

end ScriptMachine
