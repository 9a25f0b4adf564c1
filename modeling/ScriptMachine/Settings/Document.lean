import ScriptMachine.Document.Reader
import ScriptMachine.Settings

/-!
# Settings as documents

The limits and switches among the settings can be given as an object with a field for each of them
that differs.  Fields are applied in the order of their keys and the first bad one is reported; the
settings stay as they were in that case.
-/

namespace ScriptMachine

/-! ## Errors -/

/-- The text in a message that stands for what a reader of documents has to say. -/
def readerComment : Bytes := .ofString "<json>"

/-- What is wrong with a document of settings. -/
inductive SettingsError where
  /-- The text is no document. -/
  | notDocument
  /-- The document is no object. -/
  | notObject
  /-- The value of a setting is of the wrong kind, or does not fit. -/
  | wrongKind (key : Bytes)
  /-- Vectors have three or four components. -/
  | vectorSize (size : Int)
  /-- There is no such setting. -/
  | unknownKey (key : Bytes)
  /-- There is no such file. -/
  | missingFile (path : Bytes)
  /-- The content of a file is no document. -/
  | badFile (path : Bytes)
deriving DecidableEq

/-- The message of a settings error. -/
def SettingsError.message : SettingsError → Bytes
  | notDocument => readerComment
  | notObject => .ofString "settings document must be a JSON object"
  | wrongKind key =>
    Bytes.concat [.ofString "settings key '", key, .ofString "': ", readerComment]
  | vectorSize size =>
    .ofString "settings key 'vectorSize': expected 3 or 4, got " ++ .ofInt size
  | unknownKey key =>
    Bytes.untilZero <| Bytes.concat [.ofString "unknown settings key '", key, .ofString "'"]
  | missingFile path => .ofString "cannot open settings file: " ++ path
  | badFile path => Bytes.concat [.ofString "settings file ", path, .ofString ": ", readerComment]

/-! ## Keys -/

/-- The settings that a document can hold. -/
inductive SettingsKey where
  /-- Components of a vector. -/
  | vectorSize
  /-- The greatest size of a register file. -/
  | maxRegisters
  /-- The greatest count of calls in progress. -/
  | maxCallDepth
  /-- Loops over tables without an iterator function. -/
  | generalizedIteration
  /-- Errors are located and reported. -/
  | errorHandling
  /-- Error values are kept as they are. -/
  | allowProxyErrors
  /-- Method calls are offered to the host. -/
  | useNativeNamecall
  /-- The hooks of a method call run before it is offered. -/
  | namecallReinvokesHooks
  /-- Paths of globals are followed when a module is loaded. -/
  | useImportConstants
  /-- Instructions are traced. -/
  | trace
  /-- The greatest count of traced instructions. -/
  | traceLimit
deriving DecidableEq, Repr

namespace SettingsKey

/-- All keys. -/
def all : List SettingsKey :=
  [vectorSize, maxRegisters, maxCallDepth, generalizedIteration, errorHandling, allowProxyErrors,
    useNativeNamecall, namecallReinvokesHooks, useImportConstants, trace, traceLimit]

/-- The name of a key in documents. -/
def name : SettingsKey → Bytes
  | vectorSize => .ofString "vectorSize"
  | maxRegisters => .ofString "maxRegisters"
  | maxCallDepth => .ofString "maxCallDepth"
  | generalizedIteration => .ofString "generalizedIteration"
  | errorHandling => .ofString "errorHandling"
  | allowProxyErrors => .ofString "allowProxyErrors"
  | useNativeNamecall => .ofString "useNativeNamecall"
  | namecallReinvokesHooks => .ofString "namecallReinvokesHooks"
  | useImportConstants => .ofString "useImportConstants"
  | trace => .ofString "trace"
  | traceLimit => .ofString "traceLimit"

/-- The key with a name. -/
def ofName? (name : Bytes) : Option SettingsKey := all.find? fun key => key.name == name

end SettingsKey

namespace Settings

/-! ## Reading -/

/-- A natural number of at most the given width in bits. -/
def naturalOf? (bits : Nat) : Document → Option Nat
  | .integer n => if 0 ≤ n ∧ n < 2 ^ bits then some n.toNat else none
  | _ => none

/-- An integer of 32 bits. -/
def integerOf? : Document → Option Int
  | .integer n => if -(2 ^ 31) ≤ n ∧ n < 2 ^ 31 then some n else none
  | _ => none

/-- A truth value. -/
def booleanOf? : Document → Option Bool
  | .boolean b => some b
  | _ => none

/-- The settings with another value at a key; none when the value is of the wrong kind. -/
def put? (s : Settings) (key : SettingsKey) (d : Document) : Option Settings :=
  match key with
  | .vectorSize => (integerOf? d).map fun n => { s with vectorSize := n }
  | .maxRegisters => (naturalOf? 32 d).map fun n => { s with maxRegisters := n }
  | .maxCallDepth => (naturalOf? 32 d).map fun n => { s with maxCallDepth := n }
  | .generalizedIteration => (booleanOf? d).map fun b => { s with generalizedIteration := b }
  | .errorHandling => (booleanOf? d).map fun b => { s with errorHandling := b }
  | .allowProxyErrors => (booleanOf? d).map fun b => { s with allowProxyErrors := b }
  | .useNativeNamecall => (booleanOf? d).map fun b => { s with useNativeNamecall := b }
  | .namecallReinvokesHooks => (booleanOf? d).map fun b => { s with namecallReinvokesHooks := b }
  | .useImportConstants => (booleanOf? d).map fun b => { s with useImportConstants := b }
  | .trace => (booleanOf? d).map fun b => { s with trace := b }
  | .traceLimit => (naturalOf? 64 d).map fun n => { s with traceLimit := n }

/-- The settings with a field of a document applied. -/
def applyField (s : Settings) (name : Bytes) (d : Document) : Except SettingsError Settings :=
  match SettingsKey.ofName? name with
  | none => .error (.unknownKey name)
  | some key =>
    match s.put? key d with
    | none => .error (.wrongKind name)
    | some t =>
      if t.vectorSize = 3 ∨ t.vectorSize = 4 ∨ key ≠ .vectorSize then .ok t
      else .error (.vectorSize t.vectorSize)

/-- The settings with a document applied. -/
def apply (s : Settings) (d : Document) : Except SettingsError Settings :=
  match d with
  | .object fields => fields.foldlM (fun s field => s.applyField field.1 field.2) s
  | _ => .error .notObject

/-- The settings with the document of a text applied. -/
def applyText (s : Settings) (text : Bytes) : Except SettingsError Settings :=
  match Document.ofText? text with
  | some d => s.apply d
  | none => .error .notDocument

/-- The settings with the document of a file applied, its content being none when there is no such
file. -/
def applyFile (s : Settings) (path : Bytes) (content : Option Bytes) :
    Except SettingsError Settings :=
  match content with
  | none => .error (.missingFile path)
  | some text =>
    match Document.ofText? text with
    | some d => s.apply d
    | none => .error (.badFile path)

/-! ## Writing -/

/-- The value at a key. -/
def valueAt (s : Settings) : SettingsKey → Document
  | .vectorSize => .integer s.vectorSize
  | .maxRegisters => .nat s.maxRegisters
  | .maxCallDepth => .nat s.maxCallDepth
  | .generalizedIteration => .boolean s.generalizedIteration
  | .errorHandling => .boolean s.errorHandling
  | .allowProxyErrors => .boolean s.allowProxyErrors
  | .useNativeNamecall => .boolean s.useNativeNamecall
  | .namecallReinvokesHooks => .boolean s.namecallReinvokesHooks
  | .useImportConstants => .boolean s.useImportConstants
  | .trace => .boolean s.trace
  | .traceLimit => .nat s.traceLimit

/-- The document of settings, with all keys. -/
def toDocument (s : Settings) : Document :=
  .ofFields (SettingsKey.all.map fun key => (key.name, s.valueAt key))

end Settings

end ScriptMachine
