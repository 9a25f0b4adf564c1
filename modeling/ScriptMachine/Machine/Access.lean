import ScriptMachine.Machine.State

/-!
# Globals and fields

Globals are looked up in the extensions of the settings and then in the environment, and stored in
the environment.  Fields belong to tables; strings have the fields of a table of methods, when
there is one, and vectors have their components under one-letter names.
-/

namespace ScriptMachine

/-- The component of a vector with a name of one letter, in either case.  Vectors of three have no
fourth component. -/
def Vector4.component? (v : Vector4) (size : Int) (name : Bytes) : Option Float32 :=
  match name with
  | [letter] =>
    match (Char.ofUInt8 (Bytes.toLower letter)) with
    | 'x' => some v.x
    | 'y' => some v.y
    | 'z' => some v.z
    | 'w' => if size = 4 then some v.w else none
    | _ => none
  | _ => none

namespace Effect

/-- The value of a global, nil when it has none. -/
def getGlobal (key : Value) : Effect Value := do
  let vm ← vm
  let extension ← match vm.settings.extensions with
    | some t => getKey t key
    | none => pure .nil
  if !extension.isNil then return extension
  match vm.environment with
  | some t => getKey t key
  | none => return .nil

/-- Stores a global. -/
def setGlobal (key value : Value) : Effect Unit := do
  match (← vm).environment with
  | some t => setKey t key value
  | none => fault (.noEnvironment key)

/-- The field of a value. -/
def getField (object key : Value) : Effect Value := do
  let settings ← settings
  match object, key, settings.stringMethods with
  | .table t, _, _ => getKey t key
  | .string _, _, some methods => getKey methods key
  | .vector v, .string name, _ =>
    match v.component? settings.vectorSize name with
    | some c => return .number (Number.widen c)
    | none => fault (.notIndexable object.kind key)
  | _, _, _ => fault (.notIndexable object.kind key)

/-- Stores the field of a value. -/
def setField (object key value : Value) : Effect Unit :=
  match object with
  | .table t => setKey t key value
  | _ => fault (.notIndexable object.kind key)

/-- The value at a path of globals: the one found when the module was loaded, if the settings say
so, or else the one that is there now. -/
def getImport (path : ImportPath) : Effect Value := do
  match (← settings).useImportConstants, path.resolved with
  | true, some value => return value
  | _, _ =>
    let value ← getGlobal path.first
    let value ← if 2 ≤ path.count then getField value path.second else pure value
    if 3 ≤ path.count then getField value path.third else pure value

end Effect

end ScriptMachine
