import ScriptMachine.Bytecode.Image.Reader
import ScriptMachine.Bytecode.Module
import ScriptMachine.Heap

/-!
# Loading modules

Loading a byte string reads its image and links it.  Linking applies the host's options: vectors
of three lose their last component, vectors may be replaced by values of the host's making, and
paths of globals may be followed once and for all in a static environment.
-/

namespace ScriptMachine

/-- What the host may choose about loading. -/
structure LoadOptions where
  /-- Components of a vector: four, or else three. -/
  vectorSize : Int := 3
  /-- What the host makes of a vector constant, possibly out of new tables. -/
  makeVector : Option (Vector4 → Heap → Value × Heap) := none
  /-- What instruction words go through before they are decoded. -/
  decodeWord : Option (UInt32 → UInt32) := none
  /-- Whether paths of globals are followed when the module is loaded. -/
  useImportConstants : Bool := false
  /-- Where they are followed. -/
  staticEnvironment : Option TableId := none

namespace LoadOptions

/-! ## Constants -/

/-- The value of a vector constant. -/
def vectorValue (options : LoadOptions) (v : Vector4) (heap : Heap) : Value × Heap :=
  let v := if options.vectorSize = 4 then v else { v with w := 0 }
  match options.makeVector with
  | some make => make v heap
  | none => (.vector v, heap)

/-- A constant with the host's value for a vector. -/
def linkConstant (options : LoadOptions) (constant : Constant) : StateM Heap Constant := fun heap =>
  match constant with
  | .vector (.vector v) => let (value, heap) := options.vectorValue v heap; (.vector value, heap)
  | _ => (constant, heap)

/-! ## Paths of globals -/

/-- A field of a value that is a table; of any other value nothing. -/
def follow (heap : Heap) (value key : Value) : Value :=
  match value with
  | .table t => heap.get t key
  | _ => .nil

/-- The value at a path of globals in a static environment, nil when the path breaks off. -/
def resolve (heap : Heap) (environment : Option TableId) (path : ImportPath) : Value :=
  match environment with
  | none => .nil
  | some globals =>
    if path.first.isNil then .nil
    else
      let value := heap.get globals path.first
      if path.count < 2 then value
      else
        let value := follow heap value path.second
        if path.count < 3 then value else follow heap value path.third

/-- The path that an auxiliary word names. -/
def linkPath (options : LoadOptions) (heap : Heap) (constants : Array Constant) (aux : UInt32) :
    ImportPath :=
  let (first, second, third) := AuxWord.pathIndices aux
  let count := AuxWord.pathLength aux
  let step (present : Bool) (index : Nat) : Value :=
    if present then (constants.getD index .nil).value else .nil
  let path : ImportPath :=
    { count, first := step true first, second := step (2 ≤ count) second,
      third := step (3 ≤ count) third }
  if options.useImportConstants then
    match resolve heap options.staticEnvironment path with
    | .nil => path
    | value => { path with resolved := some value }
  else path

/-! ## Code -/

/-- The instruction that stands in the code, with what it refers to. -/
def linkInstruction (options : LoadOptions) (heap : Heap) (constants : Array Constant)
    (u : CodeUnit) : Instruction :=
  let base : Instruction :=
    { opcode := u.opcode, underlying := u.opcode, word := u.word, operands := u.operands,
      aux := u.auxWord }
  let constantAt (index : Nat) : Constant := constants.getD index .nil
  match u.opcode.info.constant with
  | .none => base
  | .aux => { base with constant := constantAt u.auxWord.toNat }
  | .b => { base with constant := constantAt u.operands.b }
  | .c => { base with constant := constantAt u.operands.c }
  | .d => { base with constant := constantAt u.operands.d.toNat }
  | .auxImport => { base with path := options.linkPath heap constants u.auxWord }
  | .auxFlag => { base with
      constant := .boolean (AuxWord.flag u.auxWord), negated := AuxWord.negated u.auxWord }
  | .auxIndex => { base with
      constant := constantAt (AuxWord.index u.auxWord), negated := AuxWord.negated u.auxWord }
  | .auxCount => { base with constant := .number (Number.ofNat (AuxWord.count u.auxWord)) }

/-- The slots of an instruction. -/
def linkUnit (options : LoadOptions) (heap : Heap) (constants : Array Constant) (u : CodeUnit) :
    List Slot :=
  .instruction (options.linkInstruction heap constants u) :: (u.aux.map Slot.aux).toList

/-! ## Modules -/

/-- A prototype ready to run. -/
def linkPrototype (options : LoadOptions) (p : PrototypeImage) : StateM Heap Prototype := do
  let constants := (← p.constants.mapM options.linkConstant).toArray
  let heap ← get
  let code := (p.code.flatMap (options.linkUnit heap constants)).toArray
  return { p.toPrototypeHeader with code, constants }

/-- A module ready to run. -/
def link (options : LoadOptions) (image : Image) : StateM Heap Module := do
  let prototypes := (← image.prototypes.mapM options.linkPrototype).toArray
  return { version := image.version, typesVersion := image.typesVersion, strings := image.strings,
           prototypes, main := image.main }

/-- The module that a byte string holds. -/
def load (options : LoadOptions) (bytes : Bytes) (heap : Heap) : Except LoadError (Module × Heap) :=
  (Image.read (options.decodeWord.getD id) bytes).map fun image => options.link image heap

end LoadOptions

end ScriptMachine
