import ScriptMachine.Bytecode.Coverage
import ScriptMachine.Document.Basic

/-!
# Listings

A listing shows a module as a document, instruction by instruction with its operands and what it
refers to.  The report on coverage has a document of its own.
-/

namespace ScriptMachine

open Document (nat ofString ofNamed)

/-! ## Values and constants -/

/-- A value in a listing: vectors as the list of their components, tables and functions by their
texts. -/
def Value.listing : Value → Document
  | .nil => .null
  | .boolean b => .boolean b
  | .number n => .number n
  | .string s => .text s
  | .vector v => .list (v.toList.map fun c => .number (Number.widen c))
  | v => .text v.toText

/-- A constant in a listing. -/
def Constant.listing (c : Constant) : Document :=
  let content : String × Document :=
    match c with
    | .importPath id => ("id", nat id.toNat)
    | .table keys => ("keys", .list (keys.map nat))
    | .closure index => ("proto", nat index)
    | _ => ("value", c.value.listing)
  ofNamed [("kind", ofString c.kindName), content]

/-! ## Instructions -/

/-- The operands that a format has. -/
def OperandFormat.listing (format : OperandFormat) (o : Operands) : List (String × Document) :=
  match format with
  | .none => []
  | .a => [("A", nat o.a)]
  | .ab => [("A", nat o.a), ("B", nat o.b)]
  | .abc => [("A", nat o.a), ("B", nat o.b), ("C", nat o.c)]
  | .ad => [("A", nat o.a), ("D", .integer o.d)]
  | .ae => [("E", .integer o.e)]

/-- The steps of a path of globals, as many as its auxiliary word says. -/
def ImportPath.listing (path : ImportPath) : Document :=
  .list (([path.first, path.second, path.third].take path.count).map Value.listing)

/-- An instruction in a listing. -/
def Instruction.listing (i : Instruction) : List (String × Document) :=
  let info := i.underlying.info
  let aux := if info.hasAux then [("aux", nat i.aux.toNat)] else []
  let reference :=
    match info.constant with
    | .none => []
    | .auxImport => [("import", i.path.listing)]
    | _ => [("K", i.constant.value.listing)]
  ("op", ofString i.opcode.info.name) :: (info.operands.listing i.operands ++ aux ++ reference)

/-- A slot in a listing. -/
def Prototype.slotListing (p : Prototype) (slot : Nat) (s : Slot) : Document :=
  let fields :=
    match s with
    | .aux word => [("aux", nat word.toNat)]
    | .instruction i =>
      i.listing ++ if p.lines.isSome then [("line", .integer (p.lineAt slot))] else []
  ofNamed (("pc", nat slot) :: fields)

/-! ## Prototypes and modules -/

/-- A prototype in a listing. -/
def Prototype.listing (p : Prototype) : Document :=
  ofNamed
    [("index", nat p.index), ("name", .text p.name), ("lineDefined", nat p.lineDefined),
      ("maxStackSize", nat p.maxStackSize.toNat), ("numParams", nat p.numParams.toNat),
      ("numUpvalues", nat p.numUpvalues.toNat), ("isVararg", .boolean p.isVararg),
      ("children", .list (p.children.map nat)),
      ("constants", .list (p.constants.toList.map Constant.listing)),
      ("code", .list (p.code.toList.zipIdx.map fun (s, slot) => p.slotListing slot s))]

/-- The listing of a module. -/
def Module.listing (m : Module) : Document :=
  ofNamed
    [("version", nat m.version.toNat), ("typesVersion", nat m.typesVersion.toNat),
      ("main", nat m.main), ("strings", .list (m.strings.map .text)),
      ("protos", .list (m.prototypes.toList.map Prototype.listing))]

/-! ## Coverage -/

/-- The report on one prototype as a document, its lines being keys. -/
def PrototypeCoverage.listing (c : PrototypeCoverage) : Document :=
  ofNamed
    [("name", .text c.name), ("lineDefined", nat c.lineDefined), ("depth", nat c.depth),
      ("hits", .ofFields (c.hits.map fun (line, hits) => (.ofInt line, nat hits)))]

/-- The report on the main prototype and its descendants as a document; none when the walk over
them does not end. -/
def Module.coverageListing (m : Module) : Option (Except CoverageError Document) := do
  let maxLine? ← m.maxLine none
  let report? ← m.coverage none
  return do
    let maxLine ← maxLine?
    let report ← report?
    return ofNamed
      [("maxLine", .integer maxLine), ("protos", .list (report.map PrototypeCoverage.listing))]

end ScriptMachine
