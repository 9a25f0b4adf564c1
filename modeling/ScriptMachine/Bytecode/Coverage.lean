import ScriptMachine.Bytecode.Module

/-!
# Coverage reports

A report walks over a prototype and its children, depth first and in order, and gives for every
line with a coverage instruction the greatest count among them.  A prototype without line
information cannot be reported on: the walk ends there.  The walk does not remember where it has
been, so it has no end when it comes to a prototype below itself, and then there is no outcome.
-/

namespace ScriptMachine

/-- Why there is no report. -/
inductive CoverageError where
  /-- The module has no such prototype. -/
  | prototypeRange (index : Nat)
  /-- A prototype has no line information. -/
  | noLines (index : Nat) (name : Bytes)
deriving DecidableEq

/-- The message when there is no report. -/
def CoverageError.message : CoverageError → Bytes
  | .prototypeRange index =>
    Bytes.concat [.ofString "prototype ", .ofNat index, .ofString " out of range"]
  | .noLines index name => Bytes.untilZero <| Bytes.concat
    [.ofString "prototype ", .ofNat index, .ofString " (", name, .ofString ") has no line info"]

/-- The report on one prototype. -/
structure PrototypeCoverage where
  /-- The position of the prototype. -/
  index : Nat
  /-- Its name. -/
  name : Bytes
  /-- The line on which it begins. -/
  lineDefined : Nat
  /-- Its distance from the prototype on which the report is. -/
  depth : Nat
  /-- The greatest count on each line with a coverage instruction, by increasing line. -/
  hits : List (Int × Nat)
deriving DecidableEq

/-! ## One prototype -/

/-- Counts by line with one more, the greater one staying. -/
def insertHits (line : Int) (hits : Nat) : List (Int × Nat) → List (Int × Nat)
  | [] => [(line, hits)]
  | entry :: others =>
    if line < entry.1 then (line, hits) :: entry :: others
    else if line = entry.1 then (line, max entry.2 hits) :: others
    else entry :: insertHits line hits others

/-- The coverage instructions of a prototype: their lines and counts. -/
def Prototype.coveragePoints (p : Prototype) : List (Int × Nat) :=
  p.code.toList.zipIdx.filterMap fun
    | (.instruction i, slot) =>
      if i.underlying = .coverage then some (p.lineAt slot, i.hits.toNat) else none
    | (.aux _, _) => none

/-- The report on a prototype at some depth. -/
def Prototype.coverage (p : Prototype) (depth : Nat) : PrototypeCoverage :=
  { index := p.index, name := p.name, lineDefined := p.lineDefined, depth
    hits := p.coveragePoints.foldl (fun hits (line, n) => insertHits line n hits) [] }

/-- The greatest line of a prototype, or zero. -/
def Prototype.maxLine (p : Prototype) : Int := (p.lines.getD #[]).foldl max 0

/-! ## A prototype and its descendants -/

namespace Module

/-- The prototypes of the trees below some of them, each with its depth, in depth-first order; none
when the walk does not end. -/
def forest (m : Module) :
    List Nat → Nat → Option (Except CoverageError (List (Prototype × Nat)))
  | [], _ => some (.ok [])
  | index :: others, depth => do
    let p := m.prototype index
    if p.lines.isNone then return .error (.noLines p.index p.name)
    match ← m |>.forest p.children (depth + 1) with
    | .error e => return .error e
    | .ok below =>
      match ← m |>.forest others depth with
      | .error e => return .error e
      | .ok beside => return .ok ((p, depth) :: below ++ beside)
partial_fixpoint

/-- The prototypes of the tree below one of them, the main one if none is given. -/
def tree (m : Module) (root : Option Nat) :
    Option (Except CoverageError (List (Prototype × Nat))) :=
  let index := root.getD m.main
  if index < m.prototypes.size then m.forest [index] 0 else some (.error (.prototypeRange index))

/-- The report on a prototype, the main one if none is given, and its descendants. -/
def coverage (m : Module) (root : Option Nat) :
    Option (Except CoverageError (List PrototypeCoverage)) :=
  (m.tree root).map fun tree => tree.map fun tree =>
    tree.map fun (p, depth) => p.coverage depth

/-- The greatest line of a prototype, the main one if none is given, and its descendants. -/
def maxLine (m : Module) (root : Option Nat) : Option (Except CoverageError Int) :=
  (m.tree root).map fun tree => tree.map fun tree =>
    tree.foldl (fun line (p, _) => max line p.maxLine) 0

end Module

end ScriptMachine
