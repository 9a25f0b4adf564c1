import ScriptMachine.Proofs.Bytecode.Loading
import ScriptMachine.Proofs.Bytecode.Validity

/-!
# Paths of globals followed when a module is loaded

With the switch `useImportConstants` every path of globals is followed once, when the prototype that
it is in is linked, and a value found there is kept in the instruction.  Nothing else of the module
depends on the switch: without it the same module is loaded, but that no value is kept.  What is
kept is never nil, and has come out of a chain of tables.
-/

namespace ScriptMachine

/-! ## Modules without the values found -/

/-- An instruction without the value that was found at its path. -/
def Instruction.unresolved (i : Instruction) : Instruction :=
  { i with path := { i.path with resolved := none } }

/-- A slot without it. -/
def Slot.unresolved : Slot → Slot
  | .instruction i => .instruction i.unresolved
  | .aux word => .aux word

/-- A prototype without the values that were found. -/
def Prototype.unresolved (p : Prototype) : Prototype :=
  { p with code := p.code.map Slot.unresolved }

/-- A module without the values that were found. -/
def Module.unresolved (n : Module) : Module :=
  { n with prototypes := n.prototypes.map Prototype.unresolved }

@[simp] theorem Slot.asInstruction_unresolved (s : Slot) :
    s.unresolved.asInstruction = s.asInstruction.unresolved := by
  cases s <;> rfl

theorem Module.prototype_unresolved (n : Module) (index : Nat) :
    n.unresolved.prototype index = (n.prototype index).unresolved := by
  unfold Module.prototype Module.unresolved
  rw [Array.getD_eq_getD_getElem?, Array.getD_eq_getD_getElem?, Array.getElem?_map]
  cases n.prototypes[index]? with
  | none => simp [Prototype.unresolved, Prototype.empty]
  | some p => rfl

/-! ## Steps one after the other -/

section Rows

variable {σ α β : Type} {f g : α → StateM σ β} {s : σ}

theorem mapM_cons_run (f : α → StateM σ β) (a : α) (as : List α) (s : σ) :
    (a :: as).mapM f s = ((f a s).1 :: (as.mapM f (f a s).2).1, (as.mapM f (f a s).2).2) := by
  rw [List.mapM_cons]
  rfl

/-- Steps that only give something else give it one after the other. -/
theorem mapM_map_result {h : β → β} (hg : ∀ a s, g a s = ((h (f a s).1), (f a s).2))
    (as : List α) (s : σ) : as.mapM g s = ((as.mapM f s).1.map h, (as.mapM f s).2) := by
  induction as generalizing s with
  | nil => rfl
  | cons a as ih => rw [mapM_cons_run, mapM_cons_run, ih, hg, List.map_cons]

/-- What a row of steps gives at a place, a step has given in the state that it was taken in. -/
theorem exists_of_mapM {as : List α} {k : Nat} {b : β} (h : (as.mapM f s).1[k]? = some b) :
    ∃ a u, as[k]? = some a ∧ f a u = (b, ((as.take (k + 1)).mapM f s).2) := by
  induction as generalizing s k with
  | nil => simp [List.mapM_nil, pure, StateT.pure] at h
  | cons a as ih =>
    rw [mapM_cons_run] at h
    cases k with
    | zero =>
      cases h
      exact ⟨a, s, rfl, rfl⟩
    | succ k =>
      obtain ⟨a', u, ha', hu⟩ := ih h
      refine ⟨a', u, ha', ?_⟩
      rw [List.take_succ_cons, mapM_cons_run]
      exact hu

end Rows

namespace LoadOptions

variable {options : LoadOptions} {heap heap' : Heap} {constants : Array Constant} {bytes : Bytes}
  {n : Module} {image : Image}

/-! ## Loading without following paths -/

/-- The options with which no path is followed when a module is loaded. -/
def lazily (options : LoadOptions) : LoadOptions := { options with useImportConstants := false }

/-- The path that an auxiliary word names, without a value. -/
def barePath (constants : Array Constant) (aux : UInt32) : ImportPath :=
  let step (present : Bool) (index : Nat) : Value :=
    if present then (constants.getD index .nil).value else .nil
  { count := AuxWord.pathLength aux
    first := step true (AuxWord.pathIndices aux).1
    second := step (2 ≤ AuxWord.pathLength aux) (AuxWord.pathIndices aux).2.1
    third := step (3 ≤ AuxWord.pathLength aux) (AuxWord.pathIndices aux).2.2 }

theorem linkPath_eq (aux : UInt32) : options.linkPath heap constants aux =
    if options.useImportConstants then
      match resolve heap options.staticEnvironment (barePath constants aux) with
      | .nil => barePath constants aux
      | value => { barePath constants aux with resolved := some value }
    else barePath constants aux := rfl

theorem linkPath_lazily (aux : UInt32) : options.lazily.linkPath heap constants aux =
    { options.linkPath heap constants aux with resolved := none } := by
  rw [linkPath_eq, linkPath_eq, if_neg (by exact Bool.false_ne_true)]
  split
  · split <;> rfl
  · rfl

theorem linkInstruction_lazily (u : CodeUnit) : options.lazily.linkInstruction heap constants u =
    (options.linkInstruction heap constants u).unresolved := by
  unfold linkInstruction Instruction.unresolved
  dsimp only
  split <;> simp only [linkPath_lazily]

theorem linkUnit_lazily (u : CodeUnit) : options.lazily.linkUnit heap constants u =
    (options.linkUnit heap constants u).map Slot.unresolved := by
  unfold linkUnit
  rw [linkInstruction_lazily, List.map_cons]
  cases u.aux <;> rfl

theorem linkPrototype_lazily (p : PrototypeImage) (heap : Heap) :
    options.lazily.linkPrototype p heap =
      ((options.linkPrototype p heap).1.unresolved, (options.linkPrototype p heap).2) := by
  have hlinked : ∀ options : LoadOptions, options.linkPrototype p heap =
      ({ p.toPrototypeHeader with
          code := (p.code.flatMap (options.linkUnit (p.constants.mapM options.linkConstant heap).2
            (p.constants.mapM options.linkConstant heap).1.toArray)).toArray
          constants := (p.constants.mapM options.linkConstant heap).1.toArray },
        (p.constants.mapM options.linkConstant heap).2) := fun _ => rfl
  have hconstant : options.lazily.linkConstant = options.linkConstant := rfl
  have hunits : ∀ heap constants (units : List CodeUnit),
      units.flatMap (options.lazily.linkUnit heap constants) =
        (units.flatMap (options.linkUnit heap constants)).map Slot.unresolved := by
    intro heap constants units
    rw [List.map_flatMap]
    exact congrArg units.flatMap (funext linkUnit_lazily)
  rw [hlinked, hlinked, hconstant, hunits]
  simp only [Prototype.unresolved, List.map_toArray]

theorem link_lazily (image : Image) (heap : Heap) : options.lazily.link image heap =
    ((options.link image heap).1.unresolved, (options.link image heap).2) := by
  have hlinked : ∀ options : LoadOptions, options.link image heap =
      ({ version := image.version, typesVersion := image.typesVersion, strings := image.strings
         prototypes := (image.prototypes.mapM options.linkPrototype heap).1.toArray
         main := image.main }, (image.prototypes.mapM options.linkPrototype heap).2) := fun _ => rfl
  rw [hlinked, hlinked, mapM_map_result linkPrototype_lazily]
  simp only [Module.unresolved, List.map_toArray]

/-- Without following paths the same is loaded, but that no value is kept. -/
theorem load_lazily (bytes : Bytes) (heap : Heap) : options.lazily.load bytes heap =
    (options.load bytes heap).map fun loaded => (loaded.1.unresolved, loaded.2) := by
  unfold load
  rw [show options.lazily.decodeWord = options.decodeWord from rfl]
  cases Image.read (options.decodeWord.getD id) bytes with
  | error reason => rfl
  | ok image => exact congrArg Except.ok (link_lazily image heap)

/-! ## What is kept -/

/-- The heap in which the paths of a prototype are followed: the host has made the vectors of it and
of the prototypes before it. -/
def heapAt (options : LoadOptions) (prototypes : List PrototypeImage) (heap : Heap) (index : Nat) :
    Heap :=
  ((prototypes.take (index + 1)).mapM options.linkPrototype heap).2

theorem heapAt_of_plain (h : options.makeVector = none) (prototypes : List PrototypeImage)
    (heap : Heap) (index : Nat) : options.heapAt prototypes heap index = heap := by
  rw [heapAt, mapM_of_pure (linkPrototype_of_plain h heap)]

/-- A host that makes no vectors leaves the heap as it is. -/
theorem heap_link_of_plain (h : options.makeVector = none) (image : Image) (heap : Heap) :
    (options.link image heap).2 = heap := by
  change (image.prototypes.mapM options.linkPrototype heap).2 = heap
  rw [mapM_of_pure (linkPrototype_of_plain h heap)]

/-- A value is kept for a path if it is what there is at its end, and is not nil. -/
theorem resolved_linkPath {aux : UInt32} {value : Value} :
    (options.linkPath heap constants aux).resolved = some value ↔
      options.useImportConstants = true ∧ value ≠ .nil ∧
        resolve heap options.staticEnvironment (options.linkPath heap constants aux) = value := by
  rw [linkPath_eq]
  split
  · rename_i hon
    -- keeping a value does not change where the path leads
    have hsame : resolve heap options.staticEnvironment (barePath constants aux) =
        resolve heap options.staticEnvironment
          { barePath constants aux with
            resolved := some (resolve heap options.staticEnvironment (barePath constants aux)) } :=
      rfl
    cases hfound : resolve heap options.staticEnvironment (barePath constants aux) <;>
      rw [hfound] at hsame
    case nil =>
      refine ⟨nofun, fun ⟨_, hnil, hvalue⟩ => absurd (hvalue.symm.trans hfound) hnil⟩
    all_goals
      refine ⟨fun h => ?_, fun ⟨_, _, hvalue⟩ => congrArg some (hsame.trans hvalue)⟩
      cases h
      exact ⟨hon, nofun, hsame.symm⟩
  · rename_i hoff
    exact ⟨nofun, fun ⟨hon, _⟩ => absurd hon hoff⟩

/-- Paths are linked in the heap that there is when their prototype is. -/
theorem path_of_link {index slot : Nat} {i : Instruction}
    (hi : ((options.link image heap).1.prototype index).code[slot]? = some (.instruction i)) :
    i.underlying ≠ .getImport ∧ i.path.resolved = none ∨
      ∃ constants aux,
        i.path = options.linkPath (options.heapAt image.prototypes heap index) constants aux := by
  have hprototype : ∃ p, (image.prototypes.mapM options.linkPrototype heap).1[index]? = some p ∧
      p.code[slot]? = some (.instruction i) := by
    have hlinked : (options.link image heap).1.prototypes[index]? =
        (image.prototypes.mapM options.linkPrototype heap).1[index]? := List.getElem?_toArray
    rw [Module.prototype, Array.getD_eq_getD_getElem?, hlinked] at hi
    cases hp : (image.prototypes.mapM options.linkPrototype heap).1[index]? with
    | none =>
      rw [hp] at hi
      simp [Prototype.empty] at hi
    | some p =>
      rw [hp] at hi
      exact ⟨p, rfl, hi⟩
  obtain ⟨p, hp, hcode⟩ := hprototype
  obtain ⟨source, u, -, hlink⟩ := exists_of_mapM hp
  have hheap : (source.constants.mapM options.linkConstant u).2 =
      options.heapAt image.prototypes heap index := congrArg Prod.snd hlink
  obtain rfl := congrArg Prod.fst hlink
  change (source.code.flatMap (options.linkUnit (source.constants.mapM options.linkConstant u).2
    (source.constants.mapM options.linkConstant u).1.toArray)).toArray[slot]? = _ at hcode
  rw [List.getElem?_toArray, hheap] at hcode
  obtain ⟨unit, -, rfl⟩ := exists_unit_of_slot hcode
  -- only one format has a path
  unfold linkInstruction
  dsimp only
  split
  case h_6 => exact .inr ⟨_, _, rfl⟩
  all_goals
    rename_i hformat
    refine .inl ⟨fun hunderlying => ?_, rfl⟩
    change unit.opcode = _ at hunderlying
    rw [hunderlying] at hformat
    cases hformat

end LoadOptions

end ScriptMachine
