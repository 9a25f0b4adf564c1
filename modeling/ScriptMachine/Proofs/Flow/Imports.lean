import ScriptMachine.Proofs.Bytecode.Extent
import ScriptMachine.Proofs.Bytecode.Imports
import ScriptMachine.Proofs.Flow.Interrupts
import ScriptMachine.Proofs.Machine.Commuting
import ScriptMachine.Proofs.Table.FiniteMap

/-!
# Paths of globals followed at run time

An instruction that looks a path of globals up takes the value that was found when the module was
loaded, or else follows the path anew.  A value was only found where the path led from the
environment through tables, and running code goes through the same tables.  So while these tables
are as they were, it makes no difference whether paths have been followed in advance, to the value
or to the fault; and where nothing was found, the path is followed anew in any case.
-/

namespace ScriptMachine

/-! ## The tables of a path -/

/-- The tables in which the steps of a path are looked up, from an environment on. -/
def Heap.pathTables (heap : Heap) (environment : Option TableId) (path : ImportPath) :
    List TableId :=
  match environment with
  | none => []
  | some globals =>
    globals ::
      if path.count < 2 then []
      else match heap.get globals path.first with
        | .table t =>
          t ::
            if path.count < 3 then []
            else match heap.get t path.second with
              | .table u => [u]
              | _ => []
        | _ => []

/-- No table on a path has changed. -/
def Heap.KeepsPath (heap heap' : Heap) (environment : Option TableId) (path : ImportPath) : Prop :=
  ∀ t ∈ heap.pathTables environment path, heap'.table t = heap.table t

namespace Effect

variable {s s' : Running} {heap : Heap} {environment : Option TableId} {path : ImportPath}
  {value : Value}

/-! ## Following a path -/

/-- Follows a path of globals. -/
def follow (path : ImportPath) : Effect Value := do
  let value ← getGlobal path.first
  let value ← if 2 ≤ path.count then getField value path.second else pure value
  if 3 ≤ path.count then getField value path.third else pure value

theorem getImport_of_value (hon : s.vm.settings.useImportConstants = true)
    (h : path.resolved = some value) : getImport path s = .ok value s := by
  unfold getImport
  rw [settings_bind, hon, h]
  rfl

theorem getImport_of_none (h : path.resolved = none) : getImport path s = follow path s := by
  unfold getImport
  rw [settings_bind, h]
  cases s.vm.settings.useImportConstants <;> rfl

theorem getImport_of_off (h : s.vm.settings.useImportConstants = false) :
    getImport path s = follow path s := by
  unfold getImport
  rw [settings_bind, h]
  rfl

theorem getGlobal_of_environment {globals : TableId} (henv : s.vm.environment = some globals)
    (hext : s.vm.settings.extensions = none) (key : Value) :
    getGlobal key s = .ok (s.world.heap.get globals key) s := by
  unfold getGlobal
  simp only [vm_bind, hext, henv]
  rfl

theorem getField_of_table (t : TableId) (key : Value) :
    getField (.table t) key s = .ok (s.world.heap.get t key) s := rfl

/-- What a loader finds at a path is what is there at run time, if the tables of the path are as
they were. -/
theorem follow_of_resolve (henv : s.vm.environment = environment)
    (hext : s.vm.settings.extensions = none)
    (hsame : heap.KeepsPath s.world.heap environment path)
    (h : LoadOptions.resolve heap environment path = value) (hvalue : value ≠ .nil) :
    follow path s = .ok value s := by
  subst h
  cases environment with
  | none => exact absurd rfl hvalue
  | some globals =>
    have hget : ∀ t ∈ heap.pathTables (some globals) path, ∀ key,
        s.world.heap.get t key = heap.get t key := fun t ht key =>
      congrArg (Table.get · key) (hsame t ht)
    have hglobal : getGlobal path.first s = .ok (heap.get globals path.first) s := by
      rw [getGlobal_of_environment henv hext, hget globals (by simp [Heap.pathTables])]
    unfold LoadOptions.resolve at hvalue ⊢
    dsimp only at hvalue ⊢
    have hfirst : ¬ path.first.isNil = true := fun hnil => by
      rw [if_pos hnil] at hvalue
      exact hvalue rfl
    rw [if_neg hfirst] at hvalue ⊢
    unfold follow
    rw [bind_of_ok hglobal]
    by_cases hone : path.count < 2
    · rw [if_pos hone, if_neg (by omega), pure_bind]
      beta_reduce
      rw [if_neg (by omega)]
      rfl
    rw [if_neg hone] at hvalue ⊢
    rw [if_pos (by omega)]
    -- the first step has led to a table, or else nothing would have been found
    cases hstep : heap.get globals path.first with
    | table t =>
      rw [hstep] at hvalue
      have hfield : getField (.table t) path.second s = .ok (heap.get t path.second) s := by
        rw [getField_of_table, hget t (by simp [Heap.pathTables, hone, hstep])]
      rw [bind_of_ok hfield]
      beta_reduce
      by_cases htwo : path.count < 3
      · rw [if_pos htwo, if_neg (by omega)]
        rfl
      rw [if_neg htwo] at hvalue ⊢
      rw [if_pos (by omega)]
      change LoadOptions.follow heap (heap.get t path.second) path.third ≠ .nil at hvalue
      change _ = EStateM.Result.ok (LoadOptions.follow heap (heap.get t path.second) path.third) s
      cases hlast : heap.get t path.second with
      | table u =>
        rw [getField_of_table, hget u (by simp [Heap.pathTables, hone, hstep, htwo, hlast])]
        rfl
      | _ =>
        rw [hlast] at hvalue
        exact absurd rfl hvalue
    | _ =>
      rw [hstep] at hvalue
      unfold LoadOptions.follow at hvalue
      simp at hvalue

/-! ## The same look-up in two worlds -/

theorem LooksAlike.follow (h : LooksAlike s s') (path : ImportPath) :
    Reads (Effect.follow path) s s' := by
  have hlast : ∀ value, Reads (if 3 ≤ path.count then Effect.getField value path.third
      else Pure.pure value) s s' := fun value => by
    split
    · exact h.getField _ _
    · exact .pure _ _ _
  refine (h.getGlobal _).bind fun value => ?_
  dsimp only
  split
  · exact (h.getField _ _).bind hlast
  · exact (Reads.pure _ _ _).bind hlast

/-- A value that was kept in advance and one that is looked up are one, if what was kept is what is
there. -/
theorem reads_getImport (h : LooksAlike s s')
    (hoff : s'.vm.settings.useImportConstants = false)
    (hkept : ∀ value, path.resolved = some value → follow path s' = .ok value s') :
    ∃ found : Except Fault Value, getImport path s = ofExcept found s ∧
      getImport { path with resolved := none } s' = ofExcept found s' := by
  have hlive : getImport { path with resolved := none } s' = follow path s' := getImport_of_off hoff
  rw [hlive]
  cases hon : s.vm.settings.useImportConstants with
  | false =>
    rw [getImport_of_off hon]
    exact h.follow path
  | true =>
    cases hresolved : path.resolved with
    | none =>
      rw [getImport_of_none hresolved]
      exact h.follow path
    | some value =>
      rw [getImport_of_value hon hresolved]
      exact ⟨.ok value, rfl, hkept value hresolved⟩

/-- So an instruction that looks a path up does the same in two worlds, if both come to the same
value, or fault. -/
theorem execute_getImport_mapWorld {φ : World → World} {i : Instruction}
    (h : ∃ found : Except Fault Value, getImport i.path s = ofExcept found s ∧
      getImport i.unresolved.path (s.mapWorld φ) = ofExcept found (s.mapWorld φ)) :
    execute .getImport i.unresolved (s.mapWorld φ) = mapWorld φ (execute .getImport i s) := by
  obtain ⟨found, hfound, hfound'⟩ := h
  have hexecute : ∀ (i : Instruction) (t : Running), execute .getImport i t =
      (getImport i.path >>= fun value => put i.operands.a value >>= fun _ =>
        jump 1 >>= fun _ => pure Outcome.next) t := fun _ _ => by
    simp only [execute, executePlain, bind_assoc]
  rw [hexecute, hexecute]
  cases found with
  | error fault =>
    rw [bind_of_error hfound, bind_of_error hfound']
    rfl
  | ok value =>
    rw [bind_of_ok hfound, bind_of_ok hfound']
    rfl

end Effect

/-! ## Machines that follow paths anew -/

/-- The settings with which no path is followed in advance. -/
def Settings.lazily (settings : Settings) : Settings :=
  { settings with toLoadOptions := settings.toLoadOptions.lazily }

/-- A machine without the values that were found in advance. -/
def Vm.lazily (vm : Vm) : Vm :=
  { vm with module := vm.module.unresolved, settings := vm.settings.lazily }

/-- The world with a machine that follows all paths anew. -/
def World.lazily (w : World) (id : VmId) : World := w.modifyVm id Vm.lazily

/-- The environment of a machine never changes. -/
theorem Vm.Evolves.environment {vm vm' : Vm} (h : vm.Evolves vm') :
    vm'.environment = vm.environment := by
  induction h with
  | refl => rfl
  | tail _ change ih =>
    rw [← ih]
    cases change <;> rfl

namespace World

variable {w : World} {bytes : Bytes} {environment : Option TableId}
  {settings : Settings}

/-- Where a machine is loaded that follows paths in advance, one is that does not. -/
theorem loadBytes_lazily : w.loadBytes bytes environment settings.lazily =
    (w.loadBytes bytes environment settings).map fun loaded =>
      (loaded.1, loaded.2.lazily loaded.1.vm) := by
  unfold loadBytes
  rw [show settings.lazily.toLoadOptions = settings.toLoadOptions.lazily from rfl,
    LoadOptions.load_lazily]
  cases settings.toLoadOptions.load bytes w.heap with
  | error reason => rfl
  | ok loaded => exact congrArg Except.ok (createVm_modifyVm _ rfl rfl)

theorem nextInstruction?_lazily {u : World} {id : VmId} {f : Frame} (hf : f.vm = id) :
    Machine.nextInstruction? (u.lazily id) f =
      (Machine.nextInstruction? u f).map Instruction.unresolved := by
  unfold Machine.nextInstruction?
  rw [lazily, vm?_modifyVm, if_pos hf.symm]
  cases u.vm? f.vm with
  | none => rfl
  | some vm =>
    have hcode : (vm.lazily.prototype f.prototype).code =
        (vm.prototype f.prototype).code.map Slot.unresolved := by
      unfold Vm.prototype
      exact congrArg Prototype.code (Module.prototype_unresolved vm.module f.prototype)
    show (if vm.alive then (vm.lazily.prototype f.prototype).code[f.pc]?.map Slot.asInstruction
      else none) = _
    cases halive : vm.alive with
    | false => simp [halive]
    | true =>
      simp only [if_true, halive, hcode, Array.getElem?_map, Option.map_map]
      congr 1
      exact funext fun slot => slot.asInstruction_unresolved

theorem vm_lazily {s : Running} {vm : Vm} (h : s.world.vm? s.frame.vm = some vm) :
    (s.mapWorld (·.lazily s.frame.vm)).vm = vm.lazily := by
  refine vm_of_vm? (s := s.mapWorld (·.lazily s.frame.vm)) ?_
  show (s.world.lazily s.frame.vm).vm? s.frame.vm = _
  rw [lazily, vm?_modifyVm, if_pos rfl, h, Option.map_some]

/-- What a machine that has just been loaded is made of. -/
theorem linked_of_loadBytes {w₁ : World} {entry : Entry}
    (hload : w.loadBytes bytes environment settings = .ok (entry, w₁)) :
    ∃ image, Image.read (settings.decodeWord.getD id) bytes = .ok image ∧
      w₁.heap = (settings.link image w.heap).2 ∧ w₁.Runs entry.vm (settings.link image w.heap).1 ∧
      w₁.vm? entry.vm =
        some { module := (settings.link image w.heap).1, environment, settings } := by
  obtain ⟨n, heap, hn, hcreate⟩ := createVm_of_loadBytes hload
  obtain ⟨image, himage⟩ := LoadOptions.read_of_load hn
  have hunpatched := LoadOptions.load_unpatched _ hn
  rw [LoadOptions.load, himage] at hn
  have hlink : settings.link image w.heap = (n, heap) := Except.ok.inj hn
  have hruns := runs_createVm { w with heap } hunpatched environment settings
  refine ⟨image, himage, ?_⟩
  rw [hlink]
  cases hcreate
  refine ⟨rfl, hruns, ?_⟩
  show (w.vms.push _)[w.vms.size]? = _
  simp

/-- The path of an instruction that a loaded machine comes to was linked in the heap that there was
when its prototype was. -/
theorem path_of_next {u : World} {f : Frame} {i : Instruction} {image : Image} {heap : Heap}
    (hu : u.Runs f.vm (settings.link image heap).1) (hi : Machine.nextInstruction? u f = some i) :
    i.operation ≠ .getImport ∧ i.path.resolved = none ∨
      ∃ constants aux, i.path =
        settings.linkPath (settings.heapAt image.prototypes heap f.prototype) constants aux := by
  obtain ⟨-, slot, slot', -, -, hslot', hversion, rfl⟩ := Machine.versionOf_of_next hu hi
  cases hversion with
  | aux word => exact .inl ⟨nofun, rfl⟩
  | @instruction i j hij =>
    have hpath : i.path = j.path := by rw [hij.same]
    rw [show Slot.asInstruction (.instruction i) = i from rfl, hij.operation, hij.underlying, hpath]
    exact LoadOptions.path_of_link hslot'

/-- A value is kept for the path of an instruction that looks one up, if paths are followed in
advance and it was there then. -/
theorem resolved_of_next {u : World} {f : Frame} {i : Instruction} {image : Image} {heap : Heap}
    {value : Value} (hu : u.Runs f.vm (settings.link image heap).1)
    (hi : Machine.nextInstruction? u f = some i) (hlooks : i.operation = .getImport) :
    i.path.resolved = some value ↔ settings.useImportConstants = true ∧ value ≠ .nil ∧
      LoadOptions.resolve (settings.heapAt image.prototypes heap f.prototype)
        settings.staticEnvironment i.path = value := by
  rcases path_of_next hu hi with ⟨hnot, -⟩ | ⟨constants, aux, hpath⟩
  · exact absurd hlooks hnot
  · rw [hpath]
    exact LoadOptions.resolved_linkPath

/-- Whether values of paths have been kept makes no difference where no table on a path has changed
since the path was followed: the instruction stores the same value, or raises the same fault.  The
path was followed in the heap that there was when its prototype was linked. -/
theorem imports_agree {w₁ : World} {entry : Entry}
    (henv : settings.staticEnvironment = environment) (hext : settings.extensions = none)
    (hload : w.loadBytes bytes environment settings = .ok (entry, w₁)) :
    w.loadBytes bytes environment settings.lazily = .ok (entry, w₁.lazily entry.vm) ∧
      ∃ image, Image.read (settings.decodeWord.getD id) bytes = .ok image ∧
        (settings.makeVector = none →
          ∀ index, settings.heapAt image.prototypes w.heap index = w₁.heap) ∧
        ∀ {u : World} {f : Frame} {i : Instruction}, w₁.Evolves u → f.vm = entry.vm →
          Machine.nextInstruction? u f = some i → i.operation = .getImport →
          Machine.nextInstruction? (u.lazily entry.vm) f = some i.unresolved ∧
            ∀ s : Running, u.Evolves s.world → s.frame.vm = entry.vm →
              (settings.heapAt image.prototypes w.heap f.prototype).KeepsPath s.world.heap
                environment i.path →
              Effect.execute .getImport i.unresolved (s.mapWorld (·.lazily entry.vm)) =
                Effect.mapWorld (·.lazily entry.vm) (Effect.execute .getImport i s) := by
  obtain ⟨image, himage, hheap, hruns, hvm⟩ := linked_of_loadBytes hload
  refine ⟨by rw [loadBytes_lazily, hload]; rfl, image, himage, fun hplain index => ?_,
    fun {u f i} hu hf hi hop => ⟨?_, fun s hs hsvm hkeeps => ?_⟩⟩
  · rw [LoadOptions.heapAt_of_plain hplain, hheap, LoadOptions.heap_link_of_plain hplain]
  · rw [nextInstruction?_lazily hf, hi, Option.map_some]
  rw [← hsvm] at hvm ⊢
  obtain ⟨vm, hvm', hevolves⟩ := (hu.trans hs).machine hvm
  have hlazy := vm_lazily hvm'
  have hlooks : Effect.LooksAlike s (s.mapWorld (·.lazily s.frame.vm)) := by
    refine ⟨rfl, ?_, ?_, ?_, ?_⟩ <;> rw [hlazy, vm_of_vm? hvm'] <;> rfl
  refine Effect.execute_getImport_mapWorld (Effect.reads_getImport hlooks (by rw [hlazy]; rfl)
    fun value hvalue => ?_)
  rw [← hf] at hruns
  obtain ⟨-, hnil, hfound⟩ := (resolved_of_next (hu.runs hruns) hi hop).1 hvalue
  rw [henv] at hfound
  refine Effect.follow_of_resolve ?_ ?_ hkeeps hfound hnil
  · rw [hlazy]
    exact hevolves.environment
  · rw [hlazy]
    show vm.settings.extensions = none
    rw [hevolves.settings, hext]

/-- A module whose main function gives the value at a path of two steps. -/
def importModule : Bytes :=
  [6, 1, 2, 1, 0x74, 1, 0x78, 1, 1, 0, 0, 0, 0, 0, 3, 0x0c, 0, 0, 0, 0, 4, 0, 0x80, 0x16, 0, 2, 0,
    2, 3, 1, 3, 2, 0, 0, 0, 0, 0, 0]

/-- A world in which the path leads through the environment and another table. -/
def importWorld : World :=
  { heap := { tables := #[Table.empty.run [.setField (.ofString "t") (.table ⟨1⟩)],
      Table.empty.run [.setField (.ofString "x") (.boolean true)]] } }

/-- Settings with which paths are followed in the environment of `importWorld`. -/
def importSettings : Settings := { useImportConstants := true, staticEnvironment := some ⟨0⟩ }

/-- A call of the main function of a machine. -/
def mainFrame (id : VmId) : Frame :=
  { id := ⟨0⟩, captured := [], registers := #[.nil], vm := id, prototype := 0, upvalues := #[]
    varargs := [] }

theorem resolve_importWorld {path : ImportPath} (hcount : path.count = 2)
    (hfirst : path.first = .string (.ofString "t"))
    (hsecond : path.second = .string (.ofString "x")) :
    LoadOptions.resolve importWorld.heap (some ⟨0⟩) path = .boolean true := by
  have houter : importWorld.heap.get ⟨0⟩ (.string (.ofString "t")) = .table ⟨1⟩ := by
    show (Table.empty.run _).get _ = _
    rw [Table.get_run_empty]
    decide
  have hinner : importWorld.heap.get ⟨1⟩ (.string (.ofString "x")) = .boolean true := by
    show (Table.empty.run _).get _ = _
    rw [Table.get_run_empty]
    decide
  simp only [LoadOptions.resolve, LoadOptions.follow, hcount, hfirst, hsecond, houter, hinner,
    Value.isNil]
  decide

/-- The value that was kept for the path in `importWorld` is the one that is looked up. -/
theorem imports_agree_in_importWorld : ∃ entry w f i,
    importWorld.loadBytes importModule (some ⟨0⟩) importSettings = .ok (entry, w) ∧
      Machine.nextInstruction? w f = some i ∧ i.operation = .getImport ∧
      i.path.resolved = some (.boolean true) ∧
      importWorld.loadBytes importModule (some ⟨0⟩) importSettings.lazily =
        .ok (entry, w.lazily entry.vm) ∧
      Machine.nextInstruction? (w.lazily entry.vm) f = some i.unresolved ∧
      Effect.execute .getImport i.unresolved ⟨w.lazily entry.vm, f, []⟩ =
        Effect.mapWorld (·.lazily entry.vm) (Effect.execute .getImport i ⟨w, f, []⟩) := by
  -- the kernel does not look into tables, so what is checked follows no path
  have hcheck : (importWorld.loadBytes importModule (some ⟨0⟩) importSettings.lazily).toOption.any
      (fun loaded => (Machine.nextInstruction? loaded.2 (mainFrame loaded.1.vm)).any fun i =>
        decide (i.operation = .getImport) && decide (i.path.count = 2) &&
          decide (i.path.first = .string (.ofString "t")) &&
          decide (i.path.second = .string (.ofString "x"))) = true := by
    decide +kernel
  obtain ⟨entry, w', hlazy, hcheck⟩ := exists_of_loadBytes hcheck
  rw [loadBytes_lazily] at hlazy
  cases hload : importWorld.loadBytes importModule (some ⟨0⟩) importSettings with
  | error reason =>
    rw [hload] at hlazy
    cases hlazy
  | ok loaded =>
    obtain ⟨entry, w⟩ := loaded
    rw [hload] at hlazy
    cases hlazy
    obtain ⟨i', hi', hcheck⟩ := (Option.any_eq_true _ _).1 hcheck
    dsimp only at hi'
    rw [@nextInstruction?_lazily w entry.vm (mainFrame entry.vm) rfl] at hi'
    obtain ⟨i, hi, rfl⟩ := Option.map_eq_some_iff.1 hi'
    simp only [Bool.and_eq_true, decide_eq_true_eq] at hcheck
    obtain ⟨⟨⟨hop, hcount⟩, hfirst⟩, hsecond⟩ := hcheck
    obtain ⟨image, -, hheap, hruns, -⟩ := linked_of_loadBytes hload
    have hresolve : LoadOptions.resolve
        (importSettings.heapAt image.prototypes importWorld.heap (mainFrame entry.vm).prototype)
        importSettings.staticEnvironment i.path = .boolean true := by
      rw [LoadOptions.heapAt_of_plain rfl]
      exact resolve_importWorld hcount hfirst hsecond
    have hkept : i.path.resolved = some (.boolean true) :=
      (resolved_of_next hruns hi hop).2 ⟨rfl, nofun, hresolve⟩
    obtain ⟨hlazy, image', -, hplain, hagree⟩ := imports_agree rfl rfl hload
    obtain ⟨hnext, hexecute⟩ := hagree (.refl w) rfl hi hop
    refine ⟨entry, w, mainFrame entry.vm, i, rfl, hi, hop, hkept, hlazy, hnext,
      hexecute ⟨w, mainFrame entry.vm, []⟩ (.refl w) rfl fun t _ => ?_⟩
    rw [hplain rfl]

end World

end ScriptMachine
