import Mathlib
import ScriptMachine.Proofs.Calls.Waiting
import ScriptMachine.Proofs.Capture.Closures

/-!
# The captured variables of closures

A closure that a run makes has as many captured variables as its prototype declares, and all of them
are cells.  Two instructions make closures, and nothing else does but loading, which makes the main
closure of a machine without any.  What a prototype declares never changes.
-/

namespace ScriptMachine

/-! ## What prototypes declare -/

namespace Module

theorem header_modifyInstruction (m : Module) (index slot k : Nat) (f : Instruction → Instruction) :
    ((m.modifyInstruction index slot f).prototype k).toPrototypeHeader =
      (m.prototype k).toPrototypeHeader := by
  unfold prototype modifyInstruction
  simp only [Array.getD_eq_getD_getElem?, Array.getElem?_modify]
  split
  · cases m.prototypes[k]? <;> rfl
  · rfl

theorem header_resetCoverage (m : Module) (k : Nat) :
    (m.resetCoverage.prototype k).toPrototypeHeader = (m.prototype k).toPrototypeHeader := by
  unfold prototype resetCoverage
  simp only [Array.getD_eq_getD_getElem?, Array.getElem?_map]
  cases m.prototypes[k]? <;> rfl

/-- A breakpoint changes neither what prototypes declare nor which of them runs first. -/
theorem header_setBreakpoint {m m' : Module} {index slot : Nat} {enabled : Bool}
    (h : m.setBreakpoint index slot enabled = .ok m') :
    m'.main = m.main ∧
      ∀ k, (m'.prototype k).toPrototypeHeader = (m.prototype k).toPrototypeHeader := by
  unfold setBreakpoint at h
  split at h
  · cases h
  · split at h
    · cases h
    · cases h
      exact ⟨rfl, fun k => m.header_modifyInstruction index slot k _⟩

end Module

/-- What prototypes declare stays, and so does which of them runs first. -/
theorem Vm.Evolves.header {vm vm' : Vm} (h : vm.Evolves vm') :
    vm'.module.main = vm.module.main ∧
      ∀ k, (vm'.prototype k).toPrototypeHeader = (vm.prototype k).toPrototypeHeader := by
  induction h with
  | refl => exact ⟨rfl, fun k => rfl⟩
  | tail _ change ih =>
    obtain ⟨hmain, hheader⟩ := ih
    cases change with
    | traced | depth | closed | released => exact ⟨hmain, hheader⟩
    | «breakpoint» hset =>
      obtain ⟨hmain', hheader'⟩ := Module.header_setBreakpoint hset
      exact ⟨hmain'.trans hmain, fun k => (hheader' k).trans (hheader k)⟩
    | hit index slot =>
      exact ⟨hmain, fun k => (Module.header_modifyInstruction _ index slot k _).trans (hheader k)⟩
    | reset => exact ⟨hmain, fun k => (Module.header_resetCoverage _ k).trans (hheader k)⟩

namespace World

variable {u v w w' : World} {c : Closure}

/-- A closure has as many captured variables as its prototype declares. -/
def Declares (w : World) (c : Closure) : Prop :=
  ∃ vm, w.vm? c.vm = some vm ∧
    c.upvalues.size = (vm.prototype c.prototype).numUpvalues.toNat

/-- A closure is one of the prototype of its module that runs first, and has no captured
variables. -/
def IsMain (w : World) (c : Closure) : Prop :=
  ∃ vm, w.vm? c.vm = some vm ∧ c.prototype = vm.module.main ∧ c.upvalues = #[]

theorem Evolves.declares (h : w.Evolves w') (hc : w.Declares c) : w'.Declares c := by
  obtain ⟨vm, hvm, hsize⟩ := hc
  obtain ⟨vm', hvm', hevolves⟩ := h.machine hvm
  refine ⟨vm', hvm', hsize.trans ?_⟩
  rw [congrArg PrototypeHeader.numUpvalues (hevolves.header.2 c.prototype)]

theorem Evolves.isMain (h : w.Evolves w') (hc : w.IsMain c) : w'.IsMain c := by
  obtain ⟨vm, hvm, hmain, hnone⟩ := hc
  obtain ⟨vm', hvm', hevolves⟩ := h.machine hvm
  exact ⟨vm', hvm', hmain.trans hevolves.header.1.symm, hnone⟩

/-! ## Worlds without new functions -/

/-- From one world to the other no function is made, and no cell goes. -/
structure Grows (w w' : World) : Prop where
  /-- The world has evolved. -/
  evolves : w.Evolves w'
  /-- The functions are the same. -/
  functions : w'.functions = w.functions
  /-- No cell has gone. -/
  size_le : w.cells.cells.size ≤ w'.cells.cells.size

theorem Grows.refl (w : World) : w.Grows w := ⟨.refl w, rfl, le_refl _⟩

theorem Grows.trans (h : u.Grows v) (h' : v.Grows w) : u.Grows w :=
  ⟨h.evolves.trans h'.evolves, h'.functions.trans h.functions, h.size_le.trans h'.size_le⟩

/-- No step makes a function but for its instruction. -/
theorem routine_grows : Routine Grows where
  refl := .refl
  trans h h' := h.trans h'
  heap w heap := ⟨hosted_evolves.heap w heap, rfl, le_refl _⟩
  write w bytes := ⟨hosted_evolves.write w bytes, rfl, le_refl _⟩
  close w id := ⟨hosted_evolves.close w id, rfl, le_refl _⟩
  release w id := ⟨hosted_evolves.release w id, rfl, le_refl _⟩
  setBreakpoint h := by
    refine ⟨hosted_evolves.setBreakpoint h, ?_, ?_⟩ <;>
      rcases setBreakpoint_cases h with rfl | ⟨m, rfl⟩
    · rfl
    · rfl
    · exact le_refl _
    · exact le_refl _
  record w event := ⟨hosted_evolves.record w event, rfl, le_refl _⟩
  countUp w id kind := ⟨hosted_evolves.countUp w id kind, rfl, le_refl _⟩
  ended w f := by
    refine ⟨Machine.endFrame_evolves w f, rfl, ?_⟩
    show _ ≤ (f.toScope.closeFrom w.cells 0).2.cells.size
    rw [Scope.size_closeFrom]
  entered w stack c vm args := ⟨Machine.entered_evolves w stack c vm args, rfl, le_refl _⟩

/-- From one world to the other closures are made at most with as many captured variables as their
prototypes declare. -/
structure Makes (w w' : World) : Prop where
  /-- The world has evolved. -/
  evolves : w.Evolves w'
  /-- A closure was there, or has what its prototype declares. -/
  closures : ∀ {id c}, w'.function? id = some (.closure c) →
    w.function? id = some (.closure c) ∨ w'.Declares c

theorem Grows.makes (h : w.Grows w') : w.Makes w' where
  evolves := h.evolves
  closures hc := .inl (by rw [← hc, function?, function?, h.functions])

theorem Makes.trans (h : u.Makes v) (h' : v.Makes w) : u.Makes w where
  evolves := h.evolves.trans h'.evolves
  closures hc := by
    rcases h'.closures hc with hc | hnew
    · exact (h.closures hc).imp_right h'.evolves.declares
    · exact .inr hnew

end World

/-! ## Closures and frames -/

/-- The closures of a world are main closures or have the captured variables that their prototypes
declare, and all captured variables of closures and frames are cells. -/
structure Bound (w : World) (frames : List Frame) : Prop where
  /-- There are as many captured variables as are declared. -/
  declared : ∀ {id c}, w.function? id = some (.closure c) → w.IsMain c ∨ w.Declares c
  /-- Those of closures are cells. -/
  closures : ∀ {id c}, w.function? id = some (.closure c) → w.cells.Has c.upvalues
  /-- Those of frames are cells. -/
  frames : ∀ f ∈ frames, w.cells.Has f.upvalues

namespace Bound

variable {w w' : World} {frames frames' : List Frame}

/-- What makes no functions leaves closures as they should be. -/
theorem grows (h : Bound w frames) (hgrows : w.Grows w')
    (hframes : ∀ f ∈ frames', w.cells.Has f.upvalues) : Bound w' frames' := by
  have hfunction : ∀ id, w'.function? id = w.function? id := fun id => by
    rw [World.function?, World.function?, hgrows.functions]
  refine ⟨fun {id c} hc => ?_, fun {id c} hc => ?_, fun f hf => ?_⟩
  · rw [hfunction] at hc
    exact (h.declared hc).imp hgrows.evolves.isMain hgrows.evolves.declares
  · rw [hfunction] at hc
    exact (h.closures hc).mono hgrows.size_le
  · exact (hframes f hf).mono hgrows.size_le

/-- A function is made that is as it should be, if it is a closure. -/
theorem push {body : FunctionBody} (h : Bound w frames) (hevolves : w.Evolves w')
    (hcells : w'.cells = w.cells) (hfunctions : w'.functions = w.functions.push body)
    (hbody : ∀ c, body = .closure c → (w'.IsMain c ∨ w'.Declares c) ∧ w'.cells.Has c.upvalues) :
    Bound w' frames := by
  have hfunction : ∀ {id c}, w'.function? id = some (.closure c) →
      w.function? id = some (.closure c) ∨ body = .closure c := fun {id c} hc => by
    rw [World.function?, hfunctions, Array.getElem?_push] at hc
    split at hc
    · exact .inr (Option.some.inj hc)
    · exact .inl hc
  refine ⟨fun {id c} hc => ?_, fun {id c} hc => ?_, fun f hf => hcells ▸ h.frames f hf⟩
  · rcases hfunction hc with hold | hnew
    · exact (h.declared hold).imp hevolves.isMain hevolves.declares
    · exact (hbody c hnew).1
  · rcases hfunction hc with hold | hnew
    · exact hcells ▸ h.closures hold
    · exact (hbody c hnew).2

/-- The main closure of a machine that is made is one. -/
theorem createVm (h : Bound w frames) (m : Module) (environment : Option TableId)
    (settings : Settings) : Bound (w.createVm m environment settings).2 frames := by
  refine h.push (w.evolves_createVm m environment settings) rfl rfl fun c hc => ?_
  cases hc
  refine ⟨.inl ⟨{ module := m, environment, settings }, ?_, rfl, rfl⟩, fun k id hid => ?_⟩
  · show (w.vms.push _)[w.vms.size]? = _
    simp
  · simp at hid

end Bound

namespace Running

variable {s t u : Running}

/-- From one state to the other closures are made at most with the captured variables that their
prototypes declare. -/
structure Binds (s t : Running) : Prop where
  /-- The world has evolved. -/
  evolves : s.world.Evolves t.world
  /-- No cell has gone. -/
  size_le : s.world.cells.cells.size ≤ t.world.cells.cells.size
  /-- The frames have the captured variables that they had. -/
  upvalues : t.frames.map (·.upvalues) = s.frames.map (·.upvalues)
  /-- A closure was there, or is as it should be. -/
  closures : ∀ {id c}, t.world.function? id = some (.closure c) →
    s.world.function? id = some (.closure c) ∨
      (t.world.Declares c ∧ t.world.cells.Has c.upvalues)

theorem Binds.of_grows (h : s.world.Grows t.world)
    (hupvalues : t.frames.map (·.upvalues) = s.frames.map (·.upvalues)) : s.Binds t where
  evolves := h.evolves
  size_le := h.size_le
  upvalues := hupvalues
  closures hc := .inl (by rw [← hc, World.function?, World.function?, h.functions])

theorem Binds.trans (h : s.Binds t) (h' : t.Binds u) : s.Binds u where
  evolves := h.evolves.trans h'.evolves
  size_le := h.size_le.trans h'.size_le
  upvalues := h'.upvalues.trans h.upvalues
  closures hc := by
    rcases h'.closures hc with hc | hnew
    · rcases h.closures hc with hc | ⟨hdeclares, hhas⟩
      · exact .inl hc
      · exact .inr ⟨h'.evolves.declares hdeclares, hhas.mono h'.size_le⟩
    · exact .inr hnew

/-- Basic effects that make no closure. -/
theorem moving_binds : Effect.Moving Binds where
  refl s := .of_grows (.refl _) rfl
  trans h h' := h.trans h'
  fault s f := .of_grows (.refl _) rfl
  frame s f hf _ := .of_grows (.refl _) (by simp [frames, hf.upvalues])
  moved s pc := .of_grows (.refl _) rfl
  heap s heap := .of_grows (World.routine_grows.heap _ heap) rfl
  perform s p _ := .of_grows (p.perform_keeps World.routine_grows.toHosted s.world) rfl
  trace s line := .of_grows ⟨Effect.steady_evolves.trace s line, rfl, le_refl _⟩ rfl
  writeCell id value s := by
    unfold Effect.after Effect.writeCell
    split
    · exact .of_grows ⟨.of_same rfl rfl, rfl, (Cells.evolves_replace_closed _ _ _).size_le⟩ rfl
    · split
      · exact .of_grows (.refl _) rfl
      · refine .of_grows (.refl _) ?_
        exact congrArg (List.cons _) (map_frames_putRegister (fun _ _ _ => rfl) _ _ _ _)
  closedCell value s :=
    .of_grows ⟨.of_same rfl rfl, rfl, (Cells.evolves_create _ _).size_le⟩ rfl
  captureRegister slot s :=
    .of_grows ⟨.of_same rfl rfl, rfl, (Scope.evolves_capture _ _ _).size_le⟩ rfl
  closeFrom slot s :=
    .of_grows ⟨.of_same rfl rfl, rfl, (Scope.evolves_closeFrom _ _ _).size_le⟩ rfl

theorem looping_binds : Effect.Looping Binds where
  setIterator _ _ _ := .of_grows (.refl _) rfl
  dropIterator _ _ := .of_grows (.refl _) rfl

/-- What instructions do leaves closures and frames as they should be. -/
theorem Binds.bound (h : s.Binds t) (hs : Bound s.world s.frames) : Bound t.world t.frames where
  declared hc := by
    rcases h.closures hc with hold | ⟨hdeclares, -⟩
    · exact (hs.declared hold).imp h.evolves.isMain h.evolves.declares
    · exact .inr hdeclares
  closures hc := by
    rcases h.closures hc with hold | ⟨-, hhas⟩
    · exact (hs.closures hold).mono h.size_le
    · exact hhas
  frames f hf := by
    have hmem := List.mem_map_of_mem (f := (·.upvalues)) hf
    rw [h.upvalues] at hmem
    obtain ⟨g, hg, heq⟩ := List.mem_map.1 hmem
    exact heq ▸ (hs.frames g hg).mono h.size_le

end Running

/-! ## Instructions -/

namespace Effect

variable {s : Running}

/-- Making a closure gives it what its prototype declares. -/
theorem binds_makeClosure (hs : s.Sound) {vm : Vm} (hvm : s.world.vm? s.frame.vm = some vm)
    (target index : Nat) (shares : Bool) :
    UpholdsAt (.of Running.Binds) s (makeClosure target index shares) := by
  have hcalm := Running.moving_binds.toCalm
  have hsame : s.vm = vm := by
    unfold World.vm? at hvm
    unfold Running.vm
    rw [Array.getD_eq_getD_getElem?, hvm, Option.getD_some]
  refine upholds_bind_at hcalm (keeps_vm hcalm s) fun vm' t ht => ?_
  cases ht
  refine upholds_bind_at hcalm (keeps_captures Running.moving_binds _ _ _ s) fun ids t ht => ?_
  obtain ⟨hlength, hpasses⟩ := passes_of_captures hs ht
  have hmade : t.Binds ((createClosure index ids.toArray).after t) := by
    refine ⟨t.world.evolves_createFunction _, le_refl _, rfl, fun {id c} hc => ?_⟩
    have hpush : (t.world.functions.push _)[id.index]? = some (.closure c) := hc
    rw [Array.getElem?_push] at hpush
    split at hpush
    · cases hpush
      refine .inr ⟨⟨vm, ?_, ?_⟩, fun k u hu => ?_⟩
      · show t.world.vm? t.frame.vm = some vm
        rw [hpasses.world, hpasses.frame]
        exact hvm
      · rw [← hsame]
        exact hlength
      · exact hpasses.made u (List.mem_of_getElem? (by simpa using hu))
    · exact .inl hpush
  exact upholds_bind_at hcalm hmade fun f u _ => keeps_put hcalm _ _ u

/-- So whatever operation executes, closures are made at most with what their prototypes declare. -/
theorem binds_execute (hs : s.Sound) {vm : Vm} (hvm : s.world.vm? s.frame.vm = some vm)
    (op : Opcode) (i : Instruction) : UpholdsAt (.of Running.Binds) s (execute op i) := by
  have hV := Running.moving_binds
  have hcalm := hV.toCalm
  by_cases hnew : op = .newClosure
  · subst hnew
    exact upholds_bind_at hcalm (upholdsAt_newClosure hcalm fun index =>
      binds_makeClosure hs hvm _ index true) fun _ t _ => keeps_pure hcalm _ t
  by_cases hdup : op = .dupClosure
  · subst hdup
    exact upholds_bind_at hcalm (upholdsAt_dupClosure hcalm fun index =>
      binds_makeClosure hs hvm _ index false) fun _ t _ => keeps_pure hcalm _ t
  have harity := keeps_loopArity hcalm hcalm.refl
  exact keeps_execute hV op (fun _ s => .of_grows ⟨steady_evolves.countHit s, rfl, le_refl _⟩ rfl)
    (fun h => absurd h (not_or.2 ⟨hnew, hdup⟩)) (fun _ => hcalm.refl)
    (fun _ => keeps_genericPrep hV Running.looping_binds hcalm.refl i)
    (fun _ => keeps_genericLoop hV Running.looping_binds (harity i)) s

end Effect

/-! ## Runs -/

namespace Machine

variable {m : Machine}

/-- The frame that a call makes has the captured variables of a closure that is there. -/
theorem entering_closure {s : Running} {overflows : Bool} (h : m.entering? = some (s, overflows)) :
    ∃ id c vm args, m.world.function? id = some (.closure c) ∧
      s = entered m.world m.stack c vm args := by
  unfold entering? at h
  split at h
  · split at h
    · rename_i c hc
      dsimp only at h
      split at h
      · cases h
        exact ⟨_, c, _, _, hc, rfl⟩
      · cases h
    · cases h
  · cases h

/-- The operation of an instruction executes on a state whose cells are as they should be, and so
are its closures, in a frame of a machine that is there. -/
theorem sound_of_prelude (hm : m.Anchored) (hbound : Bound m.world m.frames) {f : Frame}
    {i : Instruction} {t : Running} (hi : m.dispatching? = some (f, i))
    (ht : Effect.prelude i ⟨m.world, f, m.stack⟩ = .ok none t) :
    t.Sound ∧ Bound t.world t.frames ∧ ∃ vm, t.world.vm? t.frame.vm = some vm := by
  obtain ⟨hcontrol, hnext⟩ := dispatching_spec hi
  have hframes : m.frames = f :: m.stack.frames := by
    unfold frames
    rw [hcontrol]
  have hfollows := (Effect.keeps_prelude Running.steady_follows.toMoving i).ends _ _ _ ht
  have hbinds := (Effect.keeps_prelude Running.moving_binds i).ends _ _ _ ht
  have haside : Effect.Aside _ t := Effect.ends_prelude i _ _ ht
  have hanchored : t.Anchored := hfollows.anchored (by
    unfold Running.Anchored Running.frames
    rw [← hframes]
    exact hm)
  have ht' : Bound t.world t.frames := hbinds.bound (by
    unfold Running.frames
    rw [← hframes]
    exact hbound)
  have hmem : t.frame ∈ t.frames := List.mem_cons_self
  refine ⟨⟨hanchored.tracks _ hmem, ht'.frames _ hmem⟩, ht', ?_⟩
  obtain ⟨⟨vm, hvm⟩, -⟩ := code_of_next (s := ⟨m.world, f, m.stack⟩) hnext
  obtain ⟨vm', hvm', -⟩ := haside.evolves.machine hvm
  rw [haside.frame]
  exact ⟨vm', hvm'⟩

theorem bound_endWith {s : Running} (h : Bound s.world s.frames)
    (result : Except Failure (List Value)) :
    Bound (s.endWith result).world (s.endWith result).frames := by
  refine h.grows (endWith_world World.routine_grows s result) fun f hf => ?_
  rw [Running.endWith_frames] at hf
  exact h.frames f (List.mem_cons_of_mem _ hf)

/-- What an instruction does that is dispatched. -/
theorem binds_dispatch (hm : m.Anchored) (h : Bound m.world m.frames) {f : Frame} {i : Instruction}
    (hi : m.dispatching? = some (f, i)) :
    Running.Binds ⟨m.world, f, m.stack⟩ ((Effect.dispatch i).after ⟨m.world, f, m.stack⟩) := by
  refine Effect.upholdsAt_dispatch Running.moving_binds fun t ht => ?_
  obtain ⟨hsound, -, vm, hvm⟩ := sound_of_prelude hm h hi ht
  exact Effect.binds_execute hsound hvm _ i

/-- Every step leaves closures and frames as they should be. -/
theorem bound_step (hm : m.Anchored) (h : Bound m.world m.frames) :
    Bound m.step.world m.step.frames := by
  cases hacting : m.acting? with
  | some r =>
    obtain ⟨s, hworld, hframes, -, hbinds⟩ :=
      keeps_acting_of Running.moving_binds (fun f i hi => binds_dispatch hm h hi) hacting
    have ht : Bound (Effect.stateOf r).world (Effect.stateOf r).frames :=
      hbinds.bound (hworld ▸ hframes ▸ h)
    rw [step_of_acting hacting]
    rcases ofOutcome_cases r with ⟨-, hworld', hframes', -⟩ | ⟨result, -, hends⟩
    · rw [hworld', hframes']
      exact ht
    · rw [hends]
      exact bound_endWith ht result
  | none =>
    cases hentering : m.entering? with
    | some entering =>
      obtain ⟨s, overflows⟩ := entering
      obtain ⟨-, -, -, -, hframes, -⟩ := entering_spec hentering
      obtain ⟨id, c, vm, args, hc, rfl⟩ := entering_closure hentering
      have hs : Bound (entered m.world m.stack c vm args).world
          (entered m.world m.stack c vm args).frames := by
        refine h.grows (World.routine_grows.entered _ _ _ _ _) fun f hf => ?_
        rcases List.mem_cons.1 hf with rfl | hf
        · exact h.closures hc
        · exact h.frames f (hframes ▸ hf)
      rw [step_of_entering hentering]
      split
      · exact bound_endWith hs _
      · exact hs
    | none =>
      obtain ⟨p, hworld, hframes, -⟩ := step_of_resting hacting hentering
      rw [hworld, hframes]
      exact h.grows (p.settle_keeps World.routine_grows.toHosted _) h.frames

/-- A moment that comes about when the host makes no closures by hand: it loads modules, makes
functions of its own, and calls. -/
inductive Arises : Machine → Prop where
  /-- Nothing has happened yet. -/
  | idle : Arises idle
  /-- The run goes on. -/
  | step {m : Machine} (h : Arises m) : Arises m.step
  /-- The host acts between calls. -/
  | acts {m : Machine} {outcome : Except Failure (List Value)} {w : World} (h : Arises m)
    (ended : m.outcome? = some outcome) (host : m.world.Acts w)
    (plain : ∀ c, w ≠ (m.world.createFunction (.closure c)).2) : Arises { m with world := w }
  /-- The host makes another call. -/
  | calls {m : Machine} {outcome : Except Failure (List Value)} (h : Arises m)
    (ended : m.outcome? = some outcome) (function : Value) (args : List Value) :
    Arises (.start m.world function args)

theorem Arises.reached (h : m.Arises) : m.Reached := by
  induction h with
  | idle => exact .refl
  | step _ ih => exact ih.tail .step
  | acts _ ended host _ ih => exact ih.tail (.acts ended host)
  | calls _ ended function args ih => exact ih.tail (.calls ended function args)

theorem Arises.iterate (h : m.Arises) (k : Nat) : (Machine.step^[k] m).Arises := by
  induction k with
  | zero => exact h
  | succ k ih =>
    rw [Function.iterate_succ_apply']
    exact ih.step

/-- At every such moment closures and frames are as they should be. -/
theorem Arises.bound (h : m.Arises) : Bound m.world m.frames := by
  induction h with
  | idle =>
    refine ⟨fun {id c} hc => ?_, fun {id c} hc => ?_, fun f hf => ?_⟩
    · simp [Machine.idle, World.function?] at hc
    · simp [Machine.idle, World.function?] at hc
    · cases hf
  | step h ih => exact bound_step h.reached.anchored ih
  | @acts m outcome w h ended host plain ih =>
    show Bound w m.frames
    cases host with
    | performs p => exact ih.grows (p.settle_keeps World.routine_grows.toHosted _) ih.frames
    | loads hload =>
      obtain ⟨n, heap, -, heq⟩ := World.createVm_of_loadBytes hload
      obtain rfl : _ = w := congrArg Prod.snd heq
      exact (ih.grows (World.routine_grows.heap _ heap) ih.frames).createVm n _ _
    | creates module environment settings => exact ih.createVm module environment settings
    | makes body =>
      refine ih.push (World.evolves_createFunction _ _) rfl rfl fun c hc => ?_
      exact absurd (by rw [hc]) (plain c)
    | stores heap => exact ih.grows (World.routine_grows.heap _ heap) ih.frames
    | resets id =>
      exact ih.grows ⟨World.Acts.evolves (.resets id), rfl, le_refl _⟩ ih.frames
  | calls h ended function args ih =>
    exact ⟨ih.declared, ih.closures, fun f hf => by cases hf⟩

end Machine

end ScriptMachine
