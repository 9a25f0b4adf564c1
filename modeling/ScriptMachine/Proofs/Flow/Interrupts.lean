import ScriptMachine.Proofs.Calls.Waiting
import ScriptMachine.Proofs.Flow.Runs

/-!
# Where the interrupt hook is called

The interrupt hook is there so that no script can run for ever without the host being asked.  Six
operations call it, and a frame can come back to a slot of its code only by one of them or by a jump
that leads back and calls no hook.  The second way is open: a plain jump to itself runs for ever.
-/

namespace ScriptMachine

/-! ## Operations that call the hook -/

/-- An operation that calls the interrupt hook before it does anything else. -/
def Opcode.interrupts : Opcode → Bool
  | .call | .ret | .genericLoop | .numericLoop | .jumpBack | .jumpExtended => true
  | _ => false

namespace Effect

variable {op : Opcode} {s : Running}

theorem execute_of_interrupts (h : op.interrupts = true) (i : Instruction) :
    ∃ rest, execute op i = interrupt op >>= fun _ => rest := by
  cases op with
  | call | ret | genericLoop => exact ⟨_, rfl⟩
  | jumpBack | jumpExtended =>
    simp only [execute, executePlain, bind_assoc]
    exact ⟨_, rfl⟩
  | numericLoop =>
    simp only [execute, executePlain, numericLoop, bind_assoc]
    exact ⟨_, rfl⟩
  | _ => cases h

/-- All other operations go straight on. -/
theorem next_of_execute (h : op.interrupts = false) {i : Instruction} {outcome : Outcome}
    {t : Running} (hx : execute op i s = .ok outcome t) : outcome = .next := by
  unfold execute at hx
  split at hx
  · cases h
  · cases h
  · cases h
  · obtain ⟨_, u, -, hlast⟩ := ok_of_bind hx
    cases hlast
    rfl

end Effect

/-! ## Leading back -/

namespace Prototype.WellFormed

variable {p : Prototype} {count k slot : Nat} {i : Instruction} {s s' : Slot}

/-- Behind the words of an instruction the slots go on. -/
theorem displace_past (hp : p.WellFormed count) (hsize : p.code.size < 2 ^ 32)
    (hs' : p.code[k]? = some s') (h : s.VersionOf s')
    (haux : s.asInstruction.underlying.info.hasAux = true) :
    Frame.displace (k + 1) 1 = k + 2 := by
  cases h with
  | aux word => cases haux
  | instruction hij =>
    have hsucc := hp.isAux_succ hs'
    rw [← hij.underlying] at hsucc
    obtain ⟨word, hword⟩ := isAux_iff.1 (hsucc.trans haux)
    have hlt := (Array.getElem?_eq_some_iff.1 hword).1
    unfold Frame.displace
    omega

/-- An instruction leads forward, or it jumps back. -/
theorem lt_of_leads (hp : p.WellFormed count) (hsize : p.code.size < 2 ^ 32)
    (hs' : p.code[k]? = some s') (h : s.VersionOf s')
    (hleads : p.Leads s.asInstruction (k + 1) slot) :
    k < slot ∨ slot ≤ k ∧ ∃ distance ∈ s.asInstruction.distances,
      slot = Frame.displace (k + 1) distance := by
  cases hleads with
  | on hone => exact .inl (Nat.lt_succ_self k)
  | past htwo =>
    left
    rw [hp.displace_past hsize hs' h htwo]
    omega
  | @jumps distance hdistance =>
    by_cases hback : Frame.displace (k + 1) distance ≤ k
    · exact .inr ⟨hback, distance, hdistance, rfl⟩
    · exact .inl (Nat.lt_of_not_le hback)
  | captured hmakes hcaptures => exact .inl (by omega)
  | spliced hlooks hcall hcalls =>
    left
    rw [hp.displace_past hsize hs' h (by rw [hlooks]; rfl)]
    omega

end Prototype.WellFormed

/-! ## Runs with an interrupt hook -/

/-- A machine has an interrupt hook. -/
def World.Interruptible (w : World) (id : VmId) : Prop :=
  ∃ vm hook, w.vm? id = some vm ∧ vm.settings.hooks.interrupt = some hook

/-- The hook stays. -/
theorem World.Evolves.interruptible {w w' : World} {id : VmId} (h : w.Evolves w')
    (hw : w.Interruptible id) : w'.Interruptible id := by
  obtain ⟨vm, hook, hvm, hhook⟩ := hw
  obtain ⟨vm', hvm', hevolves⟩ := h.machine hvm
  exact ⟨vm', hook, hvm', by rw [hevolves.settings, hhook]⟩

/-- A loaded machine runs its module, with the settings that it has been given. -/
theorem World.runs_of_loadBytes {w w' : World} {bytes : Bytes} {environment : Option TableId}
    {settings : Settings} {entry : Entry}
    (h : w.loadBytes bytes environment settings = .ok (entry, w')) :
    ∃ n heap, settings.toLoadOptions.load bytes w.heap = .ok (n, heap) ∧ w'.Runs entry.vm n ∧
      ∃ vm, w'.vm? entry.vm = some vm ∧ vm.settings = settings := by
  obtain ⟨n, heap, hload, heq⟩ := createVm_of_loadBytes h
  cases heq
  refine ⟨n, heap, hload, runs_createVm _ (LoadOptions.load_unpatched _ hload) _ _,
    { module := n, environment, settings }, ?_, rfl⟩
  show (w.vms.push _)[w.vms.size]? = _
  simp

namespace Machine

variable {m : Machine} {n : Module} {f g : Frame} {i i' : Instruction} {k : Nat}

/-- In the next step a frame calls its interrupt hook: nothing keeps its instruction from the
operation, and that begins with the call. -/
def CallsInterrupt (m : Machine) (id : FrameId) : Prop :=
  ∃ f i t hook rest, m.dispatching? = some (f, i) ∧ f.id = id ∧
    Effect.prelude i ⟨m.world, f, m.stack⟩ = .ok none t ∧
    t.vm.settings.hooks.interrupt = some hook ∧
    Effect.execute i.operation i = Effect.interrupt i.operation >>= fun _ => rest

/-- In the next step a frame jumps to a slot that does not come after that of its instruction, whose
operation is none of those that call the interrupt hook. -/
def JumpsBack (m : Machine) (id : FrameId) : Prop :=
  ∃ f i g, m.dispatching? = some (f, i) ∧ f.id = id ∧ i.operation.interrupts = false ∧
    m.step.control = .run g ∧ g.id = id ∧ g.pc ≤ f.pc ∧
    ∃ distance ∈ i.distances, g.pc = Frame.displace (f.pc + 1) distance

/-- What becomes of a frame that is about to run an instruction. -/
inductive Advance (m : Machine) (f : Frame) : Prop where
  /-- Its interrupt hook is called. -/
  | interrupts (h : m.CallsInterrupt f.id)
  /-- It jumps back without that. -/
  | back (h : m.JumpsBack f.id)
  /-- It ends. -/
  | ends {s : Running} {result : Except Failure (List Value)} (h : m.ending? = some (s, result))
    (id : s.frame.id = f.id)
  /-- It goes on behind the instruction. -/
  | on {g : Frame} (run : m.step.control = .run g) (id : g.id = f.id) (vm : g.vm = f.vm)
    (lt : f.pc < g.pc)

/-- A frame that runs an instruction calls its interrupt hook, jumps back, ends or goes on. -/
theorem advance (hn : n.Loaded) (hruns : m.world.Runs f.vm n)
    (hhook : m.world.Interruptible f.vm) (hi : m.dispatching? = some (f, i)) : m.Advance f := by
  obtain ⟨-, hnext⟩ := dispatching_spec hi
  have hacting := acting_of_dispatching hi
  have hfollows := Effect.keeps_dispatch Running.steady_follows i ⟨m.world, f, m.stack⟩
  have hcode := Effect.keeps_dispatch Running.steady_sameCode i ⟨m.world, f, m.stack⟩
  have hid := (List.cons.inj hfollows.ids).1
  have hvm := hcode.vm
  unfold Effect.after at hid hvm
  cases hdispatch : Effect.dispatch i ⟨m.world, f, m.stack⟩ with
  | error failure t =>
    rw [hdispatch] at hacting hid
    exact .ends (ending_of_acting hacting rfl) hid
  | ok outcome t =>
    rw [hdispatch] at hacting hid hvm
    have hwhole := hdispatch
    rw [Effect.dispatch_eq] at hdispatch
    obtain ⟨early, s, hprelude, hbody⟩ := Effect.ok_of_bind hdispatch
    cases early with
    | some results =>
      cases hbody
      exact .ends (ending_of_acting hacting rfl) hid
    | none =>
      by_cases hinterrupts : i.operation.interrupts = true
      · obtain ⟨rest, hrest⟩ := Effect.execute_of_interrupts hinterrupts i
        obtain ⟨vm, hook, hvm', hhook⟩ := hhook
        have hsettings := (Effect.ends_prelude i _ _ hprelude).settings hvm'
        exact .interrupts ⟨f, i, s, hook, rest, hi, rfl, hprelude, hsettings ▸ hhook, hrest⟩
      · have hquiet := Bool.eq_false_iff.2 hinterrupts
        obtain rfl := Effect.next_of_execute hquiet hbody
        have hrun : m.step.control = .run t.frame := by
          rw [step_of_acting hacting]
          rfl
        -- the slot at which the frame goes on is one to which the instruction leads
        obtain ⟨vm, x, y, -, -, hy, hxy, rfl⟩ := versionOf_of_next hruns hnext
        have hleads := Effect.ends_dispatch (s := ⟨m.world, f, m.stack⟩) hruns hxy.operation
          _ _ hwhole _ List.mem_cons_self
        have hmem := Module.mem_of_code hy
        have hp := hn.wellFormed.prototypes _ hmem
        rcases hp.lt_of_leads (hn.size_lt _ hmem) hy hxy hleads with hlt | ⟨hle, hdistance⟩
        · exact .on hrun hid hvm hlt
        · exact .back ⟨f, _, t.frame, hi, rfl, hquiet, hrun, hid, hle, hdistance⟩

/-- A frame without an instruction to run ends. -/
theorem ending_of_no_instruction (hf : m.control = .run f) (hi : m.dispatching? = none) :
    m.ending? = some (⟨m.world, f, m.stack⟩, .ok []) := by
  obtain ⟨w, stack, control⟩ := m
  cases hf
  have hnone : nextInstruction? w f = none := by
    unfold dispatching? at hi
    simpa using hi
  refine ending_of_acting (r := .ok (.leave []) ⟨w, f, stack⟩) ?_ rfl
  unfold acting?
  dsimp only
  rw [hnone]

/-- Where a frame is some steps after an instruction, as long as it has neither called its interrupt
hook nor jumped back. -/
inductive Further (m : Machine) (f : Frame) (k : Nat) : Prop where
  /-- It is gone for good. -/
  | gone (h : ∀ o, (step^[k] m).Advances o → f.id ∉ o.frameIds)
  /-- It runs behind the instruction. -/
  | runs {g : Frame} (run : (step^[k] m).control = .run g) (id : g.id = f.id) (vm : g.vm = f.vm)
    (lt : f.pc < g.pc)

theorem further_of_advance (hm : m.Anchored) (hquiet : ¬ m.CallsInterrupt f.id)
    (hback : ¬ m.JumpsBack f.id) (h : m.Advance f) : m.Further f 1 := by
  cases h with
  | interrupts h => exact absurd h hquiet
  | back h => exact absurd h hback
  | ends h hid => exact .gone fun o ho => hid ▸ hm.not_mem_of_ending h ho
  | on hrun hid hvm hlt => exact .runs hrun hid hvm hlt

/-- As long as a frame neither calls its interrupt hook nor jumps back, it goes forward in its code
until it ends. -/
theorem further (hn : n.Loaded) (hm : m.Anchored) (hruns : m.world.Runs f.vm n)
    (hhook : m.world.Interruptible f.vm) (hi : m.dispatching? = some (f, i))
    (hquiet : ∀ l < k + 1, ¬ (step^[l] m).CallsInterrupt f.id)
    (hback : ∀ l < k + 1, ¬ (step^[l] m).JumpsBack f.id) : m.Further f (k + 1) := by
  induction k with
  | zero =>
    exact further_of_advance hm (hquiet 0 (by omega)) (hback 0 (by omega))
      (advance hn hruns hhook hi)
  | succ k ih =>
    have hlater := (advances_iterate m (k + 1)).anchored hm
    have hevolves := iterate_evolves m (k + 1)
    have hsucc : step^[k + 1 + 1] m = (step^[k + 1] m).step :=
      Function.iterate_succ_apply' step (k + 1) m
    cases ih (fun l hl => hquiet l (by omega)) fun l hl => hback l (by omega) with
    | gone h =>
      refine .gone fun o ho => h o ?_
      rw [hsucc] at ho
      exact (advances_step _).trans ho
    | @runs g hrun hid hvm hlt =>
      cases hi' : (step^[k + 1] m).dispatching? with
      | none =>
        have hending := ending_of_no_instruction hrun hi'
        refine .gone fun o ho => ?_
        rw [hsucc] at ho
        exact hid ▸ hlater.not_mem_of_ending hending ho
      | some next =>
        obtain ⟨g', j⟩ := next
        obtain ⟨hrun', -⟩ := dispatching_spec hi'
        cases hrun.symm.trans hrun'
        have hstep := advance hn (hvm ▸ hevolves.runs hruns) (hvm ▸ hevolves.interruptible hhook) hi'
        rw [← hid] at hquiet hback
        cases further_of_advance hlater (hquiet _ (by omega)) (hback _ (by omega)) hstep with
        | gone h =>
          refine .gone fun o ho => hid ▸ h o ?_
          rw [hsucc] at ho
          exact ho
        | runs hrun' hid' hvm' hlt' =>
          refine .runs ?_ (hid'.trans hid) (hvm'.trans hvm) (hlt.trans hlt')
          rw [hsucc]
          exact hrun'

/-- Only jumps back that call no hook escape the interrupt hook.  When a frame of a machine with an
interrupt hook runs a slot of its code again, then in between it has called the hook, or it has
jumped back by an instruction that is none of the six that call it: whatever module was loaded, and
whatever breakpoints are set and hooks and functions of the host do. -/
theorem interrupted_or_jumped_back {options : LoadOptions} {bytes : Bytes} {heap heap' : Heap}
    (hload : options.load bytes heap = .ok (n, heap')) (hm : m.Reached)
    (hruns : m.world.Runs f.vm n) (hhook : m.world.Interruptible f.vm)
    (hi : m.dispatching? = some (f, i)) (hk : 0 < k)
    (hagain : (step^[k] m).dispatching? = some (g, i')) (hid : g.id = f.id) (hpc : g.pc = f.pc) :
    (∃ l < k, (step^[l] m).CallsInterrupt f.id) ∨ ∃ l < k, (step^[l] m).JumpsBack f.id := by
  by_contra hnot
  simp only [not_or, not_exists, not_and] at hnot
  obtain ⟨hquiet, hback⟩ := hnot
  obtain ⟨k, rfl⟩ := Nat.exists_eq_succ_of_ne_zero hk.ne'
  obtain ⟨hrun, -⟩ := dispatching_spec hagain
  cases further (LoadOptions.loaded_of_load hload) hm.anchored hruns hhook hi hquiet hback with
  | gone h => exact h _ (.refl _) (hid ▸ mem_frameIds_of_run hrun)
  | runs hrun' _ _ hlt =>
    cases hrun.symm.trans hrun'
    exact absurd hpc hlt.ne'

/-- A module whose main function jumps to its own first instruction. -/
def spinningModule : Bytes :=
  [6, 1, 0, 1, 1, 0, 0, 0, 0, 0, 1, 0x17, 0, 0xff, 0xff, 0, 0, 0, 0, 0, 0, 0]

/-- Settings whose interrupt hook fails. -/
def interruptingSettings : Settings :=
  { hooks := { interrupt := some fun _ => .fail (.foreign (.ofString "interrupted")) } }

/-- The main function jumps back to its slot at once. -/
theorem interrupted_or_jumped_back_in_spinningModule :
    ∃ entry w f g i i', World.loadBytes {} spinningModule none interruptingSettings =
        .ok (entry, w) ∧
      let m := step^[1] (start w (.function entry.main) [])
      m.dispatching? = some (f, i) ∧ (step^[1] m).dispatching? = some (g, i') ∧ g.id = f.id ∧
        g.pc = f.pc ∧
        ((∃ l < 1, (step^[l] m).CallsInterrupt f.id) ∨ ∃ l < 1, (step^[l] m).JumpsBack f.id) := by
  have hcheck : (World.loadBytes {} spinningModule none interruptingSettings).toOption.any
      (fun loaded =>
        let m := step^[1] (start loaded.2 (.function loaded.1.main) [])
        m.dispatching?.any fun next => (step^[1] m).dispatching?.any fun again =>
          decide (next.1.vm = loaded.1.vm) && decide (again.1.id = next.1.id) &&
            decide (again.1.pc = next.1.pc)) = true := by
    decide +kernel
  obtain ⟨entry, w, hload, hcheck⟩ := World.exists_of_loadBytes hcheck
  dsimp only at hcheck
  obtain ⟨n, heap, hmodule, hruns, vm, hvm, hsettings⟩ := World.runs_of_loadBytes hload
  have hevolves := iterate_evolves (start w (.function entry.main) []) 1
  have hhook : w.Interruptible entry.vm := ⟨vm, _, hvm, by rw [hsettings]; rfl⟩
  have hreached := (reached_start hload (.function entry.main) []).iterate 1
  refine ⟨entry, w, ?_⟩
  generalize step^[1] (start w (.function entry.main) []) = m at hcheck hreached hevolves ⊢
  obtain ⟨⟨f, i⟩, hi, hcheck⟩ := (Option.any_eq_true _ _).1 hcheck
  obtain ⟨⟨g, i'⟩, hagain, hcheck⟩ := (Option.any_eq_true _ _).1 hcheck
  simp only [Bool.and_eq_true, decide_eq_true_eq] at hcheck
  obtain ⟨⟨hf, hid⟩, hpc⟩ := hcheck
  have hback := interrupted_or_jumped_back hmodule hreached (hf ▸ hevolves.runs hruns)
    (hf ▸ hevolves.interruptible hhook) hi Nat.one_pos hagain hid hpc
  exact ⟨f, g, i, i', hload, hi, hagain, hid, hpc, hback⟩

/-! ## A script that is never interrupted -/

/-- A jump to itself leaves a run as it is. -/
theorem step_of_spinning (hi : m.dispatching? = some (f, i)) (hop : i.opcode = .jump)
    (hdistance : i.operands.d = -1) (hpc : f.pc = 0) (hcurrent : f.current = 0)
    (htrace : (Running.mk m.world f m.stack).vm.settings.trace = false)
    (hooks : (Running.mk m.world f m.stack).vm.settings.hooks.Transparent) : m.step = m := by
  obtain ⟨hf, -⟩ := dispatching_spec hi
  obtain ⟨w, stack, control⟩ := m
  cases hf
  have hoperation : i.operation = .jump := by
    unfold Instruction.operation
    rw [hop]
    rfl
  rw [step_of_acting (acting_of_dispatching hi), Effect.dispatch_eq,
    Effect.bind_of_ok (Effect.prelude_of_silent htrace hooks i)]
  show ofOutcome (Effect.execute i.operation i _) = _
  rw [hoperation]
  have hsame : ({ f with current := f.pc, pc := f.pc + 1 } : Frame).jump i.operands.d = f := by
    rw [hdistance, hpc]
    unfold Frame.jump
    cases f
    cases hpc
    cases hcurrent
    rfl
  exact congrArg (fun g => (⟨w, stack, .run g⟩ : Machine)) hsame

/-- A plain jump does not call the interrupt hook. -/
theorem not_callsInterrupt_of_jump (hi : m.dispatching? = some (f, i))
    (hop : i.operation = .jump) (id : FrameId) : ¬ m.CallsInterrupt id := by
  rintro ⟨f', i', t, hook, rest, hi', -, -, -, heq⟩
  cases hi.symm.trans hi'
  rw [hop] at heq
  -- with a hook that fails, a plain jump does not fail
  let w : World := { vms := #[{ Vm.empty with settings := interruptingSettings }] }
  have hfails := congrFun heq ⟨w, { f with vm := ⟨0⟩ }, []⟩
  cases hfails

/-- A script can run for ever without its interrupt hook being called, although the hook would end it
at once. -/
theorem spins_for_ever :
    ∃ entry w f i, World.loadBytes {} spinningModule none interruptingSettings = .ok (entry, w) ∧
      f.pc = 0 ∧ ∀ k, (step^[k + 1] (start w (.function entry.main) [])).dispatching? =
          some (f, i) ∧
        ∀ id, ¬ (step^[k + 1] (start w (.function entry.main) [])).CallsInterrupt id := by
  have hcheck : (World.loadBytes {} spinningModule none interruptingSettings).toOption.any
      (fun loaded =>
        let m := step^[1] (start loaded.2 (.function loaded.1.main) [])
        m.dispatching?.any fun next => decide (next.2.opcode = .jump) &&
          decide (next.2.operands.d = -1) && decide (next.1.pc = 0) &&
            decide (next.1.current = 0) && decide (next.1.vm = loaded.1.vm)) = true := by
    decide +kernel
  obtain ⟨entry, w, hload, hcheck⟩ := World.exists_of_loadBytes hcheck
  dsimp only at hcheck
  obtain ⟨n, heap, -, -, vm, hvm, hsettings⟩ := World.runs_of_loadBytes hload
  obtain ⟨vm', hvm', hevolves⟩ :=
    (iterate_evolves (start w (.function entry.main) []) 1).machine hvm
  obtain ⟨⟨f, i⟩, hi, hcheck⟩ := (Option.any_eq_true _ _).1 hcheck
  simp only [Bool.and_eq_true, decide_eq_true_eq] at hcheck
  obtain ⟨⟨⟨⟨hop, hdistance⟩, hpc⟩, hcurrent⟩, hf⟩ := hcheck
  refine ⟨entry, w, f, i, hload, hpc, fun k => ?_⟩
  rw [Function.iterate_add_apply]
  generalize step^[1] (start w (.function entry.main) []) = m at hi hvm' ⊢
  have hquiet : (Running.mk m.world f m.stack).vm.settings = interruptingSettings := by
    have hsame : (Running.mk m.world f m.stack).vm = vm' := by
      unfold Running.vm
      unfold World.vm? at hvm'
      rw [hf, Array.getD_eq_getD_getElem?, hvm', Option.getD_some]
    rw [hsame, hevolves.settings, hsettings]
  have hsilent : interruptingSettings.hooks.Transparent := .of_none rfl rfl
  have hspins : m.step = m :=
    step_of_spinning hi hop hdistance hpc hcurrent (by rw [hquiet]; rfl) (hquiet ▸ hsilent)
  rw [Function.iterate_fixed hspins]
  refine ⟨hi, not_callsInterrupt_of_jump hi ?_⟩
  unfold Instruction.operation
  rw [hop]
  rfl

end Machine

end ScriptMachine
