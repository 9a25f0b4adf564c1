import ScriptMachine.Proofs.Machine.Reports
import ScriptMachine.Proofs.Machine.Worlds

/-!
# Hosts that spare a machine

A module changes in two ways while a run goes on: instructions count their hits, and the host sets
and clears breakpoints.  When no program of the host ever does the second to a machine, then all
steps of a run leave its module alone but for the hits.  For a host that merely does not do so in
one run there is another host, to which it is forbidden, and the run is the same with both.
-/

namespace ScriptMachine

variable {id : VmId}

/-! ## Programs -/

namespace Program

variable {κ α : Type}

/-- However the program goes on, it sets and clears no breakpoint of a machine. -/
def Spares (id : VmId) : Program κ α → Prop
  | done _ | fail _ => True
  | call _ resume => ∀ answer, (resume answer).Spares id
  | get _ _ resume => ∀ value, (resume value).Spares id
  | set _ _ _ rest => rest.Spares id
  | next _ _ resume => ∀ pair, (resume pair).Spares id
  | length _ resume => ∀ n, (resume n).Spares id
  | write _ rest | close _ rest | release _ rest | record _ rest => rest.Spares id
  | breakpoint vm _ _ _ rest => vm ≠ id ∧ rest.Spares id
  | count _ _ resume => ∀ n, (resume n).Spares id

/-- The program of a host to which it is forbidden to set and clear breakpoints of a machine: where
it would do so, it fails. -/
def forbid (id : VmId) : Program κ α → Program κ α
  | done result => done result
  | fail failure => fail failure
  | call target resume => call target fun answer => (resume answer).forbid id
  | get t key resume => get t key fun value => (resume value).forbid id
  | set t key value rest => set t key value (rest.forbid id)
  | next t key resume => next t key fun pair => (resume pair).forbid id
  | length t resume => length t fun n => (resume n).forbid id
  | write bytes rest => write bytes (rest.forbid id)
  | close vm rest => close vm (rest.forbid id)
  | release vm rest => release vm (rest.forbid id)
  | breakpoint vm index slot enabled rest =>
    if vm = id then fail (.foreign []) else breakpoint vm index slot enabled (rest.forbid id)
  | record event rest => record event (rest.forbid id)
  | count vm kind resume => count vm kind fun n => (resume n).forbid id

theorem spares_forbid (p : Program κ α) : (p.forbid id).Spares id := by
  induction p with
  | done result => trivial
  | fail failure => trivial
  | call target resume ih => exact ih
  | get t key resume ih => exact ih
  | set t key value rest ih => exact ih
  | next t key resume ih => exact ih
  | length t resume ih => exact ih
  | write bytes rest ih => exact ih
  | close vm rest ih => exact ih
  | release vm rest ih => exact ih
  | «breakpoint» vm index slot enabled rest ih =>
    unfold forbid
    split
    · trivial
    · rename_i hvm
      exact ⟨hvm, ih⟩
  | record event rest ih => exact ih
  | count vm kind resume ih => exact ih

/-- To a program that spares the machine nothing is forbidden. -/
theorem Spares.forbid {p : Program κ α} (h : p.Spares id) : p.forbid id = p := by
  induction p with
  | done result => rfl
  | fail failure => rfl
  | call target resume ih => exact congrArg (call target) (funext fun answer => ih _ (h answer))
  | get t key resume ih => exact congrArg (get t key) (funext fun value => ih _ (h value))
  | set t key value rest ih => exact congrArg (set t key value) (ih h)
  | next t key resume ih => exact congrArg (next t key) (funext fun pair => ih _ (h pair))
  | length t resume ih => exact congrArg (length t) (funext fun n => ih _ (h n))
  | write bytes rest ih => exact congrArg (write bytes) (ih h)
  | close vm rest ih => exact congrArg (close vm) (ih h)
  | release vm rest ih => exact congrArg (release vm) (ih h)
  | «breakpoint» vm index slot enabled rest ih =>
    unfold Program.forbid
    rw [if_neg h.1, ih h.2]
  | record event rest ih => exact congrArg (record event) (ih h)
  | count vm kind resume ih => exact congrArg (count vm kind) (funext fun n => ih _ (h n))

end Program

/-! ## Hosts -/

/-- The programs that settings offer spare a machine. -/
def Settings.Spares (id : VmId) (settings : Settings) : Prop :=
  ∀ (α : Type) (p : HookProgram α), settings.Offers p → p.Spares id

/-- A function of the host spares a machine. -/
def FunctionBody.Spares (id : VmId) : FunctionBody → Prop
  | .native _ run => ∀ args, (run args).Spares id
  | .closure _ => True

/-- The functions of the host that wait spare a machine. -/
def Stack.Spares (id : VmId) (stack : Stack) : Prop :=
  ∀ resume, .native resume ∈ stack → ∀ answer, (resume answer).Spares id

/-- All that the host has made spares a machine. -/
structure World.Spares (id : VmId) (w : World) : Prop where
  /-- The hooks and the handlers of method calls do. -/
  settings : ∀ index, (w.vms.getD index .empty).settings.Spares id
  /-- The functions do. -/
  functions : ∀ {f body}, w.function? f = some body → body.Spares id

/-- The host of a run spares a machine. -/
structure Machine.Spares (id : VmId) (m : Machine) : Prop where
  /-- What it has made does. -/
  world : m.world.Spares id
  /-- What waits does. -/
  stack : m.stack.Spares id

namespace World

variable {u v w w' : World}

/-- The module of a machine but for its hits. -/
def uncounted? (w : World) (id : VmId) : Option Module :=
  (w.vm? id).map fun vm => vm.module.resetCoverage

/-- From one world to the other the host makes nothing new, and the module of a machine is left
alone but for its hits. -/
structure Undisturbed (id : VmId) (w w' : World) : Prop extends SameHost w w' where
  /-- The module is the same but for its hits. -/
  module : w'.uncounted? id = w.uncounted? id

theorem Spares.settings_of_vm {other : VmId} {vm : Vm} (hw : w.Spares id)
    (hvm : w.vm? other = some vm) : vm.settings.Spares id := by
  have hsettings : (w.vms.getD other.index .empty).settings.Spares id := hw.settings _
  unfold vm? at hvm
  rwa [Array.getD_eq_getD_getElem?, hvm] at hsettings

theorem Undisturbed.of_same (hvms : w'.vms = w.vms) (hfunctions : w'.functions = w.functions) :
    w.Undisturbed id w' :=
  ⟨.of_same hvms hfunctions, by rw [uncounted?, uncounted?, vm?, vm?, hvms]⟩

theorem Undisturbed.refl (w : World) : w.Undisturbed id w := .of_same rfl rfl

theorem Undisturbed.trans (h : u.Undisturbed id v) (h' : v.Undisturbed id w) :
    u.Undisturbed id w := ⟨h.toSameHost.trans h'.toSameHost, h'.module.trans h.module⟩

theorem SameHost.spares (h : w.SameHost w') (hw : w.Spares id) : w'.Spares id where
  settings index := (h.settings index).symm ▸ hw.settings index
  functions hbody := by
    rcases h.functions hbody with hbody | ⟨c, rfl⟩
    · exact hw.functions hbody
    · trivial

theorem Undisturbed.spares (h : w.Undisturbed id w') (hw : w.Spares id) : w'.Spares id :=
  h.toSameHost.spares hw

theorem undisturbed_modifyVm (w : World) (other : VmId) {f : Vm → Vm}
    (hsettings : ∀ vm, (f vm).settings = vm.settings)
    (hmodule : other = id → ∀ vm, (f vm).module.resetCoverage = vm.module.resetCoverage) :
    w.Undisturbed id (w.modifyVm other f) where
  toSameHost := w.sameHost_modifyVm other hsettings
  module := by
    unfold uncounted?
    rw [vm?_modifyVm]
    split
    · rename_i heq
      rw [Option.map_map]
      exact congrArg (Option.map · _) (funext (hmodule heq))
    · rfl

/-- A breakpoint leaves the host as it is. -/
theorem Spares.setBreakpoint {other : VmId} {index slot : Nat} {enabled : Bool}
    (hw : w.Spares id) (h : w.setBreakpoint other index slot enabled = .ok w') : w'.Spares id :=
  (routine_sameHost.setBreakpoint h).spares hw

/-- A machine whose settings spare another one leaves the host as it is. -/
theorem Spares.loadBytes {bytes : Bytes} {environment : Option TableId} {settings : Settings}
    {entry : Entry} (hw : w.Spares id) (hsettings : settings.Spares id)
    (h : w.loadBytes bytes environment settings = .ok (entry, w')) : w'.Spares id where
  settings index := by
    rcases (host_of_loadBytes h).1 index with hown | hold
    · rwa [hown]
    · rw [hold]
      exact hw.settings index
  functions hbody := by
    rcases (host_of_loadBytes h).2 hbody with hold | ⟨c, rfl⟩
    · exact hw.functions hold
    · trivial

/-- A breakpoint of another machine leaves the module alone. -/
theorem undisturbed_setBreakpoint {other : VmId} {index slot : Nat} {enabled : Bool}
    (hne : other ≠ id) (h : w.setBreakpoint other index slot enabled = .ok w') :
    w.Undisturbed id w' := by
  rcases setBreakpoint_cases h with rfl | ⟨m, rfl⟩
  · exact .refl w'
  · exact w.undisturbed_modifyVm other (fun _ => rfl) fun heq => absurd heq hne

end World

/-- What is left of a program that has come to a call spares the machine. -/
def Settled.Spares {κ α : Type} (id : VmId) : Settled κ α → Prop
  | .done _ | .fail _ => True
  | .call _ resume => ∀ answer, (resume answer).Spares id

/-- A program that spares a machine leaves its module alone. -/
theorem Program.Spares.settle {κ α : Type} {p : Program κ α} (h : p.Spares id) (w : World) :
    w.Undisturbed id (p.settle w).1 ∧ (p.settle w).2.Spares id := by
  induction p generalizing w with
  | done result => exact ⟨.refl w, trivial⟩
  | fail failure => exact ⟨.refl w, trivial⟩
  | call target resume => exact ⟨.refl w, h⟩
  | get t key resume ih => exact ih _ (h _) w
  | set t key value rest ih =>
    unfold Program.settle
    split
    · rename_i heap _
      obtain ⟨hworld, hrest⟩ := ih h { w with heap }
      have hstored : w.Undisturbed id { w with heap } := .of_same rfl rfl
      exact ⟨hstored.trans hworld, hrest⟩
    · exact ⟨.refl w, trivial⟩
  | next t key resume ih =>
    unfold Program.settle
    split
    · exact ih _ (h _) w
    · exact ⟨.refl w, trivial⟩
  | length t resume ih => exact ih _ (h _) w
  | write bytes rest ih =>
    obtain ⟨hworld, hrest⟩ := ih h { w with output := w.output.push bytes }
    have hwritten : w.Undisturbed id { w with output := w.output.push bytes } := .of_same rfl rfl
    exact ⟨hwritten.trans hworld, hrest⟩
  | close vm rest ih =>
    obtain ⟨hworld, hrest⟩ := ih h (w.close vm)
    have hclosed : w.Undisturbed id (w.close vm) :=
      w.undisturbed_modifyVm vm (fun _ => rfl) fun _ _ => rfl
    exact ⟨hclosed.trans hworld, hrest⟩
  | release vm rest ih =>
    obtain ⟨hworld, hrest⟩ := ih h (w.release vm)
    have hreleased : w.Undisturbed id (w.release vm) :=
      w.undisturbed_modifyVm vm (fun _ => rfl) fun _ _ => rfl
    exact ⟨hreleased.trans hworld, hrest⟩
  | «breakpoint» vm index slot enabled rest ih =>
    unfold Program.settle
    split
    · rename_i w' hset
      obtain ⟨hworld, hrest⟩ := ih h.2 w'
      exact ⟨(World.undisturbed_setBreakpoint h.1 hset).trans hworld, hrest⟩
    · exact ⟨.refl w, trivial⟩
  | record event rest ih =>
    obtain ⟨hworld, hrest⟩ := ih h (w.record event)
    have hrecorded : w.Undisturbed id (w.record event) := .of_same rfl rfl
    exact ⟨hrecorded.trans hworld, hrest⟩
  | count vm kind resume ih =>
    obtain ⟨hworld, hrest⟩ := ih _ (h _) (w.countUp vm kind)
    have hcounted : w.Undisturbed id (w.countUp vm kind) := .of_same rfl rfl
    exact ⟨hcounted.trans hworld, hrest⟩

theorem Program.Spares.perform {α : Type} {p : HookProgram α} (h : p.Spares id) (w : World) :
    w.Undisturbed id (p.perform w).1 := p.perform_world w ▸ (h.settle w).1

/-! ## Steps -/

namespace Machine

variable {m : Machine}

theorem Resting.spares {p : FunctionProgram} (h : m.Resting p) (hm : m.Spares id) :
    p.Spares id := by
  cases h with
  | begins _ hfunction => exact hm.world.functions hfunction _
  | resumes hstack _ => exact hm.stack _ (hstack ▸ List.mem_cons_self) _
  | gives | faults | failed => trivial

end Machine

/-! ## Hosts to which breakpoints are forbidden -/

/-- The hooks of a host to which it is forbidden to set and clear breakpoints of a machine. -/
def Hooks.forbid (id : VmId) (hooks : Hooks) : Hooks where
  step := hooks.step.map fun hook context => (hook context).forbid id
  breakpoint := hooks.breakpoint.map fun hook context => (hook context).forbid id
  interrupt := hooks.interrupt.map fun hook context => (hook context).forbid id
  panic := hooks.panic.map fun hook message error context => (hook message error context).forbid id

/-- The settings of such a host. -/
def Settings.forbid (id : VmId) (settings : Settings) : Settings :=
  { settings with
    hooks := settings.hooks.forbid id
    namecallHandler := settings.namecallHandler.map fun handler name args =>
      (handler name args).forbid id }

/-- A machine of such a host. -/
def Vm.forbid (id : VmId) (vm : Vm) : Vm := { vm with settings := vm.settings.forbid id }

/-- A function of such a host. -/
def FunctionBody.forbid (id : VmId) : FunctionBody → FunctionBody
  | .native name run => .native name fun args => (run args).forbid id
  | .closure c => .closure c

/-- The world of such a host. -/
def World.forbid (id : VmId) (w : World) : World :=
  { w with
    vms := w.vms.map (Vm.forbid id)
    functions := w.functions.map (FunctionBody.forbid id) }

/-- A call that waits in a run of such a host. -/
def Suspended.forbid (id : VmId) : Suspended → Suspended
  | .frame f next => .frame f next
  | .native resume => .native fun answer => (resume answer).forbid id

/-- The run of such a host. -/
def Machine.forbid (id : VmId) (m : Machine) : Machine :=
  { m with world := m.world.forbid id, stack := m.stack.map (Suspended.forbid id) }

/-- To settings that spare the machine nothing is forbidden. -/
theorem Settings.Spares.forbid {settings : Settings} (h : settings.Spares id) :
    settings.forbid id = settings := by
  have hmap : ∀ {α : Type} (f : α → α) (hook : Option α), (∀ a, hook = some a → f a = a) →
      hook.map f = hook := by
    intro α f hook hf
    cases hook with
    | none => rfl
    | some a => exact congrArg some (hf a rfl)
  unfold Settings.forbid Hooks.forbid
  rw [hmap _ settings.hooks.step fun hook hhook => funext fun context =>
      (h _ _ (.step hhook context)).forbid,
    hmap _ settings.hooks.breakpoint fun hook hhook => funext fun context =>
      (h _ _ (.breakpoint hhook context)).forbid,
    hmap _ settings.hooks.interrupt fun hook hhook => funext fun context =>
      (h _ _ (.interrupt hhook context)).forbid,
    hmap _ settings.hooks.panic fun hook hhook => funext fun message => funext fun error =>
      funext fun context => (h _ _ (.panic hhook message error context)).forbid,
    hmap _ settings.namecallHandler fun handler hhandler => funext fun name => funext fun args =>
      (h _ _ (.method hhandler name args)).forbid]

theorem World.Spares.forbid {w : World} (hw : w.Spares id) : w.forbid id = w := by
  have hvms : w.vms.map (Vm.forbid id) = w.vms := by
    refine Array.ext_getElem? fun index => ?_
    rw [Array.getElem?_map]
    cases hvm : w.vms[index]? with
    | none => rfl
    | some vm =>
      have hfound : w.vm? ⟨index⟩ = some vm := hvm
      have hsettings := (hw.settings_of_vm hfound).forbid
      exact congrArg (fun settings => some { vm with settings }) hsettings
  have hfunctions : w.functions.map (FunctionBody.forbid id) = w.functions := by
    refine Array.ext_getElem? fun index => ?_
    rw [Array.getElem?_map]
    cases hbody : w.functions[index]? with
    | none => rfl
    | some body =>
      have hspares : body.Spares id := hw.functions (f := ⟨index⟩) hbody
      cases body with
      | closure c => rfl
      | native name run =>
        exact congrArg (fun run => some (FunctionBody.native name run))
          (funext fun args => (hspares args).forbid)
  unfold World.forbid
  rw [hvms, hfunctions]

theorem Machine.Spares.forbid {m : Machine} (hm : m.Spares id) : m.forbid id = m := by
  have hstack : m.stack.map (Suspended.forbid id) = m.stack := by
    refine (List.map_congr_left fun waiting hwaiting => ?_).trans m.stack.map_id
    cases waiting with
    | frame f next => rfl
    | native resume =>
      have hspares := hm.stack resume hwaiting
      exact congrArg Suspended.native (funext fun answer => (hspares answer).forbid)
  unfold Machine.forbid
  rw [hm.world.forbid, hstack]

theorem Settings.spares_forbid (settings : Settings) : (settings.forbid id).Spares id := by
  intro α p hp
  cases hp with
  | step h | «breakpoint» h | interrupt h | panic h | method h =>
    obtain ⟨hook, -, rfl⟩ := Option.map_eq_some_iff.1 h
    exact Program.spares_forbid _

theorem World.spares_forbid (w : World) : (w.forbid id).Spares id where
  settings index := by
    show ((w.vms.map (Vm.forbid id)).getD index .empty).settings.Spares id
    rw [Array.getD_eq_getD_getElem?, Array.getElem?_map]
    cases w.vms[index]? with
    | none =>
      intro α p hp
      cases hp with
      | step h | «breakpoint» h | interrupt h | panic h | method h => cases h
    | some vm => exact vm.settings.spares_forbid
  functions {f body} h := by
    have hmap : (w.functions.map (FunctionBody.forbid id))[f.index]? = some body := h
    rw [Array.getElem?_map] at hmap
    obtain ⟨body', -, rfl⟩ := Option.map_eq_some_iff.1 hmap
    cases body' with
    | native name run => exact fun args => Program.spares_forbid _
    | closure c => trivial

namespace Machine

variable {m : Machine}

theorem spares_forbid (m : Machine) : (m.forbid id).Spares id where
  world := m.world.spares_forbid
  stack resume h := by
    obtain ⟨waiting, -, heq⟩ := List.mem_map.1 h
    cases waiting with
    | frame f next => cases heq
    | native resume' =>
      cases heq
      exact fun answer => Program.spares_forbid _

end Machine

end ScriptMachine
