import ScriptMachine.Library
import ScriptMachine.Proofs.Machine.Outcomes
import ScriptMachine.Proofs.Machine.Registers
import ScriptMachine.Proofs.Table.Keyed
import ScriptMachine.Proofs.Table.Slots

/-!
# Rounds of loops over tables

A generic loop over a table is driven by the library function `next`, which finds the last key in a
register, or by a traversal that keeps the last key itself.  In both ways a round of the loop comes
to what the table has behind the last key.
-/

namespace ScriptMachine

/-! ## Keys of a traversal -/

namespace Table

/-- No assignment makes an entry for nil. -/
theorem nil_notMem_entryKeys (history : List Operation) :
    .nil ∉ (empty.run history).entryKeys := by
  -- from the last operation on: only what it stores is new
  induction history using List.reverseRecOn with
  | nil => exact List.not_mem_nil
  | append_singleton history op ih =>
    rw [run_snoc, after_eq]
    split
    · rename_i key value hstored
      intro hnil
      rcases mem_entryKeys_of_store hnil with hold | hnew
      · exact ih hold
      · exact stored_ne_nil hstored hnew.symm
    · exact ih

theorem firstEntry?_mem {t : Table} {position : Nat} {pair : Value × Value}
    (h : t.firstEntry? position = some pair) : pair.1 ∈ t.entryKeys := by
  obtain ⟨⟨q, pair'⟩, hfound, rfl⟩ := Option.map_eq_some_iff.1 h
  obtain ⟨-, hentry, -⟩ := findFrom?_some hfound
  exact List.mem_map_of_mem (Array.mem_toList_iff.2 (Array.mem_of_getElem? hentry))

/-- The keys that a traversal yields are keys. -/
theorem next_ne_nil {t : Table} (ht : .nil ∉ t.entryKeys) {key : Value} {pair : Value × Value}
    (h : t.next key = .ok (some pair)) : pair.1 ≠ .nil := by
  have hentry : ∀ {position}, t.firstEntry? position = some pair → pair.1 ≠ .nil :=
    fun hfirst hnil => ht (hnil ▸ firstEntry?_mem hfirst)
  have hfrom : ∀ {position}, t.firstFrom? position = some pair → pair.1 ≠ .nil := by
    intro position hfirst
    unfold firstFrom? at hfirst
    split at hfirst
    · cases hfirst
      exact fun hnil => by cases hnil
    · exact hentry hfirst
  unfold next at h
  split at h
  · exact hfrom (Except.ok.inj h)
  · split at h
    · split at h
      · exact hfrom (Except.ok.inj h)
      · split at h
        · exact hfrom (Except.ok.inj h)
        · exact hentry (Except.ok.inj h)
    · exact hentry (Except.ok.inj h)
    · cases h

end Table

/-! ## Advancing a traversal -/

namespace Bridge

variable {b : Bridge} {key : Value} {heap : Heap}

theorem step_of_finished (h : b.finished = true) (heap : Heap) : b.step heap = (b, .ok none) := by
  unfold step
  rw [if_pos h]

/-- A traversal that stands behind a key is resumed, and comes to what the table has there. -/
theorem step_behind (h : b.finished = false) (hbehind : b.traversal = .behind key) :
    b.step heap = match heap.next b.table key with
      | .error f => ({ b with traversal := .ended, resumes := b.resumes + 1 }, .error f)
      | .ok none =>
        ({ b with traversal := .ended, finished := true, resumes := b.resumes + 1 }, .ok none)
      | .ok (some (key', value)) =>
        ({ b with traversal := .behind key', resumes := b.resumes + 1 },
          .ok (some (fitTo b.arity [key', value]))) := by
  obtain ⟨table, arity, traversal, finished, resumes⟩ := b
  cases h
  cases hbehind
  rfl

/-- One that has failed is resumed once more, and reports the end. -/
theorem step_ended (h : b.finished = false) (hended : b.traversal = .ended) :
    b.step heap = ({ b with finished := true, resumes := b.resumes + 1 }, .ok none) := by
  unfold step
  rw [h, if_neg (by simp)]
  dsimp only
  rw [hended]

end Bridge

/-! ## The instruction that continues a loop -/

namespace Effect

/-- The work of the instruction that continues a generic loop, once its hook has been called. -/
def loopWork (i : Instruction) : Effect Outcome := do
  let a := i.operands.a
  let arity ← loopArity i
  ensure (a + 3 + arity)
  modifyFrame fun f => { f with top := a + 6 }
  let iterated ← register a
  if !(← settings).generalizedIteration || iterated.isFunction then
    let args := [← register (a + 1), ← register (a + 2)]
    return .call iterated args (.iteration a arity i.operands.d)
  match ← stepIterator iterated with
  | none =>
    modifyFrame fun f => f.dropIterator f.current
    jump 1
  | some round =>
    modifyFrame fun f => f.putAll (a + 3) round
    put (a + 2) (← register (a + 3))
    jump i.operands.d
  return .next

/-- What comes before that work: the hooks of every instruction, which may end the frame, and the
one of the loop. -/
def beforeLoop (i : Instruction) : Effect (Option (List Value)) := do
  match ← prelude i with
  | some values => return some values
  | none =>
    interrupt .genericLoop
    return none

theorem dispatch_of_genericLoop {i : Instruction} (h : i.operation = .genericLoop) :
    dispatch i = beforeLoop i >>= fun
      | some values => pure (.leave values)
      | none => loopWork i := by
  rw [dispatch_eq]
  unfold beforeLoop
  simp only [bind_assoc]
  refine bind_congr fun early => ?_
  cases early with
  | some values => rfl
  | none =>
    show execute i.operation i = _
    rw [h]
    show genericLoop i = _
    simp only [bind_assoc, pure_bind]
    rfl

/-- Before the work of a loop the frame is moved on, and all else is left to the host. -/
theorem aside_beforeLoop (i : Instruction) (s : Running) :
    Aside s.advanced ((beforeLoop i).after s) := by
  have hs := aside_prelude i s
  unfold beforeLoop
  rw [after_bind]
  unfold after at hs
  cases hprelude : prelude i s with
  | error failure t =>
    rw [hprelude] at hs
    exact hs
  | ok early t =>
    rw [hprelude] at hs
    cases early with
    | some values => exact hs
    | none =>
      have hhook := (aside_interrupt .genericLoop).bind fun _ =>
        aside_pure (none : Option (List Value))
      exact hs.trans (hhook t)

theorem aside_of_ok {i : Instruction} {s t : Running} {early : Option (List Value)}
    (h : beforeLoop i s = .ok early t) : Aside s.advanced t := by
  have hs := aside_beforeLoop i s
  unfold after at hs
  rwa [h] at hs

theorem aside_of_error {i : Instruction} {s t : Running} {failure : Failure}
    (h : beforeLoop i s = .error failure t) : Aside s.advanced t := by
  have hs := aside_beforeLoop i s
  unfold after at hs
  rwa [h] at hs

/-- Reading the arity of a loop changes nothing. -/
theorem state_of_loopArity {i : Instruction} {s t : Running} {arity : Nat}
    (h : loopArity i s = .ok arity t) : t = s := by
  unfold loopArity at h
  cases hconstant : i.constant <;> simp only [hconstant] at h <;> cases h
  rfl

/-- Preparing a loop over a table gives it a traversal that stands at the start. -/
theorem genericPrep_of_table {i : Instruction} {s s' : Running} {t : TableId}
    (hiterated : s.frame.register i.operands.a = .table t)
    (hgeneral : s.vm.settings.generalizedIteration = true) (h : genericPrep i s = .ok () s') :
    ∃ loop arity, s.prototype.code[Frame.displace s.frame.pc i.operands.d]?.map
        Slot.asInstruction = some loop ∧ loopArity loop s = .ok arity s ∧
      s' = { s with frame := (s.frame.setIterator (Frame.displace s.frame.pc i.operands.d)
        { table := t, arity }).jump i.operands.d } := by
  unfold genericPrep at h
  simp only [register_bind, settings_bind, hiterated, hgeneral] at h
  rw [if_pos (by simp [Value.isFunction])] at h
  simp only [prototype_bind, get_bind] at h
  cases hloop : s.prototype.code[Frame.displace s.frame.pc i.operands.d]?.map
      Slot.asInstruction with
  | none =>
    simp only [hloop] at h
    cases h
  | some loop =>
    simp only [hloop] at h
    split at h
    · obtain ⟨arity, v, harity, h⟩ := ok_of_bind h
      obtain rfl := state_of_loopArity harity
      cases h
      exact ⟨loop, arity, rfl, harity, rfl⟩
    · cases h

/-- It does so whenever the slot shows the instruction of the loop. -/
theorem genericPrep_of_loop {i loop : Instruction} {s : Running} {t : TableId} {arity : Nat}
    (hiterated : s.frame.register i.operands.a = .table t)
    (hgeneral : s.vm.settings.generalizedIteration = true)
    (hloop : s.prototype.code[Frame.displace s.frame.pc i.operands.d]?.map Slot.asInstruction =
      some loop) (hopcode : loop.opcode = .genericLoop) (harity : loopArity loop = pure arity) :
    genericPrep i s = .ok ()
      { s with frame := (s.frame.setIterator (Frame.displace s.frame.pc i.operands.d)
          { table := t, arity }).jump i.operands.d } := by
  unfold genericPrep
  simp only [register_bind, settings_bind, hiterated, hgeneral]
  rw [if_pos (by simp [Value.isFunction])]
  simp only [prototype_bind, get_bind, hloop, hopcode, if_true, harity, pure_bind]
  rfl

/-- A breakpoint in the slot hides the instruction of the loop. -/
theorem genericPrep_of_hidden {i loop : Instruction} {s : Running} {t : TableId}
    (hiterated : s.frame.register i.operands.a = .table t)
    (hgeneral : s.vm.settings.generalizedIteration = true)
    (hloop : s.prototype.code[Frame.displace s.frame.pc i.operands.d]?.map Slot.asInstruction =
      some loop) (hopcode : loop.opcode ≠ .genericLoop) :
    genericPrep i s =
      .error (.fault (.loopTarget (Frame.displace s.frame.pc i.operands.d))) s := by
  unfold genericPrep
  simp only [register_bind, settings_bind, hiterated, hgeneral]
  rw [if_pos (by simp [Value.isFunction])]
  simp only [prototype_bind, get_bind, hloop, if_neg hopcode]
  rfl

/-- An instruction that prepares a loop does so once its hooks have passed. -/
theorem dispatch_of_prep {i : Instruction} {s u : Running} (h : i.operation = .genericPrep)
    (hprelude : prelude i s = .ok none u) :
    dispatch i s = (genericPrep i >>= fun _ => pure Outcome.next) u := by
  rw [dispatch_eq, bind_of_ok hprelude]
  show execute i.operation i u = _
  rw [h]
  rfl

/-- When it goes on, its hooks have passed. -/
theorem genericPrep_of_dispatch {i : Instruction} {s t : Running} {outcome : Outcome}
    (h : i.operation = .genericPrep) (hdispatch : dispatch i s = .ok outcome t)
    (hgoes : ∀ values, outcome ≠ .leave values) :
    outcome = .next ∧ ∃ u, Aside s.advanced u ∧ genericPrep i u = .ok () t := by
  rw [dispatch_eq] at hdispatch
  obtain ⟨early, u, hprelude, hbody⟩ := ok_of_bind hdispatch
  cases early with
  | some values =>
    cases hbody
    exact absurd rfl (hgoes values)
  | none =>
    replace hbody : execute i.operation i u = .ok outcome t := hbody
    rw [h] at hbody
    obtain ⟨_, v, hplain, hlast⟩ := ok_of_bind hbody
    cases hlast
    exact ⟨rfl, u, ends_prelude i _ _ hprelude, hplain⟩

/-- A traversal that drives a loop is advanced in place. -/
theorem stepIterator_eq {s : Running} {bridge : Bridge} (iterated : Value)
    (h : s.frame.iterator? s.frame.current = some bridge) :
    stepIterator iterated s =
      match bridge.step s.world.heap with
      | (bridge, .ok round) =>
        .ok round { s with frame := s.frame.setIterator s.frame.current bridge }
      | (bridge, .error f) =>
        .error (.fault f) { s with frame := s.frame.setIterator s.frame.current bridge } := by
  unfold stepIterator
  simp only [h]
  rcases bridge.step s.world.heap with ⟨bridge, round | f⟩ <;> rfl

end Effect

@[simp] theorem Frame.iterator?_dropIterator (f : Frame) (slot : Nat) :
    (f.dropIterator slot).iterator? slot = none := by
  refine List.lookup_eq_none_iff.2 fun entry hentry => ?_
  have hne := (List.mem_filter.1 hentry).2
  rw [bne_iff_ne] at hne
  exact bne_iff_ne.2 hne.symm

@[simp] theorem Frame.iterator?_setIterator (f : Frame) (slot : Nat) (bridge : Bridge) :
    (f.setIterator slot bridge).iterator? slot = some bridge := by
  have hnone : (f.dropIterator slot).iterators.lookup slot = none := f.iterator?_dropIterator slot
  show List.lookup slot ((f.dropIterator slot).iterators ++ [(slot, bridge)]) = _
  rw [List.lookup_append, hnone]
  simp

/-! ## Loops -/

/-- A generic loop in the code of a prototype. -/
structure GenericLoop where
  /-- The slot of the instruction that continues it. -/
  slot : Nat
  /-- The first of its registers. -/
  base : Nat
  /-- The count of its variables. -/
  arity : Nat
  /-- The distance back to its body. -/
  distance : Int

/-- What the instruction that a run is about to execute comes to in its frame, after the call that
it makes, if it makes one, has come back from the host. -/
def Machine.roundResult? (m : Machine) : Option (EStateM.Result Failure Running Outcome) :=
  match m.acting? with
  | some (.ok (.call _ _ _) _) => (step^[2] m).acting?
  | result => result

namespace GenericLoop

variable {l : GenericLoop} {t : TableId} {s u : Running} {i : Instruction}

/-- A frame is about to continue the loop. -/
structure At (l : GenericLoop) (s : Running) (i : Instruction) : Prop where
  /-- The instruction is the next one. -/
  next : Machine.nextInstruction? s.world s.frame = some i
  /-- It stands in its slot. -/
  slot : s.frame.pc = l.slot
  /-- It continues a generic loop. -/
  operation : i.operation = .genericLoop
  /-- Its registers are those of the loop. -/
  base : i.operands.a = l.base
  /-- It jumps back to the body. -/
  distance : i.operands.d = l.distance
  /-- It wants as many values as the loop has variables. -/
  arity : Effect.loopArity i = pure l.arity

theorem At.acting (h : l.At s i) : s.machine.acting? = some ((Effect.beforeLoop i >>= fun
    | some values => pure (.leave values)
    | none => Effect.loopWork i) s) := by
  rw [← Effect.dispatch_of_genericLoop h.operation]
  unfold Machine.acting? Running.machine
  simp only [h.next]

/-! ### Rounds -/

/-- A frame with the values of a round in the variables of the loop, at the start of the body. -/
def roundFrame (l : GenericLoop) (g : Frame) (key value : Value) : Frame :=
  ((g.putAll (l.base + 3) (fitTo l.arity [key, value])).put (l.base + 2) key).jump l.distance

section RoundFrame

variable {g : Frame} {key value : Value}

theorem pc_roundFrame : (l.roundFrame g key value).pc = Frame.displace g.pc l.distance := by
  show Frame.displace (Frame.putAll _ _ _).pc _ = _
  rw [Frame.pc_putAll]

theorem iterators_roundFrame : (l.roundFrame g key value).iterators = g.iterators :=
  Frame.iterators_putAll

theorem vm_roundFrame : (l.roundFrame g key value).vm = g.vm := (g.sameCall_putAll _ _).vm

theorem register_roundFrame_of_lt {k : Nat} (h : k < l.base + 2) :
    (l.roundFrame g key value).register k = g.register k := by
  show Scope.register (Frame.put _ _ _).toScope k = _
  rw [Frame.register_put_of_ne h.ne', Frame.register_putAll_of_lt (by omega)]

variable (hroom : l.base + 3 + l.arity ≤ g.registers.size)

include hroom

theorem control_roundFrame : (l.roundFrame g key value).register (l.base + 2) = key := by
  show Scope.register (Frame.put _ _ _).toScope _ = _
  rw [Frame.register_put, if_pos ⟨rfl, by rw [Frame.size_putAll]; omega⟩]

/-- The variables of the loop hold the values of the round. -/
theorem slice_round {values : List Value} (hlength : values.length = l.arity) (control : Value) :
    (((g.putAll (l.base + 3) values).put (l.base + 2) control).jump l.distance).slice (l.base + 3)
      l.arity = values := by
  have hput : (((g.putAll (l.base + 3) values).put (l.base + 2) control).jump l.distance).slice
      (l.base + 3) l.arity = (g.putAll (l.base + 3) values).slice (l.base + 3) l.arity := by
    refine List.map_congr_left fun k _ => ?_
    show Scope.register (Frame.put _ _ _).toScope _ = _
    rw [Frame.register_put_of_ne (by omega)]
  rw [hput, ← hlength]
  exact Frame.slice_putAll (hlength ▸ hroom)

theorem slice_roundFrame :
    (l.roundFrame g key value).slice (l.base + 3) l.arity = fitTo l.arity [key, value] :=
  slice_round hroom (length_fitTo _ _) key

variable (harity : 0 < l.arity)

include harity

/-- The first variable of the loop takes the first value of the round. -/
theorem register_variable (values : List Value) :
    (g.putAll (l.base + 3) (fitTo l.arity (value :: values))).register (l.base + 3) = value := by
  obtain ⟨count, hcount⟩ := Nat.exists_eq_add_of_lt harity
  rw [hcount, Nat.zero_add, fitTo_cons]
  exact Frame.register_putAll_first (by omega)

end RoundFrame

/-- What a round comes to that finds something behind the last key, `By` being how the loop is
driven. -/
inductive Shows (l : GenericLoop) (By : Value → Running → Prop) (s : Running) :
    Except Fault (Option (Value × Value)) → EStateM.Result Failure Running Outcome → Prop where
  /-- A pair: its key and its value are in the variables, and the body comes next. -/
  | again {key value : Value} {r : Running}
    (pc : r.frame.pc = Frame.displace (l.slot + 1) l.distance)
    (tuple : r.frame.slice (l.base + 3) l.arity = fitTo l.arity [key, value])
    (control : r.frame.register (l.base + 2) = key) (driven : By key r) :
    Shows l By s (.ok (some (key, value))) (.ok .next r)
  /-- Nothing: what is behind the loop comes next. -/
  | ends {r : Running} (pc : r.frame.pc = Frame.displace (l.slot + 1) 1)
    (control : r.frame.register (l.base + 2) = s.frame.register (l.base + 2)) :
    Shows l By s (.ok none) (.ok .next r)
  /-- A fault: it is raised in the frame. -/
  | raised {f : Fault} {r : Running} (current : r.frame.current = l.slot) :
    Shows l By s (.error f) (.error (.fault f) r)

/-- The hooks of the loop's instruction have passed, and there is room for its variables. -/
structure Ready (l : GenericLoop) (s : Running) (i : Instruction) (u : Running) (g : Frame) :
    Prop where
  /-- The frame is about to continue the loop. -/
  at_ : l.At s i
  /-- Its hooks let it pass. -/
  passes : Effect.beforeLoop i s = .ok none u
  /-- The register file has grown as far as it has to. -/
  room : u.frame.ensure? (l.base + 3 + l.arity) u.vm.settings.maxRegisters = some g

namespace Ready

variable {g : Frame} (h : l.Ready s i u g)

include h

theorem aside : Effect.Aside s.advanced u := Effect.aside_of_ok h.passes

theorem register (k : Nat) : g.register k = s.frame.register k := by
  rw [(Frame.ensure?_spec h.room).2.2, h.aside.frame]
  rfl

theorem size_le : l.base + 3 + l.arity ≤ g.registers.size := (Frame.ensure?_spec h.room).2.1

theorem frame : g = { s.advanced.frame with registers := g.registers } := by
  rw [← h.aside.frame]
  exact (Frame.ensure?_spec h.room).1

theorem current : g.current = l.slot := by
  rw [h.frame]
  exact h.at_.slot

theorem pc : g.pc = l.slot + 1 := by
  rw [h.frame]
  exact congrArg (· + 1) h.at_.slot

theorem acting : s.machine.acting? = some (Effect.loopWork i u) := by
  rw [h.at_.acting, Effect.bind_of_ok h.passes]

end Ready

/-- What the frame does after its hooks when there is no room for the variables. -/
theorem loopWork_of_none (h : l.At s i)
    (hroom : u.frame.ensure? (l.base + 3 + l.arity) u.vm.settings.maxRegisters = none) :
    Effect.loopWork i u = .error (.fault .stackOverflow) u := by
  unfold Effect.loopWork
  rw [h.arity, h.base]
  simp only [pure_bind]
  exact Effect.bind_of_error (by rw [Effect.ensure_eq, hroom])

theorem roundResult_of_next {v : Running} (h : s.machine.acting? = some (.ok .next v)) :
    s.machine.roundResult? = some (.ok .next v) := by
  unfold Machine.roundResult?
  rw [h]

theorem roundResult_of_leave {v : Running} {values : List Value}
    (h : s.machine.acting? = some (.ok (.leave values) v)) :
    s.machine.roundResult? = some (.ok (.leave values) v) := by
  unfold Machine.roundResult?
  rw [h]

theorem roundResult_of_error {v : Running} {failure : Failure}
    (h : s.machine.acting? = some (.error failure v)) :
    s.machine.roundResult? = some (.error failure v) := by
  unfold Machine.roundResult?
  rw [h]

/-- A frame that has room for the variables of the loop. -/
def roomy (l : GenericLoop) (g : Frame) : Frame := { g with top := l.base + 6 }

/-! ### By a function -/

/-- A loop is driven by the library function `next` over a table, which has come to a key. -/
structure ByFunction (l : GenericLoop) (t : TableId) (key : Value) (s : Running) : Prop where
  /-- The first register holds the function. -/
  function : ∃ id name, s.frame.register l.base = .function id ∧
    s.world.function? id = some (.native name Library.next)
  /-- The second one holds the table. -/
  state : s.frame.register (l.base + 1) = .table t
  /-- The third one holds the key. -/
  control : s.frame.register (l.base + 2) = key

theorem settle_next (t : TableId) (key : Value) (w : World) :
    (Library.next [.table t, key]).settle w =
      match w.heap.next t key with
      | .ok (some (key, value)) => (w, .done [key, value])
      | .ok none => (w, .done [.nil])
      | .error f => (w, .fail (.fault f)) := by
  show Program.settle (.next t key _) w = _
  unfold Program.settle
  rcases w.heap.next t key with f | ⟨_ | ⟨key, value⟩⟩ <;> rfl

/-- The call that a round makes comes back with what the host makes of it. -/
theorem roundResult_of_call {v : Running} {fid : FunctionId} {args : List Value}
    {next : Continuation} {name : Bytes} {run : List Value → FunctionProgram}
    (hacting : s.machine.acting? = some (.ok (.call (.function fid) args next) v))
    (hfunction : v.world.function? fid = some (.native name run)) :
    s.machine.roundResult? = (Machine.ofSettled (.frame v.frame next :: v.stack)
      ((run args).settle v.world)).acting? := by
  have hstep : Machine.step^[2] s.machine = Machine.ofSettled (.frame v.frame next :: v.stack)
      ((run args).settle v.world) := by
    show s.machine.step.step = _
    rw [Machine.step_of_acting hacting]
    show Machine.call v.world (.frame v.frame next :: v.stack) (.function fid) args = _
    unfold Machine.call
    simp only [hfunction]
  unfold Machine.roundResult?
  rw [hacting]
  exact congrArg Machine.acting? hstep

theorem loopWork_of_function {g : Frame} {fid : FunctionId} (h : l.Ready s i u g)
    (hfunction : g.register l.base = .function fid) :
    Effect.loopWork i u =
      .ok (.call (.function fid) [g.register (l.base + 1), g.register (l.base + 2)]
        (.iteration l.base l.arity l.distance)) { u with frame := l.roomy g } := by
  unfold Effect.loopWork
  rw [h.at_.arity, h.at_.base, h.at_.distance]
  simp only [pure_bind]
  rw [Effect.bind_of_ok (by rw [Effect.ensure_eq, h.room])]
  simp only [Effect.modifyFrame_bind, Effect.register_bind, Effect.settings_bind]
  rw [hfunction, if_pos (by simp [Value.isFunction])]
  rfl

section Accept

variable {g : Frame} {w : World} {stack : Stack} (hroom : l.base + 3 + l.arity ≤ g.registers.size)
  (harity : 0 < l.arity)

include hroom harity

theorem accept_pair {key : Value} (hkey : key ≠ .nil) (value : Value) :
    Machine.accept (.iteration l.base l.arity l.distance) [key, value] ⟨w, g, stack⟩ =
      .ok .next ⟨w, l.roundFrame g key value, stack⟩ := by
  have hcontrol :
      (g.putAll (l.base + 3) (fitTo l.arity [key, value])).register (l.base + 3) = key :=
    register_variable hroom harity [value]
  unfold Machine.accept Effect.storeRound
  simp only [bind_assoc, Effect.modifyFrame_bind, Effect.register_bind, hcontrol]
  rw [if_neg (by cases key <;> simp_all [Value.isNil])]
  rfl

theorem accept_nil :
    Machine.accept (.iteration l.base l.arity l.distance) [.nil] ⟨w, g, stack⟩ =
      .ok .next ⟨w, (g.putAll (l.base + 3) (fitTo l.arity [.nil])).jump 1, stack⟩ := by
  have hcontrol : (g.putAll (l.base + 3) (fitTo l.arity [.nil])).register (l.base + 3) = .nil :=
    register_variable hroom harity []
  unfold Machine.accept Effect.storeRound
  simp only [bind_assoc, Effect.modifyFrame_bind, Effect.register_bind, hcontrol]
  rfl

end Accept

section ByFunction

variable {g : Frame} {key : Value} (hby : l.ByFunction t key s) (h : l.Ready s i u g)

include hby h

/-- A round of a loop that a function drives is what the function makes of the table. -/
theorem ByFunction.roundResult : s.machine.roundResult? =
    (Machine.ofSettled (.frame (l.roomy g) (.iteration l.base l.arity l.distance) :: u.stack)
      (match u.world.heap.next t key with
        | .ok (some (key, value)) => (u.world, .done [key, value])
        | .ok none => (u.world, .done [.nil])
        | .error f => (u.world, .fail (.fault f)))).acting? := by
  obtain ⟨fid, name, hregister, hfunction⟩ := hby.function
  have hwork := loopWork_of_function h ((h.register l.base).trans hregister)
  rw [h.register, h.register, hby.state, hby.control] at hwork
  rw [← settle_next]
  exact roundResult_of_call (h.acting.trans (congrArg some hwork))
    (h.aside.evolves.function hfunction)

variable (harity : 0 < l.arity)

include harity

theorem ByFunction.round_of_pair {key' value : Value} (hkey : key' ≠ .nil)
    (hnext : u.world.heap.next t key = .ok (some (key', value))) :
    s.machine.roundResult? =
      some (.ok .next { u with frame := l.roundFrame (l.roomy g) key' value }) := by
  have hresult := hby.roundResult h
  rw [hnext] at hresult
  have hsize : l.base + 3 + l.arity ≤ (l.roomy g).registers.size := h.size_le
  exact hresult.trans (congrArg some (accept_pair hsize harity hkey value))

/-- A round of a loop that a function drives comes to what the table has behind the key. -/
theorem ByFunction.shows (htable : .nil ∉ (u.world.heap.table t).entryKeys) :
    ∃ r, s.machine.roundResult? = some r ∧
      l.Shows (l.ByFunction t) s (u.world.heap.next t key) r := by
  have hsize : l.base + 3 + l.arity ≤ (l.roomy g).registers.size := h.size_le
  have hresult := hby.roundResult h
  rcases hnext : u.world.heap.next t key with f | ⟨_ | ⟨key', value⟩⟩
  · rw [hnext] at hresult
    exact ⟨_, hresult, .raised h.current⟩
  · rw [hnext] at hresult
    refine ⟨_, hresult.trans (congrArg some (accept_nil hsize harity)), .ends ?_ ?_⟩
    · show Frame.displace (Frame.putAll _ _ _).pc 1 = _
      rw [Frame.pc_putAll, ← h.pc]
      rfl
    · show Scope.register (Frame.putAll _ _ _).toScope _ = _
      rw [Frame.register_putAll_of_lt (by omega), ← h.register]
      rfl
  · have hkey := Table.next_ne_nil htable hnext
    obtain ⟨fid, name, hregister, hfunction⟩ := hby.function
    refine ⟨_, hby.round_of_pair h harity hkey hnext, .again ?_ (slice_roundFrame hsize)
      (control_roundFrame hsize)
      ⟨⟨fid, name, ?_, h.aside.evolves.function hfunction⟩, ?_, control_roundFrame hsize⟩⟩
    · rw [pc_roundFrame, ← h.pc]
      rfl
    · exact (register_roundFrame_of_lt (by omega)).trans ((h.register _).trans hregister)
    · exact (register_roundFrame_of_lt (by omega)).trans ((h.register _).trans hby.state)

end ByFunction

/-! ### By a traversal -/

/-- A loop is driven by a traversal of a table, which has come to a key. -/
structure ByTraversal (l : GenericLoop) (t : TableId) (key : Value) (s : Running) : Prop where
  /-- The first register holds the table. -/
  iterated : s.frame.register l.base = .table t
  /-- The machine allows such loops. -/
  general : ∃ vm, s.world.vm? s.frame.vm = some vm ∧ vm.settings.generalizedIteration = true
  /-- The traversal of the loop stands behind the key. -/
  bridge : ∃ b, s.frame.iterator? l.slot = some b ∧ b.table = t ∧ b.arity = l.arity ∧
    b.traversal = .behind key ∧ b.finished = false

/-- What a traversal behind a key gives. -/
theorem bridge_step {b : Bridge} {key : Value} (heap : Heap) (htable : b.table = t)
    (hbehind : b.traversal = .behind key) (hgoes : b.finished = false) :
    ∃ b', b.step heap = (b', match heap.next t key with
      | .ok (some (key, value)) => .ok (some (fitTo b.arity [key, value]))
      | .ok none => .ok none
      | .error f => .error f) ∧ ∀ key' value, heap.next t key = .ok (some (key', value)) →
        b'.table = t ∧ b'.arity = b.arity ∧ b'.traversal = .behind key' ∧ b'.finished = false := by
  rw [Bridge.step_behind hgoes hbehind, htable]
  rcases heap.next t key with f | ⟨_ | ⟨key', value⟩⟩
  · exact ⟨_, rfl, fun _ _ h => by cases h⟩
  · exact ⟨_, rfl, fun _ _ h => by cases h⟩
  · refine ⟨_, rfl, fun _ _ h => ?_⟩
    cases h
    exact ⟨rfl, rfl, rfl, hgoes⟩

/-- What a traversal has given becomes a round, or the end of the loop. -/
def takeRound (l : GenericLoop) : Option (List Value) → Effect Outcome
  | none => do
    Effect.modifyFrame fun f => f.dropIterator f.current
    Effect.jump 1
    return .next
  | some round => do
    Effect.modifyFrame fun f => f.putAll (l.base + 3) round
    Effect.put (l.base + 2) (← Effect.register (l.base + 3))
    Effect.jump l.distance
    return .next

theorem takeRound_none (l : GenericLoop) (s : Running) : l.takeRound none s =
    .ok .next { s with frame := (s.frame.dropIterator s.frame.current).jump 1 } := rfl

theorem takeRound_some (l : GenericLoop) (values : List Value) (s : Running) :
    l.takeRound (some values) s =
      let f := s.frame.putAll (l.base + 3) values
      .ok .next { s with frame :=
        (f.put (l.base + 2) (f.register (l.base + 3))).jump l.distance } := rfl

theorem loopWork_of_value {g : Frame} (h : l.Ready s i u g)
    (hiterated : (g.register l.base).isFunction = false)
    (hgeneral : u.vm.settings.generalizedIteration = true) :
    Effect.loopWork i u = (Effect.stepIterator (g.register l.base) >>= l.takeRound)
      { u with frame := l.roomy g } := by
  have hgoes : ¬ ((!(Running.vm { u with frame := l.roomy g }).settings.generalizedIteration ||
      (g.register l.base).isFunction) = true) := by
    have hvm : Running.vm { u with frame := l.roomy g } = u.vm := by
      show u.world.vms.getD g.vm.index .empty = u.world.vms.getD u.frame.vm.index .empty
      rw [h.frame, h.aside.frame]
    rw [hvm, hgeneral, hiterated]
    simp
  unfold Effect.loopWork
  rw [h.at_.arity, h.at_.base, h.at_.distance]
  simp only [pure_bind]
  rw [Effect.bind_of_ok (by rw [Effect.ensure_eq, h.room])]
  simp only [Effect.modifyFrame_bind, Effect.register_bind, Effect.settings_bind]
  rw [if_neg (by exact hgoes)]
  refine congrFun (bind_congr fun round => ?_) _
  cases round <;> rfl

section Traversal

variable {g : Frame} (h : l.Ready s i u g)
  (hiterated : (s.frame.register l.base).isFunction = false)
  (hgeneral : u.vm.settings.generalizedIteration = true)

include h hiterated hgeneral

/-- The traversal of the loop is advanced, and gives a round or the end. -/
theorem acting_of_bridge {b : Bridge} (hb : s.frame.iterator? l.slot = some b) :
    s.machine.acting? = some (
      let v : Running :=
        { u with frame := (l.roomy g).setIterator l.slot (b.step u.world.heap).1 }
      match (b.step u.world.heap).2 with
      | .ok round => l.takeRound round v
      | .error f => .error (.fault f) v) := by
  have hslot : (l.roomy g).current = l.slot := h.current
  have hiterators : (l.roomy g).iterator? (l.roomy g).current = some b := by
    rw [hslot]
    show List.lookup l.slot g.iterators = _
    rw [h.frame]
    exact hb
  have hround := Effect.stepIterator_eq (s := { u with frame := l.roomy g })
    (g.register l.base) hiterators
  rw [hslot] at hround
  rw [h.acting, loopWork_of_value h (by rw [h.register, hiterated]) hgeneral]
  refine congrArg some ?_
  dsimp only
  rcases hstep : b.step u.world.heap with ⟨b', f | round⟩ <;>
    rw [show b.step _ = _ from hstep] at hround
  · exact Effect.bind_of_error hround
  · exact Effect.bind_of_ok hround

/-- Without one there is no round. -/
theorem acting_of_no_bridge (hb : s.frame.iterator? l.slot = none) :
    s.machine.acting? = some (.error (.fault (.notIterable (g.register l.base).kind))
      { u with frame := l.roomy g }) := by
  rw [h.acting, loopWork_of_value h (by rw [h.register, hiterated]) hgeneral]
  have hiterators : (l.roomy g).iterator? (l.roomy g).current = none := by
    rw [show (l.roomy g).current = l.slot from h.current]
    show List.lookup l.slot g.iterators = _
    rw [h.frame]
    exact hb
  refine congrArg some (Effect.bind_of_error ?_)
  unfold Effect.stepIterator
  dsimp only
  rw [hiterators]

end Traversal

section ByTraversal

variable {g : Frame} {key : Value} (hby : l.ByTraversal t key s) (h : l.Ready s i u g)

include hby h

/-- A round of a loop that a traversal drives is what the traversal makes of the table. -/
theorem ByTraversal.acting : ∃ b,
    (∀ key' value, u.world.heap.next t key = .ok (some (key', value)) →
      b.table = t ∧ b.arity = l.arity ∧ b.traversal = .behind key' ∧ b.finished = false) ∧
    s.machine.acting? = some (
      let v : Running := { u with frame := (l.roomy g).setIterator l.slot b }
      match u.world.heap.next t key with
      | .ok (some (key, value)) => l.takeRound (some (fitTo l.arity [key, value])) v
      | .ok none => l.takeRound none v
      | .error f => .error (.fault f) v) := by
  obtain ⟨vm, hvm, hgeneral⟩ := hby.general
  obtain ⟨b, hb, htable, hsize, hbehind, hgoes⟩ := hby.bridge
  obtain ⟨b', hstep, hnew⟩ := bridge_step u.world.heap htable hbehind hgoes
  refine ⟨b', fun key' value hnext => hsize ▸ hnew key' value hnext, ?_⟩
  have hiterated : (s.frame.register l.base).isFunction = false := by
    rw [hby.iterated]
    rfl
  rw [acting_of_bridge h hiterated (h.aside.settings hvm ▸ hgeneral) hb, hstep, hsize]
  refine congrArg some ?_
  rcases u.world.heap.next t key with f | ⟨_ | ⟨key', value⟩⟩ <;> rfl

variable (harity : 0 < l.arity)

include harity

theorem ByTraversal.round_of_pair {key' value : Value}
    (hnext : u.world.heap.next t key = .ok (some (key', value))) :
    ∃ b, (b.table = t ∧ b.arity = l.arity ∧ b.traversal = .behind key' ∧ b.finished = false) ∧
      s.machine.roundResult? = some (.ok .next
        { u with frame := l.roundFrame ((l.roomy g).setIterator l.slot b) key' value }) := by
  obtain ⟨b, hnew, hacting⟩ := hby.acting h
  rw [hnext] at hacting
  have hround : l.takeRound (some (fitTo l.arity [key', value]))
      { u with frame := (l.roomy g).setIterator l.slot b } =
        .ok .next
          { u with frame := l.roundFrame ((l.roomy g).setIterator l.slot b) key' value } := by
    have hsize : l.base + 3 + l.arity ≤ ((l.roomy g).setIterator l.slot b).registers.size :=
      h.size_le
    rw [takeRound_some]
    dsimp only
    rw [register_variable hsize harity]
    rfl
  exact ⟨b, hnew key' value hnext,
    roundResult_of_next (hacting.trans (congrArg some hround))⟩

/-- A round of a loop that a traversal drives comes to what the table has behind the key. -/
theorem ByTraversal.shows : ∃ r, s.machine.roundResult? = some r ∧
    l.Shows (l.ByTraversal t) s (u.world.heap.next t key) r := by
  rcases hnext : u.world.heap.next t key with f | ⟨_ | ⟨key', value⟩⟩
  · obtain ⟨b, -, hacting⟩ := hby.acting h
    rw [hnext] at hacting
    exact ⟨_, roundResult_of_error hacting, .raised h.current⟩
  · obtain ⟨b, -, hacting⟩ := hby.acting h
    rw [hnext] at hacting
    refine ⟨_, roundResult_of_next hacting, .ends ?_ (h.register _)⟩
    show Frame.displace g.pc 1 = _
    rw [h.pc]
  · obtain ⟨b, hnew, hresult⟩ := hby.round_of_pair h harity hnext
    have hsize : l.base + 3 + l.arity ≤ ((l.roomy g).setIterator l.slot b).registers.size :=
      h.size_le
    refine ⟨_, hresult, .again ?_ (slice_roundFrame hsize) (control_roundFrame hsize)
      ⟨?_, ?_, b, ?_, hnew⟩⟩
    · rw [pc_roundFrame, ← h.pc]
      rfl
    · exact (register_roundFrame_of_lt (by omega)).trans ((h.register _).trans hby.iterated)
    · obtain ⟨vm, hvm, hgeneral⟩ := hby.general
      obtain ⟨vm', hvm', hevolves⟩ := h.aside.evolves.machine hvm
      refine ⟨vm', ?_, hevolves.settings ▸ hgeneral⟩
      rw [vm_roundFrame]
      show u.world.vm? g.vm = _
      rw [h.frame]
      exact hvm'
    · unfold Frame.iterator?
      rw [iterators_roundFrame]
      exact Frame.iterator?_setIterator _ _ _

end ByTraversal

/-- The traversal that prepares a loop over a table stands at its start. -/
structure Prepares (l : GenericLoop) (t : TableId) (p s : Running) : Prop where
  /-- The instruction that prepares the loop comes next. -/
  next : ∃ i, Machine.nextInstruction? p.world p.frame = some i ∧ i.operation = .genericPrep ∧
    i.operands.a = l.base
  /-- The first register of the loop holds the table. -/
  iterated : p.frame.register l.base = .table t
  /-- The machine allows loops over tables. -/
  general : ∃ vm, p.world.vm? p.frame.vm = some vm ∧ vm.settings.generalizedIteration = true
  /-- The instruction leads to the loop. -/
  step : p.machine.step = s.machine

theorem eq_of_ofOutcome {r : EStateM.Result Failure Running Outcome}
    (h : Machine.ofOutcome r = s.machine) : r = .ok .next s := by
  obtain ⟨w, f, stack⟩ := s
  rcases r with ⟨outcome, ⟨w', f', stack'⟩⟩ | ⟨failure, v⟩
  · cases outcome <;> cases h
    rfl
  · cases h

theorem Prepares.byTraversal {p : Running} (h : l.Prepares t p s) {i' : Instruction}
    (hat : l.At s i') : l.ByTraversal t .nil s := by
  obtain ⟨i, hi, hoperation, hbase⟩ := h.next
  obtain ⟨vm, hvm, hgeneral⟩ := h.general
  have hdispatch : Effect.dispatch i p = .ok .next s := by
    refine eq_of_ofOutcome (Eq.trans ?_ h.step)
    unfold Running.machine
    rw [Machine.step_run, hi]
  obtain ⟨-, u, haside, hprep⟩ :=
    Effect.genericPrep_of_dispatch hoperation hdispatch fun values h => by cases h
  have hiterated : u.frame.register l.base = .table t := by
    rw [haside.frame]
    exact h.iterated
  obtain ⟨loop, arity, hloop, harity, rfl⟩ :=
    Effect.genericPrep_of_table (hbase ▸ hiterated) (haside.settings hvm ▸ hgeneral) hprep
  obtain ⟨⟨vm', hvm'⟩, hcode⟩ := Machine.code_of_next hat.next
  have hslot : Frame.displace u.frame.pc i.operands.d = l.slot := hat.slot
  refine ⟨hiterated, ⟨vm', hvm', ?_⟩, { table := t, arity }, ?_, rfl, ?_, rfl, rfl⟩
  · obtain ⟨vm'', hvm'', hevolves⟩ := haside.evolves.machine hvm
    rw [← hgeneral, ← hevolves.settings]
    have hvm₀ : u.world.vm? u.frame.vm = some vm' := hvm'
    rw [haside.frame] at hvm₀
    exact congrArg (fun vm => vm.settings.generalizedIteration)
      (Option.some.inj (hvm₀.symm.trans hvm''))
  · rw [← hslot]
    exact Frame.iterator?_setIterator _ _ _
  · have hsame : loop = i' := Option.some.inj (hloop.symm.trans hcode)
    rw [hsame, hat.arity] at harity
    cases harity
    rfl

end GenericLoop

end ScriptMachine
