import ScriptMachine.Proofs.Flow.Runs
import ScriptMachine.Proofs.Loops.Agreement
import ScriptMachine.Proofs.Loops.Bridges
import ScriptMachine.Proofs.Table.Traversal

/-!
# Counting the rounds of a loop

A loop over a table that does not change meanwhile makes one round for each entry of the table, in
the order of a traversal.  Its traversal is resumed once for every round, and once more to find the
end.
-/

namespace ScriptMachine

/-! ## Entries one after the other -/

namespace Table

variable {t : Table} {last : Value} {pair : Value × Value} {found : List (Value × Value)}

/-- The entries of a table, in the order of a traversal. -/
def pairs (t : Table) : List (Value × Value) := t.keys.map fun key => (key, t.get key)

/-- The key behind which a traversal stands that has yielded a number of entries. -/
def behind (t : Table) : Nat → Value
  | 0 => .nil
  | j + 1 => (t.pairs.getD j (.nil, .nil)).1

/-- A traversal that goes on behind a key yields some pairs, and ends. -/
def Yields (t : Table) (last : Value) (found : List (Value × Value)) : Prop :=
  ∀ limit, t.pairsFrom limit last = .ok (found.take limit)

theorem Yields.next (h : t.Yields last found) : t.next last = .ok found.head? := by
  have hone := h 1
  unfold pairsFrom at hone
  rcases hnext : t.next last with f | ⟨_ | pair⟩ <;> rw [hnext] at hone
  · cases hone
  · cases found with
    | nil => rfl
    | cons other rest => cases hone
  · cases found with
    | nil => cases hone
    | cons other rest =>
      cases hone
      rfl

theorem Yields.tail (h : t.Yields last (pair :: found)) : t.Yields pair.1 found := by
  intro limit
  have hmore := h (limit + 1)
  unfold pairsFrom at hmore
  rw [h.next] at hmore
  cases hrest : t.pairsFrom limit pair.1 with
  | error f =>
    simp only [List.head?_cons, bind, Except.bind, hrest] at hmore
    cases hmore
  | ok rest =>
    simp only [List.head?_cons, bind, Except.bind, hrest] at hmore
    cases hmore
    rfl

theorem Yields.behind (h : t.Yields .nil t.pairs) {j : Nat} (hj : j ≤ t.pairs.length) :
    t.Yields (t.behind j) (t.pairs.drop j) := by
  induction j with
  | zero => exact h
  | succ j ih =>
    have hrest := ih (by omega)
    rw [List.drop_eq_getElem_cons hj] at hrest
    have htail := hrest.tail
    show t.Yields (t.pairs.getD j (.nil, .nil)).1 _
    rwa [List.getD_eq_getElem?_getD, List.getElem?_eq_getElem hj, Option.getD_some]

/-- Behind each entry `next` finds the next one. -/
theorem WellFormed.next_behind (ht : t.WellFormed) (hkeyed : t.Keyed) {j : Nat}
    (hj : j ≤ t.pairs.length) : t.next (t.behind j) = .ok t.pairs[j]? := by
  have hyields : t.Yields .nil t.pairs := ht.pairsFrom_nil hkeyed
  rw [(hyields.behind hj).next, List.head?_drop]

end Table

/-! ## The same frame at different moments -/

namespace Machine

variable {m : Machine} {f g : Frame} {slot : Nat}

/-- The loop that the next step prepares or continues, given by its frame and its slot. -/
def touched? (m : Machine) : Option (FrameId × Nat) :=
  match m.dispatching? with
  | some (f, i) =>
    match i.operation with
    | .genericPrep => some (f.id, Frame.displace (f.pc + 1) i.operands.d)
    | .genericLoop => some (f.id, f.pc)
    | _ => none
  | none => none

theorem Tends.iterator?_eq (h : m.Tends f g) (huntouched : m.touched? ≠ some (f.id, slot)) :
    g.iterator? slot = f.iterator? slot := by
  unfold touched? at huntouched
  show g.iterators.lookup slot = _
  cases h with
  | begins next operation _ pc iterators =>
    simp only [next, operation, ← pc, ne_eq, Option.some.injEq, Prod.mk.injEq, true_and]
      at huntouched
    rw [iterators]
    exact Frame.iterator?_setIterator_of_ne fun h => huntouched h.symm
  | advances next operation _ _ iterators =>
    simp only [next, operation, ne_eq, Option.some.injEq, Prod.mk.injEq, true_and] at huntouched
    rw [iterators]
    exact Frame.iterator?_setIterator_of_ne fun h => huntouched h.symm
  | ends next operation _ _ iterators =>
    simp only [next, operation, ne_eq, Option.some.injEq, Prod.mk.injEq, true_and] at huntouched
    rw [iterators]
    exact Frame.iterator?_dropIterator_of_ne fun h => huntouched h.symm

/-- A frame that is in progress at two moments is in progress between them. -/
theorem Anchored.mem_between (hm : m.Anchored) {id : FrameId} (hid : id ∈ m.frameIds) {j k : Nat}
    (hjk : j ≤ k) (hk : id ∈ (step^[k] m).frameIds) : id ∈ (step^[j] m).frameIds := by
  rcases (advances_later m hjk).old id hk with hold | hnew
  · exact hold
  · obtain ⟨f, hf, rfl⟩ := List.mem_map.1 hid
    have hfresh : f.id.index < m.world.nextFrame := hm.fresh f hf
    have hle := (advances_iterate m j).next_le
    omega

theorem Anchored.eq_of_id (hm : m.Anchored) (hf : f ∈ m.frames) (hg : g ∈ m.frames)
    (hid : f.id = g.id) : f = g := List.inj_on_of_nodup_map hm.nodup hf hg hid

/-- A frame at a later moment is the same call, and has the traversal for a loop that it had, if the
loop has not been touched. -/
theorem Anchored.later (hm : m.Anchored) (hf : f ∈ m.frames) (slot : Nat) {k : Nat}
    (hg : g ∈ (step^[k] m).frames) (hid : g.id = f.id) : g.home = f.home ∧
      ((∀ j < k, (step^[j] m).touched? ≠ some (f.id, slot)) →
        g.iterator? slot = f.iterator? slot) := by
  induction k generalizing g with
  | zero =>
    obtain rfl := hm.eq_of_id hg hf hid
    exact ⟨rfl, fun _ => rfl⟩
  | succ k ih =>
    have hbefore : f.id ∈ (step^[k] m).frameIds := by
      refine hm.mem_between (List.mem_map_of_mem hf) k.le_succ ?_
      rw [← hid]
      exact List.mem_map_of_mem hg
    rw [Function.iterate_succ_apply'] at hg
    rcases tends_step ((advances_iterate m k).anchored hm) hg with
      ⟨f', hf', hhome, htends⟩ | ⟨hnew, -⟩
    · have hid' : f'.id = f.id := (Frame.home_eq_iff.1 hhome).1.trans hid
      obtain ⟨hhome', hsame⟩ := ih hf' hid'
      refine ⟨hhome.symm.trans hhome', fun huntouched => ?_⟩
      rw [← hsame fun j hj => huntouched j (Nat.lt_succ_of_lt hj)]
      rcases htends with heq | htends
      · unfold Frame.iterator?
        rw [heq]
      · refine htends.iterator?_eq ?_
        rw [hid']
        exact huntouched k k.lt_succ_self
    · rw [hid] at hnew
      exact absurd hbefore hnew

/-- What a frame that acts does does not end it, if it is in progress afterwards. -/
theorem Anchored.goes_on (hm : m.Anchored) {r : EStateM.Result Failure Running Outcome}
    (hacting : m.acting? = some r) (hid : (Effect.stateOf r).frame.id ∈ m.step.frameIds) :
    endingOf r = none := by
  cases hends : endingOf r with
  | none => rfl
  | some result =>
    exact absurd hid (hm.not_mem_of_ending (ending_of_acting hacting hends) (.refl _))

/-- A frame that executes is not behind its code, if it is in progress afterwards. -/
theorem Anchored.next_of_stays (hm : m.Anchored) (hg : m.control = .run g)
    (hid : g.id ∈ m.step.frameIds) : ∃ i, nextInstruction? m.world g = some i := by
  cases hnext : nextInstruction? m.world g with
  | some i => exact ⟨i, rfl⟩
  | none =>
    have hacting : m.acting? = some (.ok (.leave []) ⟨m.world, g, m.stack⟩) := by
      obtain ⟨w, stack, control⟩ := m
      dsimp only at hg hnext
      unfold acting?
      simp only [hg, hnext]
    cases hm.goes_on hacting hid

end Machine

/-! ## Turns of a loop -/

namespace GenericLoop

variable {l : GenericLoop} {m : Machine} {f g : Frame} {u : Running} {i : Instruction} {b : Bridge}

/-- A frame is about to continue a loop, and what it iterates over is no function. -/
structure Turn (l : GenericLoop) (m : Machine) (g : Frame) (i : Instruction) : Prop where
  /-- The frame executes. -/
  control : m.control = .run g
  /-- The instruction of the loop comes next. -/
  at_ : l.At ⟨m.world, g, m.stack⟩ i
  /-- The machine allows loops over tables. -/
  general : ∃ vm, m.world.vm? g.vm = some vm ∧ vm.settings.generalizedIteration = true
  /-- The first register of the loop holds no function. -/
  iterated : (g.register l.base).isFunction = false

/-- What a turn of a loop makes of its traversal, by what that gives. -/
inductive Turned (l : GenericLoop) (b : Bridge) (heap : Heap) (g : Frame) : Prop where
  /-- There is a round: the variables take its values, and the body comes next. -/
  | round {values : List Value} (gives : (b.step heap).2 = .ok (some values))
    (pc : g.pc = Frame.displace (l.slot + 1) l.distance)
    (tuple : values.length = l.arity → g.slice (l.base + 3) l.arity = values)
    (advanced : g.iterator? l.slot = some (b.step heap).1)
  /-- There is none: the traversal is removed, and what is behind the loop comes next. -/
  | ends (gives : (b.step heap).2 = .ok none) (pc : g.pc = l.exit)
    (removed : g.iterator? l.slot = none)

theorem machine_of_run (h : m.control = .run g) :
    (⟨m.world, g, m.stack⟩ : Running).machine = m := by
  obtain ⟨w, stack, control⟩ := m
  unfold Running.machine
  rw [show control = .run g from h]

/-- When a frame that is about to continue its loop goes on, the hooks have passed and there is room
for the variables. -/
theorem At.ready (h : l.At ⟨m.world, g, m.stack⟩ i) (hcontrol : m.control = .run g)
    (hm : m.Anchored) (hstays : g.id ∈ m.step.frameIds) :
    ∃ u roomy, l.Ready ⟨m.world, g, m.stack⟩ i u roomy := by
  have hacting := h.acting
  rw [machine_of_run hcontrol] at hacting
  cases hbefore : Effect.beforeLoop i ⟨m.world, g, m.stack⟩ with
  | error failure u =>
    rw [Effect.bind_of_error hbefore] at hacting
    have hid : u.frame.id = g.id := by rw [(Effect.aside_of_error hbefore).frame]; rfl
    cases hm.goes_on hacting (hid.symm ▸ hstays)
  | ok early u =>
    rw [Effect.bind_of_ok hbefore] at hacting
    have hid : u.frame.id = g.id := by rw [(Effect.aside_of_ok hbefore).frame]; rfl
    cases early with
    | some values => cases hm.goes_on hacting (hid.symm ▸ hstays)
    | none =>
      cases hroom : u.frame.ensure? (l.base + 3 + l.arity) u.vm.settings.maxRegisters with
      | some roomy => exact ⟨u, roomy, h, hbefore, hroom⟩
      | none =>
        dsimp only at hacting
        rw [loopWork_of_none h hroom] at hacting
        cases hm.goes_on hacting (hid.symm ▸ hstays)

namespace Turn

variable (h : l.Turn m g i) (hm : m.Anchored) (hstays : g.id ∈ m.step.frameIds)

theorem machine_eq (h : l.Turn m g i) : (⟨m.world, g, m.stack⟩ : Running).machine = m :=
  machine_of_run h.control

include h hm hstays

/-- When the frame goes on, the hooks have passed and there is room for the variables. -/
theorem ready : ∃ u roomy, l.Ready ⟨m.world, g, m.stack⟩ i u roomy ∧
    u.vm.settings.generalizedIteration = true := by
  obtain ⟨u, roomy, hready⟩ := h.at_.ready h.control hm hstays
  obtain ⟨vm, hvm, hgeneral⟩ := h.general
  exact ⟨u, roomy, hready, hready.aside.settings hvm ▸ hgeneral⟩

/-- There is a traversal, since else the frame would fail. -/
theorem has_bridge : ∃ b, g.iterator? l.slot = some b := by
  obtain ⟨u, roomy, hready, hgeneral⟩ := h.ready hm hstays
  cases hb : g.iterator? l.slot with
  | some b => exact ⟨b, rfl⟩
  | none =>
    have hacting := acting_of_no_bridge hready h.iterated hgeneral hb
    rw [h.machine_eq] at hacting
    have hid : roomy.id = g.id := by rw [hready.frame]; rfl
    cases hm.goes_on hacting (show roomy.id ∈ _ from hid.symm ▸ hstays)

omit hm hstays

/-- Once its hooks have passed, the frame goes on with what its traversal gives, or fails with the
fault of its traversal. -/
theorem turned_of_ready {roomy : Frame}
    (hready : l.Ready ⟨m.world, g, m.stack⟩ i u roomy) (hb : g.iterator? l.slot = some b) :
    (∃ g', m.step.control = .run g' ∧ g'.home = g.home ∧ l.Turned b m.step.world.heap g') ∨
      ∃ fault v, (b.step u.world.heap).2 = .error fault ∧ v.frame.id = g.id ∧
        m.acting? = some (.error (.fault fault) v) := by
  obtain ⟨vm, hvm, hgeneral⟩ := h.general
  have hacting := acting_of_bridge hready h.iterated (hready.aside.settings hvm ▸ hgeneral) hb
  rw [h.machine_eq] at hacting
  have hhome : roomy.home = g.home := by rw [hready.frame]; rfl
  dsimp only at hacting
  rcases hgives : (b.step u.world.heap).2 with f | ⟨_ | values⟩ <;> rw [hgives] at hacting
  · exact .inr ⟨f, _, rfl, (Frame.home_eq_iff.1 hhome).1, hacting⟩
  · dsimp only at hacting
    rw [takeRound_none] at hacting
    have hstep := Machine.step_of_acting hacting
    refine .inl ⟨_, congrArg Machine.control hstep, hhome, ?_⟩
    rw [hstep]
    refine .ends hgives ?_ ?_
    · exact congrArg (Frame.displace · 1) hready.pc
    · show ((Frame.setIterator _ _ _).dropIterator roomy.current).iterator? l.slot = none
      rw [hready.current]
      exact Frame.iterator?_dropIterator _ _
  · dsimp only at hacting
    rw [takeRound_some] at hacting
    have hstep := Machine.step_of_acting hacting
    refine .inl ⟨_, congrArg Machine.control hstep, ?_, ?_⟩
    · have hput := Frame.sameCall_putAll
        ((l.roomy roomy).setIterator l.slot (b.step u.world.heap).1) (l.base + 3) values
      exact (Frame.home_eq_iff.2 ⟨hput.id, hput.vm, hput.prototype⟩).trans hhome
    · have hsize : l.base + 3 + l.arity ≤
          ((l.roomy roomy).setIterator l.slot (b.step u.world.heap).1).registers.size :=
        hready.size_le
      rw [hstep]
      refine .round hgives ?_ (fun hlength => slice_round hsize hlength _) ?_
      · show Frame.displace (Frame.putAll _ _ _).pc _ = _
        rw [Frame.pc_putAll]
        exact congrArg (Frame.displace · l.distance) hready.pc
      · show List.lookup l.slot (Frame.putAll _ _ _).iterators = _
        rw [Frame.iterators_putAll]
        exact Frame.iterator?_setIterator _ _ _

include hm hstays

/-- A frame that is in progress afterwards has gone on with what its traversal gives. -/
theorem turned (hb : g.iterator? l.slot = some b) : ∃ g', m.step.control = .run g' ∧
    g'.home = g.home ∧ l.Turned b m.step.world.heap g' := by
  obtain ⟨u, roomy, hready, -⟩ := h.ready hm hstays
  rcases h.turned_of_ready hready hb with hturned | ⟨fault, v, -, hid, hacting⟩
  · exact hturned
  · cases hm.goes_on hacting (show v.frame.id ∈ _ from hid.symm ▸ hstays)

end Turn

/-! ## Loops in the code of a module -/

variable {n : Module} {t : TableId}

/-- A loop stands in the code of a prototype. -/
def In (l : GenericLoop) (p : Prototype) : Prop :=
  ∃ i, p.code[l.slot]? = some (.instruction i) ∧ i.underlying = .genericLoop ∧
    i.operands.a = l.base ∧ i.operands.d = l.distance ∧ Effect.loopArity i = pure l.arity

/-- A frame that runs a version of the code has the loop in its code. -/
theorem In.version {s : Running} (h : l.In (n.prototype s.frame.prototype))
    (hruns : s.world.Runs s.frame.vm n) : ∃ i, s.prototype.code[l.slot]? = some (.instruction i) ∧
      i.operation = .genericLoop ∧ i.operands.a = l.base ∧ i.operands.d = l.distance ∧
      Effect.loopArity i = pure l.arity := by
  obtain ⟨j, hj, hunderlying, hbase, hdistance, harity⟩ := h
  obtain ⟨vm, hvm, hversion⟩ := hruns
  have hprototype : s.prototype = vm.prototype s.frame.prototype := by
    unfold Running.prototype Running.vm
    unfold World.vm? at hvm
    rw [Array.getD_eq_getD_getElem?, hvm, Option.getD_some]
  rcases rel_cases (hversion.prototype s.frame.prototype l.slot) with
    ⟨-, hnone⟩ | ⟨a, a', ha, ha', haa'⟩
  · rw [hj] at hnone
    cases hnone
  · rw [hj] at ha'
    cases ha'
    cases haa' with
    | @instruction i _ hij =>
      refine ⟨i, hprototype ▸ ha, ?_, hij.operands ▸ hbase, hij.operands ▸ hdistance, ?_⟩
      · rw [hij.operation, hij.underlying, hunderlying]
      · rw [← harity, hij.same]
        rfl

theorem In.at_ {s : Running} (h : l.In (n.prototype s.frame.prototype))
    (hruns : s.world.Runs s.frame.vm n) (hslot : s.frame.pc = l.slot)
    (hi : Machine.nextInstruction? s.world s.frame = some i) : l.At s i := by
  obtain ⟨j, hj, hoperation, hbase, hdistance, harity⟩ := h.version hruns
  have hcode := (Machine.code_of_next hi).2
  rw [hslot, hj] at hcode
  cases hcode
  exact ⟨hi, hslot, hoperation, hbase, hdistance, harity⟩

/-! ## Loops over a table -/

/-- A frame is about to prepare a loop over a table. -/
structure Starts (l : GenericLoop) (m : Machine) (f : Frame) (i : Instruction) (t : TableId) :
    Prop where
  /-- The instruction comes next. -/
  next : m.dispatching? = some (f, i)
  /-- It prepares a generic loop. -/
  operation : i.operation = .genericPrep
  /-- The loop is over the table. -/
  iterated : f.register i.operands.a = .table t
  /-- It is that loop. -/
  slot : Frame.displace (f.pc + 1) i.operands.d = l.slot
  /-- The machine allows loops over tables. -/
  general : ∃ vm, m.world.vm? f.vm = some vm ∧ vm.settings.generalizedIteration = true
  /-- The frame runs a module that has the loop in its code. -/
  code : ∃ n, m.world.Runs f.vm n ∧ l.In (n.prototype f.prototype)

/-- Something else than the instruction of the loop is in its slot, as a breakpoint. -/
def Hidden (l : GenericLoop) (s : Running) : Prop :=
  ∃ loop, s.prototype.code[l.slot]? = some (.instruction loop) ∧ loop.opcode ≠ .genericLoop

namespace Starts

variable (h : l.Starts m f i t)

include h

/-- Once the hooks have passed, the loop gets a fresh traversal, whatever traversal there has been.
When a breakpoint hides the loop, the frame fails. -/
theorem begins (hpasses : Effect.prelude i ⟨m.world, f, m.stack⟩ = .ok none u) :
    (¬ l.Hidden u → ∃ g, m.step.control = .run g ∧ g.home = f.home ∧ g.pc = l.slot ∧
      g.iterator? l.slot = some { table := t, arity := l.arity }) ∧
    (l.Hidden u → m.acting? = some (.error (.fault (.loopTarget l.slot)) u)) := by
  have haside := Effect.ends_prelude i _ _ hpasses
  have hframe : u.frame = { f with current := f.pc, pc := f.pc + 1 } := haside.frame
  have hregister : u.frame.register i.operands.a = .table t := by rw [hframe]; exact h.iterated
  have hslot : Frame.displace u.frame.pc i.operands.d = l.slot := by rw [hframe]; exact h.slot
  obtain ⟨vm, hvm, hgeneral⟩ := h.general
  obtain ⟨n, hruns, hin⟩ := h.code
  have hallowed : u.vm.settings.generalizedIteration = true := haside.settings hvm ▸ hgeneral
  obtain ⟨loop, hcode, -, -, -, harity⟩ := In.version (s := u) (by rw [hframe]; exact hin)
    (by rw [hframe]; exact haside.evolves.runs hruns)
  have hloop : u.prototype.code[Frame.displace u.frame.pc i.operands.d]?.map Slot.asInstruction =
      some loop := by
    rw [hslot, hcode]
    rfl
  have hacting := Machine.acting_of_dispatching h.next
  rw [Effect.dispatch_of_prep h.operation hpasses] at hacting
  constructor
  · intro hshown
    have hopcode : loop.opcode = .genericLoop := by
      by_contra hopcode
      exact hshown ⟨loop, hcode, hopcode⟩
    rw [Effect.bind_of_ok (Effect.genericPrep_of_loop hregister hallowed hloop hopcode harity)]
      at hacting
    refine ⟨_, congrArg Machine.control (Machine.step_of_acting hacting), ?_, hslot, ?_⟩
    · show u.frame.home = _
      rw [hframe]
      rfl
    · rw [← hslot]
      exact Frame.iterator?_setIterator _ _ _
  · rintro ⟨other, hother, hopcode⟩
    rw [hcode] at hother
    cases hother
    have hfails := Effect.genericPrep_of_hidden hregister hallowed hloop hopcode
    rw [hacting, Effect.bind_of_error hfails, hslot]

/-- A frame that is in progress afterwards has a fresh traversal for the loop. -/
theorem begins_of_stays (hm : m.Anchored) (hstays : f.id ∈ m.step.frameIds) :
    ∃ g, m.step.control = .run g ∧ g.home = f.home ∧
      g.iterator? l.slot = some { table := t, arity := l.arity } := by
  have hacting := Machine.acting_of_dispatching h.next
  rw [Effect.dispatch_eq] at hacting
  have hid := congrArg (·.id) (Effect.aside_prelude i ⟨m.world, f, m.stack⟩).frame
  unfold Effect.after at hid
  cases hpasses : Effect.prelude i ⟨m.world, f, m.stack⟩ with
  | error failure u =>
    rw [Effect.bind_of_error hpasses] at hacting
    rw [hpasses] at hid
    cases hm.goes_on hacting (show u.frame.id ∈ _ from hid.symm ▸ hstays)
  | ok early u =>
    rw [hpasses] at hid
    replace hid : u.frame.id = f.id := hid
    cases early with
    | some values =>
      rw [Effect.bind_of_ok hpasses] at hacting
      cases hm.goes_on hacting (hid.symm ▸ hstays)
    | none =>
      obtain ⟨hshown, hhidden⟩ := h.begins hpasses
      by_cases hides : l.Hidden u
      · cases hm.goes_on (hhidden hides) (hid.symm ▸ hstays)
      · obtain ⟨g, hg, hhome, -, hfresh⟩ := hshown hides
        exact ⟨g, hg, hhome, hfresh⟩

end Starts

end GenericLoop

/-- Where a traversal of a table stands that has given a number of rounds. -/
structure Table.Stands (content : Table) (t : TableId) (arity j : Nat) (b : Bridge) : Prop where
  /-- It is one of that table. -/
  table : b.table = t
  /-- Its rounds have that many values. -/
  arity : b.arity = arity
  /-- It has not reported the end. -/
  goes : b.finished = false
  /-- It stands behind the entry that it has given last. -/
  traversal : b.traversal = .behind (content.behind j)
  /-- It has been resumed once for every round. -/
  resumes : b.resumes = j

/-- The table gives its next entry, or none when it has given all of them. -/
theorem Table.Stands.step {content : Table} {t : TableId} {arity j : Nat} {b : Bridge} {heap : Heap}
    (h : content.Stands t arity j b) (ht : content.WellFormed) (hkeyed : content.Keyed)
    (hj : j ≤ content.pairs.length) (hheap : heap.table t = content) :
    (b.step heap).1.resumes = j + 1 ∧ match content.pairs[j]? with
      | none => (b.step heap).2 = .ok none
      | some (key, value) => (b.step heap).2 = .ok (some (fitTo arity [key, value])) ∧
        content.Stands t arity (j + 1) (b.step heap).1 := by
  have hnext : heap.next b.table (content.behind j) = .ok content.pairs[j]? := by
    show (heap.table b.table).next _ = _
    rw [h.table, hheap, ht.next_behind hkeyed hj]
  rw [Bridge.step_behind h.goes h.traversal, hnext]
  cases hpair : content.pairs[j]? with
  | none => exact ⟨congrArg (· + 1) h.resumes, rfl⟩
  | some pair =>
    refine ⟨congrArg (· + 1) h.resumes, ?_, h.table, h.arity, h.goes, ?_,
      congrArg (· + 1) h.resumes⟩
    · show Except.ok (some (fitTo b.arity _)) = _
      rw [h.arity]
    · show Traversal.behind pair.1 = .behind (content.pairs.getD j (.nil, .nil)).1
      rw [List.getD_eq_getElem?_getD, hpair, Option.getD_some]

namespace GenericLoop

variable {l : GenericLoop} {m : Machine} {f g : Frame} {t : TableId} {content : Table} {n : Nat}
  {turn : Nat → Nat}

open Machine

/-- A frame prepares a loop over a table, and afterwards continues it some times, the table being
the same all the while. -/
structure Laps (l : GenericLoop) (m : Machine) (f : Frame) (t : TableId) (content : Table) (n : Nat)
    (turn : Nat → Nat) : Prop where
  /-- The frame is about to prepare the loop over the table. -/
  starts : ∃ i, l.Starts m f i t
  /-- The first turn comes later. -/
  first : 0 < turn 0
  /-- The turns come one after the other. -/
  order : ∀ j < n, turn j < turn (j + 1)
  /-- At each turn the frame is about to continue the loop, and iterates over no function. -/
  turns : ∀ j ≤ n, ∃ g, (step^[turn j] m).control = .run g ∧ g.id = f.id ∧ g.pc = l.slot ∧
    (g.register l.base).isFunction = false
  /-- At no other moment does it prepare or continue the loop. -/
  only : ∀ k, 0 < k → k ≤ turn n → (step^[k] m).touched? = some (f.id, l.slot) →
    ∃ j ≤ n, k = turn j
  /-- The table does not change. -/
  unchanged : ∀ k ≤ turn n + 1, (step^[k] m).world.heap.table t = content
  /-- The frame is still in progress after the last turn. -/
  stays : f.id ∈ (step^[turn n + 1] m).frameIds

/-- What one turn of a loop over a table comes to. -/
inductive Lap (l : GenericLoop) (content : Table) (j : Nat) (m : Machine) : Prop
  /-- A round with the next entry of the table. -/
  | round {g g' : Frame} {b b' : Bridge} {key value : Value} (before : m.control = .run g)
    (drives : g.iterator? l.slot = some b) (resumed : b.resumes = j)
    (entry : content.pairs[j]? = some (key, value)) (after : m.step.control = .run g')
    (body : g'.pc = Frame.displace (l.slot + 1) l.distance)
    (tuple : g'.slice (l.base + 3) l.arity = fitTo l.arity [key, value])
    (goes : g'.iterator? l.slot = some b') (again : b'.resumes = j + 1)
  /-- The end, behind the last entry. -/
  | ends {g g' : Frame} {b : Bridge} (before : m.control = .run g)
    (drives : g.iterator? l.slot = some b) (resumed : b.resumes = j)
    (entry : j = content.pairs.length) (after : m.step.control = .run g') (behind : g'.pc = l.exit)
    (removed : g'.iterator? l.slot = none)
    (again : (b.step m.step.world.heap).1.resumes = j + 1)

namespace Laps

theorem turn_le (h : l.Laps m f t content n turn) {j k : Nat} (hjk : j ≤ k) (hk : k ≤ n) :
    turn j ≤ turn k := by
  induction hjk with
  | refl => exact le_rfl
  | step _ ih => exact (ih (by omega)).trans (h.order _ hk).le

theorem first_le (h : l.Laps m f t content n turn) {j : Nat} (hj : j ≤ n) : 0 < turn j :=
  h.first.trans_le (h.turn_le j.zero_le hj)

theorem stays_after (h : l.Laps m f t content n turn) (hm : m.Anchored) {k : Nat}
    (hk : k ≤ turn n + 1) : f.id ∈ (step^[k] m).frameIds := by
  obtain ⟨i, hstarts⟩ := h.starts
  exact hm.mem_between (mem_frameIds_of_run (dispatching_spec hstarts.next).1) hk h.stays

/-- From a moment between two turns to the next turn, nothing happens to the traversal. -/
theorem waits (h : l.Laps m f t content n turn) (hm : m.Anchored) {j k : Nat} (hj : j ≤ n)
    (hk : 0 < k) (hkj : k ≤ turn j) (hpast : ∀ j' < j, turn j' < k)
    (hg : (step^[k] m).control = .run g) (hid : g.id = f.id) :
    ∃ g', (step^[turn j] m).control = .run g' ∧ g'.home = g.home ∧ g'.pc = l.slot ∧
      (g'.register l.base).isFunction = false ∧ g'.iterator? l.slot = g.iterator? l.slot := by
  obtain ⟨g', hg', hid', hslot, hfunction⟩ := h.turns j hj
  have hlater : step^[turn j] m = step^[turn j - k] (step^[k] m) := by
    rw [← Function.iterate_add_apply, Nat.sub_add_cancel hkj]
  have hmem : g' ∈ (step^[turn j - k] (step^[k] m)).frames := by
    rw [← hlater]
    exact mem_frames_of_run hg'
  obtain ⟨hhome, hsame⟩ := ((advances_iterate m k).anchored hm).later
    (mem_frames_of_run hg) l.slot hmem (hid'.trans hid.symm)
  refine ⟨g', hg', hhome, hslot, hfunction, hsame fun p hp htouched => ?_⟩
  rw [← Function.iterate_add_apply, hid] at htouched
  have hle : turn j ≤ turn n := h.turn_le hj le_rfl
  obtain ⟨j', hj', heq⟩ := h.only (p + k) (by omega) (by omega) htouched
  rcases Nat.lt_or_ge j' j with hlt | hge
  · have := hpast j' hlt
    omega
  · have := h.turn_le hge hj'
    omega

/-- A frame that stands at the loop takes a turn. -/
theorem turn_of (h : l.Laps m f t content n turn) (hm : m.Anchored) {j : Nat} (hj : j ≤ n)
    (hg : (step^[turn j] m).control = .run g) (hhome : g.home = f.home) (hslot : g.pc = l.slot)
    (hfunction : (g.register l.base).isFunction = false) :
    ∃ i, l.Turn (step^[turn j] m) g i ∧ g.id ∈ (step^[turn j] m).step.frameIds := by
  obtain ⟨hid, hvm, hprototype⟩ := Frame.home_eq_iff.1 hhome
  obtain ⟨_, hstarts⟩ := h.starts
  obtain ⟨n', hruns, hin⟩ := hstarts.code
  obtain ⟨vm, hfound, hgeneral⟩ := hstarts.general
  have hevolves := iterate_evolves m (turn j)
  have hstays : g.id ∈ (step^[turn j] m).step.frameIds := by
    rw [hid, ← Function.iterate_succ_apply' step]
    exact h.stays_after hm (Nat.succ_le_succ (h.turn_le hj le_rfl))
  obtain ⟨i, hi⟩ := ((advances_iterate m _).anchored hm).next_of_stays hg hstays
  obtain ⟨vm', hfound', hevolved⟩ := hevolves.machine hfound
  refine ⟨i, ⟨hg, ?_, ⟨vm', hvm ▸ hfound', hevolved.settings ▸ hgeneral⟩, hfunction⟩, hstays⟩
  exact In.at_ (s := ⟨_, g, (step^[turn j] m).stack⟩) (hprototype ▸ hin)
    (hvm ▸ hevolves.runs hruns) hslot hi

/-- At each turn the traversal has given the entries of the turns before. -/
theorem stands (h : l.Laps m f t content n turn) (hm : m.Anchored) (ht : content.WellFormed)
    (hkeyed : content.Keyed) {j : Nat} (hj : j ≤ n) : j ≤ content.pairs.length ∧
      ∃ g b, (step^[turn j] m).control = .run g ∧ g.home = f.home ∧ g.pc = l.slot ∧
        (g.register l.base).isFunction = false ∧ g.iterator? l.slot = some b ∧
        content.Stands t l.arity j b := by
  induction j with
  | zero =>
    obtain ⟨i, hstarts⟩ := h.starts
    have hstays := h.stays_after hm (k := 1) (by omega)
    obtain ⟨g, hg, hhome, hfresh⟩ := hstarts.begins_of_stays hm hstays
    obtain ⟨g', hg', hhome', hpc, hfunction, hsame⟩ := h.waits hm hj (k := 1) Nat.one_pos
      (h.first_le hj) (fun _ h => absurd h (Nat.not_lt_zero _)) hg (Frame.home_eq_iff.1 hhome).1
    exact ⟨Nat.zero_le _, g', _, hg', hhome'.trans hhome, hpc, hfunction, hsame.trans hfresh,
      rfl, rfl, rfl, rfl, rfl⟩
  | succ j ih =>
    obtain ⟨hle, g, b, hg, hhome, hpc, hfunction, hb, hstands⟩ := ih (by omega)
    have hanchored := (advances_iterate m (turn j)).anchored hm
    obtain ⟨i, hturn, hstays⟩ := h.turn_of hm (by omega) hg hhome hpc hfunction
    obtain ⟨g₁, hg₁, hhome₁, hturned⟩ := hturn.turned hanchored hstays hb
    rw [← Function.iterate_succ_apply' step] at hg₁ hturned
    obtain ⟨g', hg', hhome', hpc', hfunction', hsame⟩ := h.waits hm hj (k := turn j + 1)
      (Nat.succ_pos _) (h.order j hj)
      (fun j' hj' => Nat.lt_succ_of_le (h.turn_le (Nat.le_of_lt_succ hj') (by omega))) hg₁
      ((Frame.home_eq_iff.1 (hhome₁.trans hhome)).1)
    have hhome'' : g'.home = f.home := hhome'.trans (hhome₁.trans hhome)
    obtain ⟨i', hturn', hstays'⟩ := h.turn_of hm hj hg' hhome'' hpc' hfunction'
    have hlast : turn j + 1 ≤ turn n + 1 := Nat.succ_le_succ (h.turn_le (by omega) le_rfl)
    obtain ⟨-, hgives⟩ := hstands.step ht hkeyed hle (h.unchanged _ hlast)
    -- The turn before has made a round: at the end there would be no traversal any more.
    cases hturned with
    | ends gives _ removed =>
      obtain ⟨b', hb'⟩ := hturn'.has_bridge ((advances_iterate m _).anchored hm) hstays'
      rw [hsame, removed] at hb'
      cases hb'
    | round gives _ _ advanced =>
      cases hpair : content.pairs[j]? with
      | none =>
        rw [hpair] at hgives
        rw [gives] at hgives
        cases hgives
      | some pair =>
        rw [hpair] at hgives
        exact ⟨(List.getElem?_eq_some_iff.1 hpair).1, g', _, hg', hhome'', hpc', hfunction',
          hsame.trans advanced, hgives.2⟩

/-- A loop over a table that does not change makes a round for each entry, in the order of a
traversal, and then ends. -/
theorem lap (h : l.Laps m f t content n turn) (hm : m.Anchored) (ht : content.WellFormed)
    (hkeyed : content.Keyed) {j : Nat} (hj : j ≤ n) : l.Lap content j (step^[turn j] m) := by
  obtain ⟨hle, g, b, hg, hhome, hpc, hfunction, hb, hstands⟩ := h.stands hm ht hkeyed hj
  obtain ⟨i, hturn, hstays⟩ := h.turn_of hm hj hg hhome hpc hfunction
  obtain ⟨g', hg', -, hturned⟩ := hturn.turned ((advances_iterate m _).anchored hm) hstays hb
  have hlast : turn j + 1 ≤ turn n + 1 := Nat.succ_le_succ (h.turn_le hj le_rfl)
  have hcontent := h.unchanged _ hlast
  rw [Function.iterate_succ_apply'] at hcontent
  obtain ⟨hresumes, hgives⟩ := hstands.step ht hkeyed hle hcontent
  cases hpair : content.pairs[j]? with
  | none =>
    rw [hpair] at hgives
    cases hturned with
    | round gives =>
      rw [gives] at hgives
      cases hgives
    | ends _ behind removed =>
      have hend : content.pairs.length ≤ j := List.getElem?_eq_none_iff.1 hpair
      exact .ends hg hb hstands.resumes (hle.antisymm hend) hg' behind removed hresumes
  | some pair =>
    rw [hpair] at hgives
    cases hturned with
    | ends gives =>
      rw [gives] at hgives
      cases hgives.1
    | round gives body tuple advanced =>
      rw [hgives.1] at gives
      cases gives
      exact .round hg hb hstands.resumes hpair hg' body (tuple (length_fitTo _ _)) advanced hresumes

end Laps

end GenericLoop

end ScriptMachine
