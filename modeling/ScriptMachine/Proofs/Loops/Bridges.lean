import ScriptMachine.Proofs.Calls.Isolation
import ScriptMachine.Proofs.Loops.Rounds

/-!
# Traversals of frames

The traversals that drive the loops of a frame belong to that frame alone.  It has at most one for
each loop; it gets it where it prepares the loop, advances it where it continues the loop, and loses
it at the end.  Nothing else that runs, in this frame or in others, changes it.
-/

namespace ScriptMachine

/-! ## Traversals that have ended -/

namespace Bridge

variable {b : Bridge} {heap : Heap}

theorem finished_of_end (h : (b.step heap).2 = .ok none) : (b.step heap).1.finished = true := by
  by_cases hfinished : b.finished = true
  · rw [step_of_finished hfinished]
    exact hfinished
  · rw [Bool.not_eq_true] at hfinished
    cases htraversal : b.traversal with
    | ended => rw [step_ended hfinished htraversal]
    | behind key =>
      rw [step_behind hfinished htraversal] at h ⊢
      rcases hnext : heap.next b.table key with f | ⟨_ | pair⟩
      · rw [hnext] at h
        cases h
      · rfl
      · rw [hnext] at h
        cases h

/-- A traversal that gives a round goes on. -/
theorem goes_of_round {round : List Value} (h : (b.step heap).2 = .ok (some round)) :
    (b.step heap).1.finished = false := by
  by_cases hfinished : b.finished = true
  · rw [step_of_finished hfinished] at h
    cases h
  · rw [Bool.not_eq_true] at hfinished
    cases htraversal : b.traversal with
    | ended =>
      rw [step_ended hfinished htraversal] at h
      cases h
    | behind key =>
      rw [step_behind hfinished htraversal] at h ⊢
      rcases hnext : heap.next b.table key with f | ⟨_ | pair⟩
      · rw [hnext] at h
        cases h
      · rw [hnext] at h
        cases h
      · exact hfinished

/-- A traversal that has been advanced at some moments, with the tables that there were. -/
def after (b : Bridge) (heaps : List Heap) : Bridge := heaps.foldl (fun b heap => (b.step heap).1) b

theorem after_of_finished (h : b.finished = true) (heaps : List Heap) : b.after heaps = b := by
  induction heaps with
  | nil => rfl
  | cons heap heaps ih =>
    show (b.step heap).1.after heaps = b
    rw [step_of_finished h]
    exact ih

/-- A traversal that has reported the end reports it for ever, and is not resumed again. -/
theorem ended_for_good (h : (b.step heap).2 = .ok none) (heaps : List Heap) (heap' : Heap) :
    ((b.step heap).1.after heaps).step heap' = ((b.step heap).1, .ok none) := by
  have hfinished := finished_of_end h
  rw [after_of_finished hfinished, step_of_finished hfinished]

end Bridge

/-! ## The traversals of a frame -/

namespace Frame

variable {f : Frame} {slot other : Nat} {b : Bridge}

theorem iterator?_dropIterator_of_ne (h : other ≠ slot) :
    (f.dropIterator slot).iterator? other = f.iterator? other := by
  unfold iterator? dropIterator
  dsimp only
  induction f.iterators with
  | nil => rfl
  | cons entry entries ih =>
    obtain ⟨key, bridge⟩ := entry
    by_cases hkey : key = slot
    · have hother : (other == slot) = false := by simp [h]
      simp [List.lookup_cons, hkey, hother, ih]
    · simp [List.lookup_cons, hkey, ih]

theorem iterator?_setIterator_of_ne (h : other ≠ slot) :
    (f.setIterator slot b).iterator? other = f.iterator? other := by
  show List.lookup other ((f.dropIterator slot).iterators ++ [(slot, b)]) = _
  have hother : (other == slot) = false := by simp [h]
  rw [List.lookup_append, List.lookup_cons, hother]
  simp only [List.lookup_nil, Option.or_none]
  exact iterator?_dropIterator_of_ne h

theorem dropIterator_setIterator :
    (f.setIterator slot b).dropIterator slot = f.dropIterator slot := by
  unfold setIterator dropIterator
  simp

/-- A frame has at most one traversal for a loop, and all of them go on. -/
structure OneEach (f : Frame) : Prop where
  /-- There is one for a slot at most. -/
  nodup : (f.iterators.map Prod.fst).Nodup
  /-- None has reported its end. -/
  goes : ∀ entry ∈ f.iterators, entry.2.finished = false

theorem OneEach.of_none (h : f.iterators = []) : f.OneEach :=
  ⟨by rw [h]; exact List.nodup_nil, fun entry hentry => by rw [h] at hentry; cases hentry⟩

theorem OneEach.congr {g : Frame} (h : f.OneEach) (hg : g.iterators = f.iterators) : g.OneEach :=
  ⟨by rw [hg]; exact h.nodup, by rw [hg]; exact h.goes⟩

theorem OneEach.dropIterator (h : f.OneEach) (slot : Nat) : (f.dropIterator slot).OneEach where
  nodup := (List.filter_sublist.map Prod.fst).nodup h.nodup
  goes entry hentry := h.goes entry (List.mem_filter.1 hentry).1

theorem OneEach.setIterator (h : f.OneEach) (slot : Nat) (hb : b.finished = false) :
    (f.setIterator slot b).OneEach where
  nodup := by
    show (((f.dropIterator slot).iterators ++ [(slot, b)]).map Prod.fst).Nodup
    rw [List.map_append]
    refine List.nodup_append.2 ⟨(h.dropIterator slot).nodup, List.nodup_singleton _, ?_⟩
    rintro key hkey _ hslot rfl
    rw [List.map_singleton, List.mem_singleton] at hslot
    obtain ⟨entry, hentry, rfl⟩ := List.mem_map.1 hkey
    have hne := (List.mem_filter.1 hentry).2
    rw [hslot] at hne
    simp at hne
  goes entry hentry := by
    rcases List.mem_append.1 hentry with hold | hnew
    · exact (h.dropIterator slot).goes entry hold
    · rw [List.mem_singleton.1 hnew]
      exact hb

/-- Which call a frame is: its identity, its machine and its prototype. -/
def home (f : Frame) : FrameId × VmId × Nat := (f.id, f.vm, f.prototype)

theorem home_eq_iff {g : Frame} :
    f.home = g.home ↔ f.id = g.id ∧ f.vm = g.vm ∧ f.prototype = g.prototype := by
  simp [home]

/-- Which call a frame is, and its traversals. -/
def loops (f : Frame) : (FrameId × VmId × Nat) × List (Nat × Bridge) := (f.home, f.iterators)

end Frame

/-! ## Instructions that touch traversals -/

namespace Effect

variable {s : Running} {i : Instruction}

/-- Preparing a loop moves the frame to the end of the loop, and may put a fresh traversal there. -/
theorem ends_genericPrep (i : Instruction) : (genericPrep i).Ends s fun _ t =>
    t = { s with frame := s.frame.jump i.operands.d } ∨
      ∃ table arity, s.frame.register i.operands.a = .table table ∧
        t = { s with frame := (s.frame.setIterator (Frame.displace s.frame.pc i.operands.d)
          { table, arity }).jump i.operands.d } := by
  intro _ t h
  unfold genericPrep at h
  simp only [register_bind, settings_bind] at h
  split at h
  · simp only [prototype_bind, get_bind] at h
    cases hloop : s.prototype.code[Frame.displace s.frame.pc i.operands.d]?.map
        Slot.asInstruction with
    | none =>
      simp only [hloop] at h
      cases h
    | some loop =>
      simp only [hloop] at h
      split at h
      · obtain ⟨arity, u, harity, h⟩ := ok_of_bind h
        obtain rfl := state_of_loopArity harity
        cases hvalue : u.frame.register i.operands.a <;> rw [hvalue] at h <;> cases h
        exact .inr ⟨_, arity, rfl, rfl⟩
      · cases h
  · cases h
    exact .inl rfl

/-- What continuing a loop makes of the traversal that a frame has for it. -/
inductive Continued (i : Instruction) (f : Frame) : Outcome → Running → Prop where
  /-- A function is called, and nothing is made of it. -/
  | calls {function : Value} {args : List Value} {next : Continuation} {t : Running}
    (iterators : t.frame.iterators = f.iterators) :
    Continued i f (.call function args next) t
  /-- It gives a round. -/
  | advances {b : Bridge} {round : List Value} {t : Running}
    (found : f.iterator? f.current = some b)
    (gives : (b.step t.world.heap).2 = .ok (some round))
    (iterators : t.frame.iterators =
      (f.setIterator f.current (b.step t.world.heap).1).iterators)
    (pc : t.frame.pc = Frame.displace f.pc i.operands.d) : Continued i f .next t
  /-- It reports the end. -/
  | ends {b : Bridge} {t : Running} (found : f.iterator? f.current = some b)
    (gives : (b.step t.world.heap).2 = .ok none)
    (iterators : t.frame.iterators = (f.dropIterator f.current).iterators)
    (pc : t.frame.pc = Frame.displace f.pc 1) : Continued i f .next t

/-- Advancing the traversal of a loop and taking what it gives. -/
theorem ends_round {u : Running} (hcall : s.frame.SameCall u.frame)
    (hplace : u.frame.pc = s.frame.pc ∧ u.frame.current = s.frame.current) (iterated : Value)
    (a : Nat) : (do
      match ← stepIterator iterated with
      | none =>
        modifyFrame fun f => f.dropIterator f.current
        jump 1
        return Outcome.next
      | some round =>
        modifyFrame fun f => f.putAll (a + 3) round
        put (a + 2) (← register (a + 3))
        jump i.operands.d
        return Outcome.next).Ends u (Continued i s.frame) := by
  obtain ⟨hpc, hcurrent⟩ := hplace
  intro outcome t h
  obtain ⟨round, v, hround, h⟩ := ok_of_bind h
  cases hb : u.frame.iterator? u.frame.current with
  | none =>
    unfold stepIterator at hround
    simp only [hb] at hround
    cases hround
  | some b =>
    have hfound : s.frame.iterator? s.frame.current = some b := by
      rw [← hcurrent, ← hb]
      unfold Frame.iterator?
      rw [hcall.iterators]
    have hset : ∀ b', (u.frame.setIterator u.frame.current b').iterators =
        (s.frame.setIterator s.frame.current b').iterators := by
      intro b'
      unfold Frame.setIterator Frame.dropIterator
      rw [hcall.iterators, hcurrent]
    have hdrop : (u.frame.dropIterator u.frame.current).iterators =
        (s.frame.dropIterator s.frame.current).iterators := by
      unfold Frame.dropIterator
      rw [hcall.iterators, hcurrent]
    rw [stepIterator_eq iterated hb] at hround
    rcases hstep : b.step u.world.heap with ⟨b', f | found⟩ <;>
      rw [show b.step _ = _ from hstep] at hround <;> cases hround
    cases round with
    | none =>
      cases h
      refine .ends hfound (congrArg Prod.snd hstep) ?_ ?_
      · exact (congrArg Frame.iterators Frame.dropIterator_setIterator).trans hdrop
      · exact congrArg (Frame.displace · 1) hpc
    | some values =>
      cases h
      refine .advances hfound (congrArg Prod.snd hstep) ?_ ?_
      · show (Frame.putAll _ _ _).iterators = _
        rw [Frame.iterators_putAll]
        exact (hset b').trans (congrArg _ (congrArg (s.frame.setIterator s.frame.current)
          (congrArg Prod.fst hstep).symm))
      · show Frame.displace (Frame.putAll _ _ _).pc _ = _
        rw [Frame.pc_putAll]
        exact congrArg (Frame.displace · i.operands.d) hpc

theorem ends_loopWork (i : Instruction) : (loopWork i).Ends s (Continued i s.frame) := by
  unfold loopWork
  refine Ends.bind (P := fun _ t => t = s) (fun _ t h => state_of_loopArity h) fun arity t ht => ?_
  subst ht
  refine (ends_ensure _).bind fun _ u hu => ?_
  obtain ⟨hgrown, -⟩ := hu
  have hcall : t.frame.SameCall { u.frame with top := (i.operands.a : Int) + 6 } :=
    hgrown.sameCall.trans (u.frame.sameCall_moved _ _ _)
  intro outcome v h
  simp only [modifyFrame_bind, register_bind, settings_bind] at h
  split at h
  · cases h
    exact .calls hcall.iterators
  · have hplace : u.frame.pc = t.frame.pc ∧ u.frame.current = t.frame.current := by
      rw [hgrown.frame]
      exact ⟨rfl, rfl⟩
    exact ends_round (u := ⟨u.world, _, u.stack⟩) hcall hplace _ _ outcome v h

/-- An instruction that prepares a loop. -/
theorem ends_dispatch_prep (h : i.operation = .genericPrep) : (dispatch i).Ends s fun outcome t =>
    (∃ values, outcome = .leave values) ∨ outcome = .next ∧
      (t.frame.iterators = s.frame.iterators ∨
        ∃ table arity, s.frame.register i.operands.a = .table table ∧
          t.frame.pc = Frame.displace (s.frame.pc + 1) i.operands.d ∧
          t.frame.iterators = (s.frame.setIterator t.frame.pc { table, arity }).iterators) := by
  rw [dispatch_eq]
  refine (ends_prelude i).bind fun early u hu => ?_
  cases early with
  | some values => exact ends_pure (.inl ⟨values, rfl⟩)
  | none =>
    show (execute i.operation i).Ends u _
    rw [h]
    refine (ends_genericPrep i).bind fun _ t ht => ends_pure (.inr ⟨rfl, ?_⟩)
    rw [hu.frame] at ht
    rcases ht with rfl | ⟨table, arity, hregister, rfl⟩
    · exact .inl rfl
    · exact .inr ⟨table, arity, hregister, rfl, rfl⟩

/-- An instruction that continues a loop. -/
theorem ends_dispatch_loop (h : i.operation = .genericLoop) : (dispatch i).Ends s fun outcome t =>
    (∃ values, outcome = .leave values) ∨ Continued i s.advanced.frame outcome t := by
  rw [dispatch_of_genericLoop h]
  refine Ends.bind (P := fun _ u => Aside s.advanced u) (fun _ u hu => aside_of_ok hu)
    fun early u hu => ?_
  cases early with
  | some values => exact ends_pure (.inl ⟨values, rfl⟩)
  | none =>
    rw [← hu.frame]
    exact (ends_loopWork i).mono fun outcome t ht => .inr ht

end Effect

/-! ## What the other instructions do -/

namespace Running

/-- The traversals of the frames that wait are the same. -/
structure LoopsWait (s t : Running) : Prop where
  /-- The frame is the same call. -/
  home : t.frame.home = s.frame.home
  /-- The frames that wait have the same traversals. -/
  waiting : t.stack.frames.map Frame.loops = s.stack.frames.map Frame.loops

/-- So are those of the frame. -/
structure SameLoops (s t : Running) : Prop extends LoopsWait s t where
  /-- The traversals of the frame. -/
  iterators : t.frame.iterators = s.frame.iterators

theorem LoopsWait.trans {s t u : Running} (h : s.LoopsWait t) (h' : t.LoopsWait u) :
    s.LoopsWait u := ⟨h'.home.trans h.home, h'.waiting.trans h.waiting⟩

/-- No basic effect touches the traversals of the frames that wait. -/
theorem steady_loopsWait : Effect.Steady LoopsWait where
  refl s := ⟨rfl, rfl⟩
  trans h h' := h.trans h'
  fault s f := ⟨rfl, rfl⟩
  frame s f hf _ := ⟨Frame.home_eq_iff.2 ⟨hf.id, hf.vm, hf.prototype⟩, rfl⟩
  moved s pc := ⟨rfl, rfl⟩
  setIterator s slot bridge := ⟨rfl, rfl⟩
  dropIterator s slot := ⟨rfl, rfl⟩
  heap s heap := ⟨rfl, rfl⟩
  perform s p _ := ⟨rfl, rfl⟩
  countHit s := ⟨rfl, rfl⟩
  confusion s := ⟨rfl, rfl⟩
  trace s line := ⟨rfl, rfl⟩
  writeCell id value s := by
    unfold Effect.after Effect.writeCell
    split
    · exact ⟨rfl, rfl⟩
    · split
      · exact ⟨rfl, rfl⟩
      · exact ⟨rfl, map_frames_putRegister (fun _ _ _ => rfl) _ _ _ _⟩
  closedCell value s := ⟨rfl, rfl⟩
  captureRegister slot s := ⟨Frame.home_eq_iff.2 ⟨Scope.capture_id _ _ _, rfl, rfl⟩, rfl⟩
  closeFrom slot s := ⟨rfl, rfl⟩
  createClosure index upvalues s := ⟨rfl, rfl⟩

/-- None but those on traversals touches the traversals of the frame. -/
theorem moving_sameLoops : Effect.Moving SameLoops where
  refl s := ⟨steady_loopsWait.refl s, rfl⟩
  trans h h' := ⟨h.toLoopsWait.trans h'.toLoopsWait, h'.iterators.trans h.iterators⟩
  fault s f := ⟨steady_loopsWait.fault s f, rfl⟩
  frame s f hf hpc := ⟨steady_loopsWait.frame s f hf hpc, hf.iterators⟩
  moved s pc := ⟨steady_loopsWait.moved s pc, rfl⟩
  heap s heap := ⟨steady_loopsWait.heap s heap, rfl⟩
  perform s p h := ⟨steady_loopsWait.perform s p h, rfl⟩
  trace s line := ⟨steady_loopsWait.trace s line, rfl⟩
  writeCell id value s := by
    refine ⟨steady_loopsWait.writeCell id value s, ?_⟩
    unfold Effect.after Effect.writeCell
    split
    · rfl
    · split <;> rfl
  closedCell value s := ⟨steady_loopsWait.closedCell value s, rfl⟩
  captureRegister slot s := ⟨steady_loopsWait.captureRegister slot s, rfl⟩
  closeFrom slot s := ⟨steady_loopsWait.closeFrom slot s, rfl⟩

/-- A closure that is made touches none. -/
theorem making_sameLoops : Effect.Making SameLoops where
  createClosure index upvalues s := ⟨steady_loopsWait.createClosure index upvalues s, rfl⟩

theorem SameLoops.frames {s t : Running} (h : s.SameLoops t) :
    t.frames.map Frame.loops = s.frames.map Frame.loops := by
  show t.frame.loops :: t.stack.frames.map Frame.loops = _
  unfold Frame.loops
  rw [h.home, h.iterators]
  exact congrArg _ h.waiting

/-- An instruction that neither prepares a generic loop nor continues one touches no traversal. -/
theorem sameLoops_dispatch {i : Instruction} (hprep : i.operation ≠ .genericPrep)
    (hloop : i.operation ≠ .genericLoop) : Effect.Keeps SameLoops (Effect.dispatch i) := by
  intro s
  refine Effect.upholdsAt_dispatch moving_sameLoops fun t _ => ?_
  exact Effect.keeps_execute moving_sameLoops _
    (fun _ s => ⟨steady_loopsWait.countHit s, rfl⟩) (fun _ => making_sameLoops)
    (fun _ s => moving_sameLoops.refl s)
    (fun h => absurd h hprep) (fun h => absurd h hloop) t

end Running

/-! ## Steps -/

namespace Machine

variable {m : Machine} {f g : Frame} {i : Instruction}

/-- What the instruction that a frame is about to run makes of its traversals, if it makes anything
of them. -/
inductive Tends (m : Machine) (f g : Frame) : Prop where
  /-- It prepares a loop over a table, which gets a fresh traversal. -/
  | begins {i : Instruction} {table : TableId} {arity : Nat} (next : m.dispatching? = some (f, i))
    (operation : i.operation = .genericPrep)
    (iterated : f.register i.operands.a = .table table)
    (pc : g.pc = Frame.displace (f.pc + 1) i.operands.d)
    (iterators : g.iterators = (f.setIterator g.pc { table, arity }).iterators)
  /-- It continues a loop, and the traversal gives a round. -/
  | advances {i : Instruction} {b : Bridge} {round : List Value}
    (next : m.dispatching? = some (f, i)) (operation : i.operation = .genericLoop)
    (found : f.iterator? f.pc = some b)
    (gives : (b.step m.step.world.heap).2 = .ok (some round))
    (iterators : g.iterators = (f.setIterator f.pc (b.step m.step.world.heap).1).iterators)
    (pc : g.pc = Frame.displace (f.pc + 1) i.operands.d)
  /-- It continues a loop, and the traversal reports the end. -/
  | ends {i : Instruction} {b : Bridge} (next : m.dispatching? = some (f, i))
    (operation : i.operation = .genericLoop) (found : f.iterator? f.pc = some b)
    (gives : (b.step m.step.world.heap).2 = .ok none)
    (iterators : g.iterators = (f.dropIterator f.pc).iterators)
    (pc : g.pc = Frame.displace (f.pc + 1) 1)

theorem mem_of_loops {fs gs : List Frame} (h : gs.map Frame.loops = fs.map Frame.loops)
    (hg : g ∈ gs) : ∃ f ∈ fs, f.home = g.home ∧ g.iterators = f.iterators := by
  have hmem : g.loops ∈ fs.map Frame.loops := h ▸ List.mem_map_of_mem hg
  obtain ⟨f, hf, hloops⟩ := List.mem_map.1 hmem
  obtain ⟨hhome, hiterators⟩ := Prod.mk.inj hloops
  exact ⟨f, hf, hhome, hiterators.symm⟩

/-- What a frame is about to do that prepares a generic loop or continues one, when it goes on. -/
theorem tends_of_next (hi : m.dispatching? = some (f, i))
    (hoperation : i.operation = .genericPrep ∨ i.operation = .genericLoop) {outcome : Outcome}
    {t : Running} (h : Effect.dispatch i ⟨m.world, f, m.stack⟩ = .ok outcome t)
    (hgoes : ∀ values, outcome ≠ .leave values) :
    t.frame.iterators = f.iterators ∨ m.Tends f t.frame := by
  have hstep := step_of_acting (acting_of_dispatching hi)
  rw [h] at hstep
  rcases hoperation with hprep | hloop
  · rcases Effect.ends_dispatch_prep hprep outcome t h with ⟨values, rfl⟩ | ⟨rfl, hsame | hbegins⟩
    · exact absurd rfl (hgoes values)
    · exact .inl hsame
    · obtain ⟨table, arity, hregister, hpc, hiterators⟩ := hbegins
      exact .inr (.begins hi hprep hregister hpc hiterators)
  · rcases Effect.ends_dispatch_loop hloop outcome t h with ⟨values, rfl⟩ | hcontinued
    · exact absurd rfl (hgoes values)
    · cases hcontinued with
      | calls hiterators => exact .inl hiterators
      | advances hfound hgives hiterators hpc =>
        have hworld : m.step.world = t.world := congrArg world hstep
        rw [← hworld] at hgives hiterators
        exact .inr (.advances hi hloop hfound hgives hiterators hpc)
      | ends hfound hgives hiterators hpc =>
        have hworld : m.step.world = t.world := congrArg world hstep
        rw [← hworld] at hgives
        exact .inr (.ends hi hloop hfound hgives hiterators hpc)

/-- A step makes something of the traversals of the frame that acts, and leaves those of the other
frames alone; a new frame has none. -/
theorem tends_step (hm : m.Anchored) (hg : g ∈ m.step.frames) :
    (∃ f ∈ m.frames, f.home = g.home ∧ (g.iterators = f.iterators ∨ m.Tends f g)) ∨
      g.id ∉ m.frameIds ∧ g.iterators = [] := by
  by_cases htouches : ∃ f i, m.dispatching? = some (f, i) ∧
      (i.operation = .genericPrep ∨ i.operation = .genericLoop)
  · obtain ⟨f, i, hi, hoperation⟩ := htouches
    have hframes : m.frames = f :: m.stack.frames := by
      unfold frames
      rw [(dispatching_spec hi).1]
    have hwait := Effect.keeps_dispatch Running.steady_loopsWait i ⟨m.world, f, m.stack⟩
    rw [step_of_acting (acting_of_dispatching hi)] at hg
    unfold Effect.after at hwait
    generalize hr : Effect.dispatch i ⟨m.world, f, m.stack⟩ = r at hg hwait
    have hbelow : g ∈ (Effect.stateOf r).stack.frames → ∃ f' ∈ m.frames, f'.home = g.home ∧
        (g.iterators = f'.iterators ∨ m.Tends f' g) := by
      intro hmem
      obtain ⟨f', hf', hhome, hiterators⟩ := mem_of_loops hwait.waiting hmem
      exact ⟨f', hframes ▸ List.mem_cons_of_mem _ hf', hhome, .inl hiterators⟩
    left
    rcases ofOutcome_cases r with ⟨hgoes, -, hframes', -⟩ | ⟨result, -, hstep⟩
    · rw [hframes'] at hg
      rcases List.mem_cons.1 hg with rfl | hmem
      · refine ⟨f, hframes ▸ List.mem_cons_self, hwait.home.symm, ?_⟩
        cases r with
        | error failure t => cases hgoes
        | ok outcome t =>
          refine tends_of_next hi hoperation hr fun values hleave => ?_
          rw [hleave] at hgoes
          cases hgoes
      · exact hbelow hmem
    · rw [hstep, Running.endWith_frames] at hg
      exact hbelow hg
  · have hsame : Move Running.SameLoops m := by
      refine move_of Running.moving_sameLoops fun f i hi => ?_
      exact Running.sameLoops_dispatch (fun h => htouches ⟨f, i, hi, .inl h⟩)
        (fun h => htouches ⟨f, i, hi, .inr h⟩) _
    have hold : ∀ fs, fs ⊆ m.frames → g ∈ fs → ∃ f ∈ m.frames, f.home = g.home ∧
        (g.iterators = f.iterators ∨ m.Tends f g) :=
      fun fs hfs hmem => ⟨g, hfs hmem, rfl, .inl rfl⟩
    cases hsame with
    | goesOn s t hworld hframes h _ _ hframes' =>
      rw [hframes'] at hg
      obtain ⟨f, hf, hhome, hiterators⟩ := mem_of_loops h.frames hg
      exact .inl ⟨f, hframes ▸ hf, hhome, .inl hiterators⟩
    | ends s t result hworld hframes h _ hstep =>
      rw [hstep, Running.endWith_frames] at hg
      obtain ⟨f, hf, hhome, hiterators⟩ := mem_of_loops h.waiting hg
      exact .inl ⟨f, hframes ▸ List.mem_cons_of_mem _ hf, hhome, .inl hiterators⟩
    | enters c vm args hframes _ _ hframes' =>
      rw [hframes'] at hg
      rcases List.mem_cons.1 hg with rfl | hmem
      · refine .inr ⟨fun hnew => ?_, rfl⟩
        obtain ⟨f, hf, hid⟩ := List.mem_map.1 hnew
        have hfresh := hm.fresh f hf
        rw [hid] at hfresh
        exact lt_irrefl _ hfresh
      · exact .inl (hold _ (hframes ▸ List.Subset.refl _) hmem)
    | overflows c vm args hframes _ hstep =>
      rw [hstep, Running.endWith_frames] at hg
      exact .inl (hold _ (hframes ▸ List.Subset.refl _) hg)
    | rests p _ _ hframes' =>
      rw [hframes'] at hg
      exact .inl (hold _ (List.Subset.refl _) hg)

/-- A frame that has at most one traversal for each loop has so after a step. -/
theorem Tends.oneEach (h : m.Tends f g) (hf : f.OneEach) : g.OneEach := by
  cases h with
  | begins _ _ _ _ hiterators => exact (hf.setIterator _ rfl).congr hiterators
  | advances _ _ _ hgives hiterators =>
    exact (hf.setIterator _ (Bridge.goes_of_round hgives)).congr hiterators
  | ends _ _ _ _ hiterators => exact (hf.dropIterator _).congr hiterators

/-- In all runs the frames in progress have at most one traversal for each loop. -/
theorem Reached.oneEach (h : m.Reached) : ∀ f ∈ m.frames, f.OneEach := by
  induction h with
  | refl => exact fun f hf => by cases hf
  | tail hreached next ih =>
    cases next with
    | step =>
      intro g hg
      rcases tends_step (Reached.anchored hreached) hg with
        ⟨f, hf, -, hsame | htends⟩ | ⟨-, hnone⟩
      · exact (ih f hf).congr hsame
      · exact htends.oneEach (ih f hf)
      · exact .of_none hnone
    | acts ended => exact fun f hf => ih f hf
    | calls => exact fun f hf => by cases hf

end Machine

end ScriptMachine
