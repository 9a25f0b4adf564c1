import ScriptMachine.Proofs.Calls.Isolation
import ScriptMachine.Proofs.Flow.Failures
import ScriptMachine.Proofs.Flow.Runs
import ScriptMachine.Proofs.Loops.Bridges
import ScriptMachine.Proofs.Number.Values

/-!
# Counting the rounds of a numeric loop

A numeric loop over integers makes as many rounds as there are integers from its start to its limit,
in steps of its increment, and its index takes them one after the other.  Up to 2^53 no sum is
rounded, so this holds of the doubles that the machine adds and compares.
-/

namespace ScriptMachine

/-! ## The count -/

namespace NumericLoop

/-- Whether a loop over integers goes on. -/
def goesOn (index limit step : Int) : Bool :=
  if 0 < step then index ≤ limit else limit ≤ index

/-- How many rounds a loop over integers makes. -/
def count (start limit step : Int) : Nat := (⌊((limit - start : Int) : ℚ) / step⌋ + 1).toNat

theorem goesOn_iff {start limit step : Int} (hstep : step ≠ 0) (j : Nat) :
    goesOn (start + j * step) limit step = true ↔ j < count start limit step := by
  have hcount : j < count start limit step ↔ ((j : Int) : ℚ) ≤ (limit - start : Int) / step := by
    rw [count, Int.lt_toNat, Int.lt_add_one_iff, Int.le_floor]
  rw [hcount, goesOn]
  rcases lt_or_gt_of_ne hstep with hneg | hpos
  · rw [if_neg (by omega), le_div_iff_of_neg (by exact_mod_cast hneg), decide_eq_true_eq]
    norm_cast
    omega
  · rw [if_pos hpos, le_div_iff₀ (by exact_mod_cast hpos), decide_eq_true_eq]
    norm_cast
    omega

/-- The machine compares doubles as the integers that they are. -/
theorem loopContinues_eq {x y z : Float} {index limit step : Int}
    (hx : Number.integer? x = some index) (hy : Number.integer? y = some limit)
    (hz : Number.integer? z = some step) : loopContinues x y z = goesOn index limit step := by
  have hzero : Number.integer? 0 = some 0 := rfl
  have hdirection : z > 0 ↔ 0 < step := Number.lt_iff_of_integer? hzero hz
  unfold loopContinues goesOn
  by_cases hpos : 0 < step
  · rw [if_pos hpos, if_pos (hdirection.2 hpos)]
    exact decide_eq_decide.2 (Number.le_iff_of_integer? hx hy)
  · rw [if_neg hpos, if_neg (mt hdirection.1 hpos)]
    exact decide_eq_decide.2 (Number.le_iff_of_integer? hy hx)

end NumericLoop

/-! ## What the instructions do -/

/-- The frame with the three numbers of a loop in its registers. -/
def Frame.withLoop (f : Frame) (base : Nat) (limit step index : Float) : Frame :=
  ((f.put base (.number limit)).put (base + 1) (.number step)).put (base + 2) (.number index)

/-- The frame that jumps if it is to. -/
def Frame.branch (f : Frame) (jumps : Bool) (distance : Int) : Frame :=
  if jumps then f.jump distance else f

namespace Effect

variable {s u : Running} {i : Instruction} {limit step index : Float}

theorem exists_ok {α : Type} {x : Effect α} (h : x.failure? s = none) : ∃ a t, x s = .ok a t := by
  unfold failure? at h
  cases hx : x s with
  | ok a t => exact ⟨a, t, rfl⟩
  | error failure t =>
    rw [hx] at h
    cases h

theorem loopNumber_bind {β : Type} {slot : Nat} {x : Float} (which : LoopNumber)
    (h : (s.frame.register slot).toNumber? = some x) (f : Float → Effect β) :
    (loopNumber slot which >>= f) s = f x s := by
  refine bind_of_ok ?_
  unfold loopNumber
  rw [register_bind, h]
  rfl

theorem loopNumber_fails {β : Type} {slot : Nat} (which : LoopNumber)
    (h : (s.frame.register slot).toNumber? = none) (f : Float → Effect β) :
    (loopNumber slot which >>= f) s =
      .error (.fault (.loopNumber which (s.frame.register slot).kind)) s := by
  refine bind_of_error ?_
  unfold loopNumber
  rw [register_bind, h]
  rfl

theorem execute_numericPrep (hlimit : (s.frame.register i.operands.a).toNumber? = some limit)
    (hstep : (s.frame.register (i.operands.a + 1)).toNumber? = some step)
    (hindex : (s.frame.register (i.operands.a + 2)).toNumber? = some index) :
    execute .numericPrep i s = .ok .next { s with
      frame := (s.frame.withLoop i.operands.a limit step index).branch
        (!loopContinues index limit step) i.operands.d } := by
  change (numericPrep i >>= fun _ => pure Outcome.next) s = _
  unfold numericPrep
  simp only [bind_assoc]
  rw [loopNumber_bind _ hlimit, loopNumber_bind _ hstep, loopNumber_bind _ hindex]
  simp only [put_bind]
  cases loopContinues index limit step <;> rfl

/-- When a register does not coerce, nothing is stored in any of them. -/
theorem execute_numericPrep_fails {j : Nat} (hj : j < 3)
    (h : (s.frame.register (i.operands.a + j)).toNumber? = none) : ∃ which kind,
      execute .numericPrep i s = .error (.fault (.loopNumber which kind)) s := by
  change ∃ which kind, (numericPrep i >>= fun _ => pure Outcome.next) s =
    .error (.fault (.loopNumber which kind)) s
  unfold numericPrep
  simp only [bind_assoc]
  cases hlimit : (s.frame.register i.operands.a).toNumber? with
  | none => exact ⟨_, _, loopNumber_fails _ hlimit _⟩
  | some limit =>
    rw [loopNumber_bind _ hlimit]
    cases hstep : (s.frame.register (i.operands.a + 1)).toNumber? with
    | none => exact ⟨_, _, loopNumber_fails _ hstep _⟩
    | some step =>
      rw [loopNumber_bind _ hstep]
      have hindex : (s.frame.register (i.operands.a + 2)).toNumber? = none := by
        interval_cases j <;> simp_all
      exact ⟨_, _, loopNumber_fails _ hindex _⟩

theorem execute_numericLoop (hpasses : interrupt .numericLoop s = .ok () u)
    (hlimit : u.frame.register i.operands.a = .number limit)
    (hstep : u.frame.register (i.operands.a + 1) = .number step)
    (hindex : u.frame.register (i.operands.a + 2) = .number index) :
    execute .numericLoop i s = .ok .next { u with
      frame := (u.frame.put (i.operands.a + 2) (.number (index + step))).branch
        (loopContinues (index + step) limit step) i.operands.d } := by
  change (numericLoop i >>= fun _ => pure Outcome.next) s = _
  unfold numericLoop
  simp only [bind_assoc]
  rw [bind_of_ok hpasses, numberIn_bind hlimit, numberIn_bind hstep, numberIn_bind hindex]
  simp only [put_bind]
  cases loopContinues (index + step) limit step <;> rfl

end Effect

/-! ## Integers in registers -/

/-- A value stands for an integer: it is a number that equals it, or a string that reads as one. -/
def Value.StandsFor (v : Value) (n : Int) : Prop :=
  ∃ x, v.toNumber? = some x ∧ Number.integer? x = some n

instance (v : Value) (n : Int) : Decidable (v.StandsFor n) :=
  decidable_of_iff (v.toNumber?.bind Number.integer? = some n) Option.bind_eq_some_iff

/-- A register holds a number that equals an integer. -/
def Frame.Integer (f : Frame) (slot : Nat) (n : Int) : Prop :=
  ∃ x, f.register slot = .number x ∧ Number.integer? x = some n

/-- The registers of a loop hold integers. -/
structure Frame.Counts (f : Frame) (base : Nat) (limit step index : Int) : Prop where
  /-- The first one holds the limit. -/
  limit : f.Integer base limit
  /-- The second one holds the increment. -/
  step : f.Integer (base + 1) step
  /-- The third one holds the index. -/
  index : f.Integer (base + 2) index

/-- The registers of a loop hold the same in two frames. -/
def Frame.SameLoop (f g : Frame) (base : Nat) : Prop :=
  ∀ j : Fin 3, g.register (base + j) = f.register (base + j)

instance (f g : Frame) (base : Nat) : Decidable (f.SameLoop g base) :=
  inferInstanceAs (Decidable (∀ j : Fin 3, g.register (base + j) = f.register (base + j)))

namespace Frame

variable {f g : Frame} {base slot : Nat} {limit step index : Int} {value : Value}

theorem lt_size_of_ne_nil (h : f.register slot ≠ .nil) : slot < f.registers.size := by
  by_contra hge
  exact h (register_of_size_le (Nat.le_of_not_lt hge))

theorem lt_size_of_toNumber? {x : Float} (h : (f.register slot).toNumber? = some x) :
    slot < f.registers.size :=
  lt_size_of_ne_nil fun hnil => by
    rw [hnil] at h
    cases h

theorem register_put_self (h : slot < f.registers.size) :
    (f.put slot value).register slot = value := by
  rw [register_put, if_pos ⟨rfl, h⟩]

/-- Only the registers of a loop matter. -/
theorem Counts.congr (h : f.Counts base limit step index) (hsame : f.SameLoop g base) :
    g.Counts base limit step index := by
  obtain ⟨⟨x, hlimit, hx⟩, ⟨y, hstep, hy⟩, ⟨z, hindex, hz⟩⟩ := h
  exact ⟨⟨x, (hsame 0).trans hlimit, hx⟩, ⟨y, (hsame 1).trans hstep, hy⟩,
    ⟨z, (hsame 2).trans hindex, hz⟩⟩

theorem counts_withLoop {x y z : Float} (hroom : base + 2 < f.registers.size)
    (hx : Number.integer? x = some limit) (hy : Number.integer? y = some step)
    (hz : Number.integer? z = some index) :
    (f.withLoop base x y z).Counts base limit step index := by
  unfold withLoop
  refine ⟨⟨x, ?_, hx⟩, ⟨y, ?_, hy⟩, ⟨z, ?_, hz⟩⟩
  · rw [register_put_of_ne (by omega), register_put_of_ne (by omega), register_put_self (by omega)]
  · rw [register_put_of_ne (by omega), register_put_self (by rw [size_put]; omega)]
  · rw [register_put_self (by rw [size_put, size_put]; omega)]

/-- The index of a loop may be replaced. -/
theorem Counts.put (h : f.Counts base limit step index) {z : Float} {next : Int}
    (hz : Number.integer? z = some next) :
    (f.put (base + 2) (.number z)).Counts base limit step next := by
  obtain ⟨⟨x, hlimit, hx⟩, ⟨y, hstep, hy⟩, ⟨z', hindex, -⟩⟩ := h
  refine ⟨⟨x, ?_, hx⟩, ⟨y, ?_, hy⟩, ⟨z, ?_, hz⟩⟩
  · rw [register_put_of_ne (by omega), hlimit]
  · rw [register_put_of_ne (by omega), hstep]
  · exact register_put_self (lt_size_of_ne_nil (by rw [hindex]; exact nofun))

theorem Counts.branch (h : f.Counts base limit step index) (jumps : Bool) (distance : Int) :
    (f.branch jumps distance).Counts base limit step index := by
  cases jumps <;> exact ⟨h.limit, h.step, h.index⟩

theorem home_branch (f : Frame) (jumps : Bool) (distance : Int) :
    (f.branch jumps distance).home = f.home := by
  cases jumps <;> rfl

theorem pc_branch (f : Frame) (jumps : Bool) (distance : Int) :
    (f.branch jumps distance).pc = if jumps then displace f.pc distance else f.pc := by
  cases jumps <;> rfl

end Frame

/-! ## Numeric loops in a run -/

/-- A numeric loop in the code of a prototype. -/
structure NumericLoop where
  /-- The slot of the instruction that prepares it. -/
  prep : Nat
  /-- How far it is from behind that instruction to where a run goes on that makes no rounds. -/
  skip : Int
  /-- The slot of the instruction that continues it. -/
  slot : Nat
  /-- How far it is from behind that instruction to the body. -/
  distance : Int
  /-- The first of its registers. -/
  base : Nat

namespace Machine

variable {m : Machine} {f : Frame} {i : Instruction} {s t : Running} {n : Module}

/-- A frame is about to run what is at a slot. -/
def StandsAt (m : Machine) (home : FrameId × VmId × Nat) (slot : Nat) : Prop :=
  ∃ f, m.control = .run f ∧ f.home = home ∧ f.pc = slot

/-- The frame that executes. -/
def running? (m : Machine) : Option Frame :=
  match m.control with
  | .run f => some f
  | _ => none

theorem running?_eq_some_iff : m.running? = some f ↔ m.control = .run f := by
  unfold running?
  split
  · rename_i g hg
    simp [hg]
  · rename_i hnot
    exact ⟨fun h => (by cases h), fun h => absurd h (hnot f)⟩

instance (m : Machine) (home : FrameId × VmId × Nat) (slot : Nat) :
    Decidable (m.StandsAt home slot) :=
  decidable_of_iff (∃ f ∈ m.running?, f.home = home ∧ f.pc = slot) (by
    simp only [StandsAt, Option.mem_def, running?_eq_some_iff])

/-- An operation comes to be executed, and the hook that may interrupt it lets it go on. -/
def Passes (m : Machine) (op : Opcode) : Prop :=
  ∃ i s, m.executing? = some (i, s) ∧ (Effect.interrupt op).failure? s = none

instance (m : Machine) (op : Opcode) : Decidable (m.Passes op) :=
  decidable_of_iff (∃ next ∈ m.executing?, (Effect.interrupt op).failure? next.2 = none)
    ⟨fun ⟨⟨i, s⟩, hnext, hpasses⟩ => ⟨i, s, hnext, hpasses⟩,
      fun ⟨i, s, hnext, hpasses⟩ => ⟨⟨i, s⟩, hnext, hpasses⟩⟩

/-- What executes is what stands there in the module, whether there is a breakpoint or not, and the
hooks have moved the frame on. -/
theorem executing_code (h : m.executing? = some (i, s)) (hf : m.control = .run f)
    (hruns : m.world.Runs f.vm n) {j : Instruction}
    (hj : (n.prototype f.prototype).code[f.pc]? = some (.instruction j)) :
    i.operation = j.underlying ∧ i.operands = j.operands ∧
      s.frame = { f with current := f.pc, pc := f.pc + 1 } := by
  obtain ⟨f', hdispatching, hprelude⟩ := executing_spec h
  obtain ⟨hf', hi⟩ := dispatching_spec hdispatching
  cases hf.symm.trans hf'
  obtain ⟨vm, slot, slot', -, -, hslot', hversion, rfl⟩ := versionOf_of_next hruns hi
  cases hj.symm.trans hslot'
  cases hversion with
  | instruction hij =>
    exact ⟨hij.operation.trans hij.underlying, hij.operands,
      (Effect.ends_prelude _ _ _ hprelude).frame⟩

theorem control_step_of_executing (h : m.executing? = some (i, s))
    (hexecute : Effect.execute i.operation i s = .ok .next t) : m.step.control = .run t.frame := by
  rw [step_of_acting ((acting_of_executing h).trans (congrArg some hexecute))]
  rfl

end Machine

namespace NumericLoop

open Machine

variable {l : NumericLoop} {m m' : Machine} {f g : Frame} {home : FrameId × VmId × Nat}

/-- The two instructions of the loop stand in the code. -/
structure In (l : NumericLoop) (p : Prototype) : Prop where
  /-- One prepares it. -/
  prepares : ∃ i, p.code[l.prep]? = some (.instruction i) ∧ i.underlying = .numericPrep ∧
    i.operands.a = l.base ∧ i.operands.d = l.skip
  /-- The other one continues it. -/
  continues : ∃ i, p.code[l.slot]? = some (.instruction i) ∧ i.underlying = .numericLoop ∧
    i.operands.a = l.base ∧ i.operands.d = l.distance

/-- A frame is about to prepare a loop, and hooks let it. -/
structure Starts (l : NumericLoop) (m : Machine) (f : Frame) : Prop where
  /-- The frame executes. -/
  control : m.control = .run f
  /-- It stands at the instruction that prepares the loop. -/
  pc : f.pc = l.prep
  /-- The operation is executed. -/
  executes : ∃ i s, m.executing? = some (i, s)
  /-- The frame runs a module that has the loop in its code. -/
  code : ∃ n, m.world.Runs f.vm n ∧ l.In (n.prototype f.prototype)

/-- After a number of steps a frame comes to the instruction that continues its loop, for the first
time. -/
structure Returns (l : NumericLoop) (home : FrameId × VmId × Nat) (m : Machine) (k : Nat) :
    Prop where
  /-- It comes there. -/
  stands : (step^[k] m).StandsAt home l.slot
  /-- It has not been there before. -/
  first : ∀ p < k, ¬ (step^[p] m).StandsAt home l.slot

/-- The body of a loop is run. -/
structure Body (l : NumericLoop) (home : FrameId × VmId × Nat) (m : Machine) (k : Nat) : Prop
    extends l.Returns home m k where
  /-- It leaves the registers of the loop alone. -/
  keeps : ∀ {f g}, m.control = .run f → (step^[k] m).control = .run g → f.SameLoop g l.base
  /-- The hooks let the instruction behind it work. -/
  passes : (step^[k] m).Passes .numericLoop

/-- The moment at which a loop has been prepared and then continued a number of times. -/
inductive Continued (l : NumericLoop) (home : FrameId × VmId × Nat) (m : Machine) :
    Nat → Machine → Prop
  /-- It has been prepared. -/
  | prepared : Continued l home m 0 m.step
  /-- It is continued once more. -/
  | again {j k : Nat} {m' : Machine} (before : Continued l home m j m')
    (returns : l.Returns home m' k) : Continued l home m (j + 1) (step^[k + 1] m')

/-- From a moment on a loop makes rounds in which its index takes some values one after the other,
and then goes on behind it.  The next round begins at `entry`, and what comes behind the loop at
`exit`. -/
inductive Rounds (l : NumericLoop) (home : FrameId × VmId × Nat) :
    (entry exit : Nat) → Machine → List Int → Prop
  /-- There are no more rounds. -/
  | ends {entry exit : Nat} {m : Machine} (behind : m.StandsAt home exit) :
    Rounds l home entry exit m []
  /-- There is a round, and the loop is continued. -/
  | round {entry exit k : Nat} {m : Machine} {f : Frame} {index : Int} {rest : List Int}
    (control : m.control = .run f) (same : f.home = home) (body : f.pc = entry)
    (value : f.Integer (l.base + 2) index) (returns : l.Returns home m k)
    (goes : Rounds l home (Frame.displace (l.slot + 1) l.distance) (l.slot + 1)
      (step^[k + 1] m) rest) : Rounds l home entry exit m (index :: rest)

/-! ### Steps -/

section Steps

variable {start limit step index : Int}

/-- What executes is the instruction that prepares the loop. -/
theorem Starts.executing (h : l.Starts m f) : ∃ i s, m.executing? = some (i, s) ∧
    i.operation = .numericPrep ∧ i.operands.a = l.base ∧ i.operands.d = l.skip ∧
      s.frame = { f with current := f.pc, pc := f.pc + 1 } := by
  obtain ⟨i, s, hexecutes⟩ := h.executes
  obtain ⟨n, hruns, hin⟩ := h.code
  obtain ⟨j, hj, hunderlying, hbase, hskip⟩ := hin.prepares
  obtain ⟨hoperation, hoperands, hframe⟩ :=
    executing_code hexecutes h.control hruns (h.pc.symm ▸ hj)
  rw [← hoperands] at hbase hskip
  exact ⟨i, s, hexecutes, hoperation.trans hunderlying, hbase, hskip, hframe⟩

/-- Preparing a loop puts its numbers into its registers, and leads into its body if it is to make a
round. -/
theorem Starts.prepared (h : l.Starts m f) (hlimit : (f.register l.base).StandsFor limit)
    (hstep : (f.register (l.base + 1)).StandsFor step)
    (hstart : (f.register (l.base + 2)).StandsFor start) :
    ∃ g, m.step.control = .run g ∧ g.home = f.home ∧ g.Counts l.base limit step start ∧
      g.pc = if goesOn start limit step then l.prep + 1
        else Frame.displace (l.prep + 1) l.skip := by
  obtain ⟨i, s, hexecutes, hoperation, hbase, hskip, hframe⟩ := h.executing
  have hregister : s.frame.register = f.register := by rw [hframe]
  rw [← hbase, ← hregister] at hlimit hstep hstart
  obtain ⟨x, hx, hx'⟩ := hlimit
  obtain ⟨y, hy, hy'⟩ := hstep
  obtain ⟨z, hz, hz'⟩ := hstart
  have hexecute := Effect.execute_numericPrep hx hy hz
  rw [← hoperation, hbase, hskip, loopContinues_eq hz' hx' hy'] at hexecute
  have hroom : l.base + 2 < s.frame.registers.size := hbase ▸ Frame.lt_size_of_toNumber? hz
  refine ⟨_, control_step_of_executing hexecutes hexecute, ?_,
    (Frame.counts_withLoop hroom hx' hy' hz').branch _ _, ?_⟩
  · rw [Frame.home_branch]
    show s.frame.home = f.home
    rw [hframe]
    rfl
  · have hpc : (s.frame.withLoop l.base x y z).pc = l.prep + 1 := by
      show s.frame.pc = _
      rw [hframe, h.pc]
    rw [Frame.pc_branch, hpc]
    cases goesOn start limit step <;> rfl

/-- Continuing a loop adds the increment to its index, and leads back to its body if it is to make
another round. -/
theorem continued (hf : m.control = .run f) (hpc : f.pc = l.slot) {n : Module}
    (hruns : m.world.Runs f.vm n) (hin : l.In (n.prototype f.prototype))
    (hpasses : m.Passes .numericLoop) (hcounts : f.Counts l.base limit step index)
    (hexact : |index + step| ≤ 2 ^ 53) :
    ∃ g, m.step.control = .run g ∧ g.home = f.home ∧ g.Counts l.base limit step (index + step) ∧
      g.pc = if goesOn (index + step) limit step then Frame.displace (l.slot + 1) l.distance
        else l.slot + 1 := by
  obtain ⟨i, s, hexecutes, hinterrupt⟩ := hpasses
  obtain ⟨_, u, hinterrupt⟩ := Effect.exists_ok hinterrupt
  obtain ⟨j, hj, hunderlying, hbase, hdistance⟩ := hin.continues
  obtain ⟨hoperation, hoperands, hframe⟩ :=
    executing_code hexecutes hf hruns (hpc.symm ▸ hj)
  rw [← hoperands] at hbase hdistance
  have hframe' : u.frame = { f with current := f.pc, pc := f.pc + 1 } :=
    ((Effect.aside_interrupt _).ends s _ _ hinterrupt).frame.trans hframe
  have hcounts' : u.frame.Counts l.base limit step index := by
    rw [hframe']
    exact hcounts.congr fun _ => rfl
  obtain ⟨x, hlimit, hx⟩ := hcounts'.limit
  obtain ⟨y, hstep, hy⟩ := hcounts'.step
  obtain ⟨z, hindex, hz⟩ := hcounts'.index
  rw [← hbase] at hlimit hstep hindex
  have hsum := Number.integer?_add hz hy hexact
  have hexecute := Effect.execute_numericLoop hinterrupt hlimit hstep hindex
  rw [← hunderlying, ← hoperation, hbase, hdistance, loopContinues_eq hsum hx hy] at hexecute
  refine ⟨_, control_step_of_executing hexecutes hexecute, ?_, (hcounts'.put hsum).branch _ _, ?_⟩
  · rw [Frame.home_branch]
    show u.frame.home = f.home
    rw [hframe']
    rfl
  · have hpc' : (u.frame.put (l.base + 2) (.number (z + y))).pc = l.slot + 1 := by
      show u.frame.pc = _
      rw [hframe', hpc]
    rw [Frame.pc_branch, hpc']

end Steps

/-! ### Runs -/

theorem Returns.unique {k k' : Nat} (h : l.Returns home m k) (h' : l.Returns home m k') :
    k = k' := by
  rcases lt_trichotomy k k' with hlt | heq | hgt
  · exact absurd h.stands (h'.first k hlt)
  · exact heq
  · exact absurd h'.stands (h.first k' hgt)

/-- A run comes to one moment only at which its loop has been continued a number of times. -/
theorem Continued.unique {j : Nat} {m₁ m₂ : Machine} (h₁ : l.Continued home m j m₁)
    (h₂ : l.Continued home m j m₂) : m₁ = m₂ := by
  induction h₁ generalizing m₂ with
  | prepared =>
    cases h₂
    rfl
  | again before returns ih =>
    cases h₂ with
    | again before' returns' =>
      obtain rfl := ih before'
      rw [returns.unique returns']

theorem Continued.evolves {j : Nat} (h : l.Continued home m j m') :
    m.world.Evolves m'.world := by
  induction h with
  | prepared => exact step_evolves m
  | again _ _ ih => exact ih.trans (iterate_evolves _ _)

/-- A loop that has been continued a number of times makes the rounds that are left. -/
theorem rounds_of_continued {n : Module} {start limit step : Int} (hstep : step ≠ 0)
    (hruns : m.world.Runs f.vm n) (hin : l.In (n.prototype f.prototype))
    (hexact : ∀ j ≤ count start limit step, |start + j * step| ≤ 2 ^ 53)
    (hbody : ∀ j < count start limit step, ∀ m', l.Continued f.home m j m' →
      ∃ k, l.Body f.home m' k) {left : Nat} :
    ∀ {j entry exit : Nat} {m' : Machine} {g : Frame}, j + left = count start limit step →
      l.Continued f.home m j m' → m'.control = .run g → g.home = f.home →
      g.Counts l.base limit step (start + j * step) →
      (g.pc = if goesOn (start + j * step) limit step then entry else exit) →
      l.Rounds f.home entry exit m' ((List.range' j left).map fun j : Nat => start + j * step) := by
  induction left with
  | zero =>
    intro j entry exit m' g hj _ hg hhome _ hpc
    rw [if_neg (by rw [goesOn_iff hstep]; omega)] at hpc
    exact .ends ⟨g, hg, hhome, hpc⟩
  | succ left ih =>
    intro j entry exit m' g hj hcontinued hg hhome hcounts hpc
    rw [if_pos (by rw [goesOn_iff hstep]; omega)] at hpc
    obtain ⟨k, hreturn⟩ := hbody j (by omega) m' hcontinued
    obtain ⟨g', hg', hhome', hslot⟩ := hreturn.stands
    obtain ⟨-, hvm, hprototype⟩ := Frame.home_eq_iff.1 hhome'
    have hruns' : (Machine.step^[k] m').world.Runs g'.vm n :=
      hvm ▸ (hcontinued.evolves.trans (iterate_evolves m' k)).runs hruns
    have hnext : start + j * step + step = start + (j + 1 : Nat) * step := by
      push_cast
      ring
    obtain ⟨g'', hg'', hhome'', hcounts'', hpc''⟩ := continued hg' hslot hruns' (hprototype ▸ hin)
      hreturn.passes (hcounts.congr (hreturn.keeps hg hg'))
      (hnext ▸ hexact (j + 1) (by omega))
    rw [← Function.iterate_succ_apply' Machine.step] at hg''
    rw [hnext] at hcounts'' hpc''
    exact .round hg hhome hpc hcounts.index hreturn.toReturns
      (ih (by omega) (hcontinued.again hreturn.toReturns) hg'' (hhome''.trans hhome') hcounts''
        hpc'')

/-- The rounds of a numeric loop over integers.  When a limit, an increment other than zero and a
start are integers that the registers of a loop hold as numbers or as strings, and no index up to
the first one past the limit is beyond 2^53, the loop makes as many rounds as `count` says, and in
the j-th one its index is the start and j times the increment; then the frame goes on behind the
loop.  When a register does not coerce, the instruction that prepares the loop fails, and stores
nothing. -/
theorem rounds_of_starts (h : l.Starts m f) :
    (∀ {start limit step : Int}, step ≠ 0 → (f.register l.base).StandsFor limit →
      (f.register (l.base + 1)).StandsFor step → (f.register (l.base + 2)).StandsFor start →
      (∀ j ≤ count start limit step, |start + j * step| ≤ 2 ^ 53) →
      (∀ j < count start limit step, ∀ m', l.Continued f.home m j m' → ∃ k, l.Body f.home m' k) →
      l.Rounds f.home (l.prep + 1) (Frame.displace (l.prep + 1) l.skip) m.step
        ((List.range (count start limit step)).map fun j : Nat => start + j * step)) ∧
    ∀ {j : Nat}, j < 3 → (f.register (l.base + j)).toNumber? = none →
      ∃ which kind s, m.acting? = some (.error (.fault (.loopNumber which kind)) s) ∧
        s.frame.registers = f.registers := by
  obtain ⟨n, hruns, hin⟩ := h.code
  refine ⟨fun {start limit step} hne hlimit hstep hstart hexact hbody => ?_, fun {j} hj hnone => ?_⟩
  · obtain ⟨g, hg, hhome, hcounts, hpc⟩ := h.prepared hlimit hstep hstart
    rw [List.range_eq_range']
    have hzero : start + (0 : Nat) * step = start := by simp
    exact rounds_of_continued hne hruns hin hexact hbody (Nat.zero_add _) .prepared hg hhome
      (hzero.symm ▸ hcounts) (hzero.symm ▸ hpc)
  · obtain ⟨i, s, hexecutes, hoperation, hbase, -, hframe⟩ := h.executing
    have hregister : s.frame.register = f.register := by rw [hframe]
    rw [← hbase, ← hregister] at hnone
    obtain ⟨which, kind, hexecute⟩ := Effect.execute_numericPrep_fails hj hnone
    rw [← hoperation] at hexecute
    refine ⟨which, kind, s, (acting_of_executing hexecutes).trans (congrArg some hexecute), ?_⟩
    rw [hframe]

/-! ### A loop that makes two rounds -/

instance (l : NumericLoop) (p : Prototype) : Decidable (l.In p) :=
  decidable_of_iff
    ((∃ i ∈ p.instruction? l.prep, i.underlying = .numericPrep ∧ i.operands.a = l.base ∧
      i.operands.d = l.skip) ∧
    ∃ i ∈ p.instruction? l.slot, i.underlying = .numericLoop ∧ i.operands.a = l.base ∧
      i.operands.d = l.distance) (by
    simp only [Option.mem_def, Prototype.instruction?_eq_some_iff]
    exact ⟨fun h => ⟨h.1, h.2⟩, fun h => ⟨h.prepares, h.continues⟩⟩)

instance (l : NumericLoop) (home : FrameId × VmId × Nat) (m : Machine) (k : Nat) :
    Decidable (l.Returns home m k) :=
  decidable_of_iff ((step^[k] m).StandsAt home l.slot ∧
      ∀ p < k, ¬ (step^[p] m).StandsAt home l.slot)
    ⟨fun h => ⟨h.1, h.2⟩, fun h => ⟨h.stands, h.first⟩⟩

instance (l : NumericLoop) (home : FrameId × VmId × Nat) (m : Machine) (k : Nat) :
    Decidable (l.Body home m k) :=
  decidable_of_iff (l.Returns home m k ∧
      (∀ f ∈ m.running?, ∀ g ∈ (step^[k] m).running?, f.SameLoop g l.base) ∧
        (step^[k] m).Passes .numericLoop) (by
    simp only [Option.mem_def, running?_eq_some_iff]
    exact ⟨fun ⟨hreturns, hkeeps, hpasses⟩ =>
        ⟨hreturns, fun hf hg => hkeeps _ hf _ hg, hpasses⟩,
      fun h => ⟨h.toReturns, fun _ hf _ hg => h.keeps hf hg, h.passes⟩⟩)

/-- A module whose main function is a loop over its parameters, with one instruction in its body. -/
def countingModule : Bytes :=
  [6, 1, 0, 1,
    4, 3, 0, 0, 0, 0, 4, 0x38, 0, 2, 0, 0x06, 3, 2, 0, 0x39, 0, 0xfe, 0xff, 0x16, 0, 1, 0,
    0, 0, 0, 0, 0, 0,
    0]

/-- The loop of that module. -/
def countingLoop : NumericLoop := { prep := 0, skip := 2, slot := 2, distance := -2, base := 0 }

/-- The moment at which a call of its main function is about to prepare the loop. -/
def countingRun (n : Module) (heap : Heap) (args : List Value) : Machine :=
  (start (World.createVm { heap } n none {}).2 (.function ⟨0⟩) args).step

theorem starts_countingRun {n : Module} {heap : Heap} {args : List Value}
    (hload : LoadOptions.load {} countingModule {} = .ok (n, heap))
    (hin : countingLoop.In (n.prototype 0)) (hf : (countingRun n heap args).control = .run f)
    (hplace : f.pc = 0 ∧ f.vm = ⟨0⟩ ∧ f.prototype = 0)
    (hexecutes : (countingRun n heap args).executing?.isSome = true) :
    countingLoop.Starts (countingRun n heap args) f := by
  obtain ⟨hpc, hvm, hprototype⟩ := hplace
  obtain ⟨⟨i, s⟩, hexecutes⟩ := Option.isSome_iff_exists.1 hexecutes
  have hruns := World.runs_createVm { heap } (LoadOptions.load_unpatched _ hload) none {}
  refine ⟨hf, hpc, ⟨i, s, hexecutes⟩, n, ?_, hprototype ▸ hin⟩
  rw [hvm]
  exact (step_evolves _).runs hruns

/-- With the numbers 2 and 1 and the string "1" the main function makes two rounds, and without a
limit it fails. -/
theorem rounds_of_countingModule : ∃ n heap f which kind s,
    LoadOptions.load {} countingModule {} = .ok (n, heap) ∧
      (countingRun n heap [.number 2, .number 1, .string [0x31]]).control = .run f ∧
      countingLoop.Rounds f.home 1 3
        (countingRun n heap [.number 2, .number 1, .string [0x31]]).step [1, 2] ∧
      (countingRun n heap []).acting? = some (.error (.fault (.loopNumber which kind)) s) := by
  have hcheck : (LoadOptions.load {} countingModule {}).toOption.any (fun loaded =>
      let m := countingRun loaded.1 loaded.2 [.number 2, .number 1, .string [0x31]]
      let m' := countingRun loaded.1 loaded.2 []
      decide (countingLoop.In (loaded.1.prototype 0)) &&
        (m.running?.any fun f => decide (f.pc = 0 ∧ f.vm = ⟨0⟩ ∧ f.prototype = 0) &&
          decide ((f.register 0).StandsFor 2 ∧ (f.register 1).StandsFor 1 ∧
            (f.register 2).StandsFor 1) &&
          decide (countingLoop.Body f.home m.step 1) &&
          decide (countingLoop.Body f.home (step^[2] m.step) 1)) && m.executing?.isSome &&
        (m'.running?.any fun f => decide (f.pc = 0 ∧ f.vm = ⟨0⟩ ∧ f.prototype = 0) &&
          decide ((f.register 0).toNumber? = none)) && m'.executing?.isSome) = true := by
    decide +kernel
  rcases hload : LoadOptions.load {} countingModule {} with reason | ⟨n, heap⟩
  · rw [hload] at hcheck
    cases hcheck
  rw [hload] at hcheck
  simp only [Except.toOption, Option.any_some, Bool.and_eq_true, decide_eq_true_eq] at hcheck
  obtain ⟨⟨⟨⟨hin, hrun⟩, hexecutes⟩, hrun'⟩, hexecutes'⟩ := hcheck
  obtain ⟨f, hf, hrun⟩ := (Option.any_eq_true _ _).1 hrun
  obtain ⟨f', hf', hrun'⟩ := (Option.any_eq_true _ _).1 hrun'
  rw [running?_eq_some_iff] at hf hf'
  simp only [Bool.and_eq_true, decide_eq_true_eq] at hrun hrun'
  obtain ⟨⟨⟨hplace, hlimit, hstep, hstart⟩, hfirst⟩, hsecond⟩ := hrun
  have hcount : count 1 2 1 = 2 := by
    norm_num [count]
    rfl
  have hrounds := (rounds_of_starts (starts_countingRun hload hin hf hplace hexecutes)).1
    one_ne_zero hlimit hstep hstart
  rw [hcount] at hrounds
  obtain ⟨which, kind, s, hfails, -⟩ :=
    (rounds_of_starts (starts_countingRun hload hin hf' hrun'.1 hexecutes')).2 three_pos
      hrun'.2
  refine ⟨n, heap, f, which, kind, s, rfl, hf, hrounds ?_ ?_, hfails⟩
  · intro j hj
    interval_cases j <;> norm_num
  · intro j hj m' hm'
    interval_cases j
    · exact ⟨1, Continued.prepared.unique hm' ▸ hfirst⟩
    · exact ⟨1, (Continued.prepared.again hfirst.toReturns).unique hm' ▸ hsecond⟩

end NumericLoop

end ScriptMachine
