import ScriptMachine.Proofs.Calls.Isolation
import ScriptMachine.Proofs.Flow.Failures
import ScriptMachine.Proofs.Loops.Laps

/-!
# How a loop over a function continues

A generic loop calls the function in its first register and then looks at the register of its first
variable: unless that holds nil, it goes back to its body.  A loop with variables has stored the
first result there.  A loop without variables stores nothing: it decides on whatever the register
holds, which need not even be one of the frame's.
-/

namespace ScriptMachine

/-! ## What stands behind the registers -/

/-- The frame with values behind its registers. -/
def Frame.extend (f : Frame) (beyond : Array Value) : Frame :=
  { f with registers := f.registers ++ beyond }

/-- The state with values behind the registers of its frame. -/
def Running.extend (s : Running) (beyond : Array Value) : Running :=
  { s with frame := s.frame.extend beyond }

/-- The result with values behind the registers of the frame. -/
def Effect.extendResult {α : Type} (beyond : Array Value) :
    EStateM.Result Failure Running α → EStateM.Result Failure Running α
  | .ok a t => .ok a (t.extend beyond)
  | .error failure t => .error failure (t.extend beyond)

/-- An effect reads and writes no register outside the register file: whatever values stand behind
it, the effect does the same and leaves them alone. -/
def Effect.Inside {α : Type} (x : Effect α) (s : Running) : Prop :=
  ∀ beyond, x (s.extend beyond) = extendResult beyond (x s)

namespace Frame

variable {f : Frame} {slot first : Nat} {value : Value} {values : List Value}

theorem register_extend (h : slot < f.registers.size) (beyond : Array Value) :
    (f.extend beyond).register slot = f.register slot := by
  simp only [Scope.register, extend, Array.getD_eq_getD_getElem?]
  rw [Array.getElem?_append_left h]

/-- The first register behind the file is the first of the values behind it. -/
theorem register_extend_size (f : Frame) (value : Value) :
    (f.extend #[value]).register f.registers.size = value := by
  simp [Scope.register, extend]

theorem put_extend (h : slot < f.registers.size) (value : Value) (beyond : Array Value) :
    (f.extend beyond).put slot value = (f.put slot value).extend beyond := by
  have hregisters : (f.registers ++ beyond).setIfInBounds slot value =
      f.registers.setIfInBounds slot value ++ beyond := by
    refine Array.ext_getElem? fun k => ?_
    simp only [Array.getElem?_setIfInBounds, Array.getElem?_append, Array.size_append,
      Array.size_setIfInBounds]
    by_cases hk : slot = k
    · subst hk
      simp [h, Nat.lt_add_right beyond.size h]
    · simp [hk]
  simp only [put, extend, hregisters]

theorem putAll_extend (h : first + values.length ≤ f.registers.size) (beyond : Array Value) :
    (f.extend beyond).putAll first values = (f.putAll first values).extend beyond := by
  induction values generalizing f first with
  | nil => rfl
  | cons value values ih =>
    rw [List.length_cons] at h
    rw [putAll, putAll, put_extend (by omega), ih (by rw [size_put]; omega)]

end Frame

/-! ## Results of the function -/

/-- The frame that has the results of a round in the variables of its loop. -/
def Frame.withRound (f : Frame) (base arity : Nat) (results : List Value) : Frame :=
  f.putAll (base + 3) (fitTo arity results)

/-- The frame that goes back to the body of its loop, with its first variable as control value,
unless that is nil. -/
def Frame.goOn (f : Frame) (base : Nat) (distance : Int) : Frame :=
  if (f.register (base + 3)).isNil then f.jump 1
  else (f.put (base + 2) (f.register (base + 3))).jump distance

theorem Frame.goOn_of_nil {f : Frame} {base : Nat} (h : f.register (base + 3) = .nil)
    (distance : Int) : f.goOn base distance = f.jump 1 := by
  rw [goOn, h]
  rfl

theorem Frame.goOn_of_ne {f : Frame} {base : Nat} (h : f.register (base + 3) ≠ .nil)
    (distance : Int) :
    f.goOn base distance = (f.put (base + 2) (f.register (base + 3))).jump distance := by
  rw [goOn, if_neg (by rwa [Table.isNil_iff])]

section Accept

variable {w : World} {f : Frame} {stack : Stack} {base arity : Nat} {distance : Int}

theorem accept_iteration (results : List Value) :
    Machine.accept (.iteration base arity distance) results ⟨w, f, stack⟩ =
      .ok .next ⟨w, (f.withRound base arity results).goOn base distance, stack⟩ := by
  unfold Machine.accept Effect.storeRound Frame.goOn Frame.withRound
  simp only [bind_assoc, Effect.modifyFrame_bind, Effect.register_bind]
  split
  · rfl
  · rfl

theorem Frame.goOn_extend (h : base + 3 < f.registers.size) (beyond : Array Value) :
    (f.extend beyond).goOn base distance = (f.goOn base distance).extend beyond := by
  unfold goOn
  rw [register_extend h]
  split
  · rfl
  · rw [put_extend (by omega)]
    rfl

theorem Frame.withRound_extend (h : base + 3 + arity ≤ f.registers.size) (results : List Value)
    (beyond : Array Value) :
    (f.extend beyond).withRound base arity results =
      (f.withRound base arity results).extend beyond :=
  putAll_extend (by rwa [length_fitTo]) beyond

theorem Frame.size_withRound (results : List Value) :
    (f.withRound base arity results).registers.size = f.registers.size := size_putAll

/-- Without variables no result is stored. -/
theorem Frame.withRound_zero (results : List Value) : f.withRound base 0 results = f := by
  rw [withRound, List.length_eq_zero_iff.1 (length_fitTo 0 results)]
  rfl

/-- There is another value than nil and a given one. -/
theorem Value.exists_ne (value : Value) : ∃ other : Value, other ≠ .nil ∧ other ≠ value := by
  by_cases h : value = .boolean true
  · exact ⟨.boolean false, nofun, by simp [h]⟩
  · exact ⟨.boolean true, nofun, Ne.symm h⟩

/-- When there is just room for the variables, the registers that a round reads and writes are
registers of the frame if and only if the loop has variables, or the frame has one register more. -/
theorem inside_accept_iff (hroom : base + 3 + arity ≤ f.registers.size) :
    (∀ results, (Machine.accept (.iteration base arity distance) results).Inside ⟨w, f, stack⟩) ↔
      0 < arity ∨ base + 3 < f.registers.size := by
  constructor
  · intro h
    by_contra hout
    obtain ⟨rfl, hsize⟩ : arity = 0 ∧ f.registers.size = base + 3 := by omega
    -- behind the file may be a value that is not nil: then the loop would go on with it
    obtain ⟨value, hvalue, hne⟩ := (f.register (base + 2)).exists_ne
    have hsame := h [] #[value]
    change Machine.accept _ _ ⟨w, f.extend #[value], stack⟩ = _ at hsame
    rw [accept_iteration, accept_iteration, Frame.withRound_zero, Frame.withRound_zero] at hsame
    have hframe : (f.extend #[value]).goOn base distance =
        (f.goOn base distance).extend #[value] := by
      injection hsame with _ hstate
      exact congrArg Running.frame hstate
    have hlong : (f.extend #[value]).register (base + 3) = value :=
      hsize ▸ f.register_extend_size value
    have hshort : f.register (base + 3) = .nil := Frame.register_of_size_le hsize.le
    rw [Frame.goOn_of_ne (by rwa [hlong]), Frame.goOn_of_nil hshort, hlong] at hframe
    refine hne ?_
    calc value = ((f.extend #[value]).put (base + 2) value).register (base + 2) := by
          rw [Frame.register_put, if_pos ⟨rfl, by simp [Frame.extend, hsize]⟩]
      _ = (f.extend #[value]).register (base + 2) :=
          congrArg (fun g => g.register (base + 2)) hframe
      _ = f.register (base + 2) := Frame.register_extend (by omega) _
  · intro hin results beyond
    change Machine.accept _ _ ⟨w, f.extend beyond, stack⟩ = _
    have hfirst : base + 3 < (f.withRound base arity results).registers.size := by
      rw [Frame.size_withRound]
      omega
    rw [accept_iteration, accept_iteration, Frame.withRound_extend hroom, Frame.goOn_extend hfirst]
    rfl

end Accept

/-! ## Loaded loops -/

theorem truncate_ofNat_small : ∀ k : Fin 16, (Number.truncate (Number.ofNat k)).toNat = k := by
  decide +kernel

/-- The count of variables of a loaded loop is the one that its auxiliary word says. -/
theorem World.AllLoaded.loopArity {w : World} (hw : w.AllLoaded) {f : Frame} {i : Instruction}
    (hi : Machine.nextInstruction? w f = some i) (hloop : i.operation = .genericLoop) :
    Effect.loopArity i = pure (AuxWord.count i.aux) := by
  have hcode := (Machine.code_of_next (s := ⟨w, f, []⟩) hi).2
  obtain ⟨s, t, constants, rfl, hst, hwell⟩ := hw.source hcode
  cases hst with
  | aux word => cases hloop
  | @instruction i j hij =>
    have hnamed := (hwell j rfl).constant
    have hopcode : j.opcode = .genericLoop := by
      rw [(hwell j rfl).underlying, ← hij.underlying, ← hij.operation]
      exact hloop
    have haux : j.aux = i.aux := by rw [hij.same]
    have hconstant : i.constant = j.constant := by rw [hij.same]
    rw [Instruction.namedConstant?, hopcode, haux] at hnamed
    have hnumber : j.constant = .number (Number.ofNat (AuxWord.count i.aux)) := by
      rw [AuxWord.count_eq_cut]
      exact (Option.some.inj hnamed).symm
    have htruncate := truncate_ofNat_small ⟨AuxWord.count i.aux, Nat.mod_lt _ (by decide)⟩
    show Effect.loopArity i = _
    rw [Effect.loopArity, hconstant, hnumber]
    exact congrArg pure htruncate

/-! ## Runs -/

/-- What a round of a loop over a function has made of a frame, as it was before the round.  The
function has given some results, and `first` is what the register of the first variable holds when
they have been stored. -/
structure Frame.WentRound (f : Frame) (i : Instruction) (results : List Value) (first : Value)
    (g : Frame) : Prop where
  /-- A loop with variables has stored the first result there. -/
  stored : 0 < AuxWord.count i.aux → first = results.headD .nil
  /-- A loop without variables has stored nothing, and only an open cell can have changed what the
  register holds. -/
  stale : AuxWord.count i.aux = 0 → (∀ id, (i.operands.a + 3, id) ∉ f.captured) →
    first = f.register (i.operands.a + 3)
  /-- If it is not nil, then it is the control value, and the body comes next. -/
  again : first ≠ .nil → g.pc = displace (f.pc + 1) i.operands.d ∧
    g.register (i.operands.a + 2) = first
  /-- If it is nil, then what is behind the auxiliary word comes next. -/
  ends : first = .nil → g.pc = displace (f.pc + 1) 1
  /-- There are registers for the variables. -/
  room : i.operands.a + 3 + AuxWord.count i.aux ≤ g.registers.size

theorem fitTo_succ (count : Nat) (values : List Value) :
    fitTo (count + 1) values = values.headD .nil :: fitTo count values.tail := by
  cases values with
  | nil => simp [fitTo, List.replicate_succ]
  | cons value values => exact fitTo_cons count value values

/-- A frame calls the function of its loop, waits, and takes the results. -/
theorem Frame.wentRound {f before waited : Frame} {i : Instruction} {current : Nat} {top : Int}
    (hbefore : Grown { f with current, pc := f.pc + 1, top } before) (hwaited : before.Kept waited)
    (hroom : i.operands.a + 3 + AuxWord.count i.aux ≤ before.registers.size)
    (results : List Value) :
    let round := waited.withRound i.operands.a (AuxWord.count i.aux) results
    f.WentRound i results (round.register (i.operands.a + 3))
      (round.goOn i.operands.a i.operands.d) := by
  intro round
  rw [← hwaited.size] at hroom
  have hsize : round.registers.size = waited.registers.size := size_withRound results
  have hpc : round.pc = f.pc + 1 := by
    rw [show round.pc = waited.pc from pc_putAll _, hwaited.frame, hbefore.frame]
  refine ⟨fun hcount => ?_, fun hcount hclosed => ?_, fun hfirst => ?_, fun hfirst => ?_, ?_⟩
  · obtain ⟨count, hcount⟩ := Nat.exists_eq_add_of_lt hcount
    show (waited.putAll _ (fitTo _ _)).register _ = _
    rw [hcount, Nat.zero_add, fitTo_succ]
    exact register_putAll_first (by omega)
  · have hround : round = waited := by
      show waited.withRound _ _ _ = _
      rw [hcount, withRound_zero]
    have hcaptured : before.captured = f.captured := by rw [hbefore.frame]
    rw [hround, hwaited.register _ (hcaptured ▸ hclosed), hbefore.register]
  · rw [goOn_of_ne hfirst]
    refine ⟨congrArg (displace · i.operands.d) hpc, ?_⟩
    exact (register_put _ _ _ _).trans (if_pos ⟨rfl, by omega⟩)
  · rw [goOn_of_nil hfirst]
    exact congrArg (displace · 1) hpc
  · unfold goOn
    split
    · exact hroom.trans_eq hsize.symm
    · exact hroom.trans_eq (hsize.symm.trans size_put.symm)

namespace Machine

variable {m : Machine} {f g : Frame} {i : Instruction} {k : Nat}

theorem loop_calls (hm : m.Reached) (hloaded : m.world.AllLoaded)
    (hi : m.dispatching? = some (f, i)) (hloop : i.operation = .genericLoop)
    (hfunction : (f.register i.operands.a).isFunction = true)
    (hstays : f.id ∈ m.step.frameIds) :
    ∃ before stack, m.step.control = .call (f.register i.operands.a)
        [f.register (i.operands.a + 1), f.register (i.operands.a + 2)] ∧
      m.step.stack = .frame before
        (.iteration i.operands.a (AuxWord.count i.aux) i.operands.d) :: stack ∧
      Frame.Grown { f with current := f.pc, pc := f.pc + 1, top := i.operands.a + 6 } before ∧
      i.operands.a + 3 + AuxWord.count i.aux ≤ before.registers.size := by
  obtain ⟨hcontrol, hnext⟩ := dispatching_spec hi
  let l : GenericLoop :=
    { slot := f.pc, base := i.operands.a, arity := AuxWord.count i.aux, distance := i.operands.d }
  have hat : l.At ⟨m.world, f, m.stack⟩ i :=
    ⟨hnext, rfl, hloop, rfl, rfl, hloaded.loopArity hnext hloop⟩
  obtain ⟨u, roomy, hready⟩ := hat.ready hcontrol hm.anchored hstays
  obtain ⟨fid, hfid⟩ : ∃ fid, f.register i.operands.a = .function fid := by
    cases hvalue : f.register i.operands.a with
    | function fid => exact ⟨fid, rfl⟩
    | _ =>
      rw [hvalue] at hfunction
      cases hfunction
  have hwork := GenericLoop.loopWork_of_function hready ((hready.register _).trans hfid)
  have hacting := hready.acting
  rw [GenericLoop.machine_of_run hcontrol, hwork] at hacting
  rw [step_of_acting hacting, hready.register, hready.register]
  have hgrown := Frame.grown_ensure? hready.room
  rw [hready.aside.frame] at hgrown
  refine ⟨l.roomy roomy, u.stack, ?_, rfl, ⟨?_, hgrown.size_le, hgrown.register⟩, hready.size_le⟩
  · rw [hfid]
    rfl
  · rw [GenericLoop.roomy, hgrown.frame]
    rfl

/-- How a loop over a function goes on.  A frame that is about to continue such a loop calls the
function with its state and its control value.  When the frame runs again, for the first time, the
function has given its results.  If the loop has variables, the first result decides: unless it is
nil, it is the new control value and the body comes next.  If the loop has none, nobody looks at the
results, and what the register behind the control value holds decides.  All registers that are read
and written are registers of the frame if and only if the loop has variables, or the frame happens
to have one register more than the loop has asked for. -/
theorem loop_goes_on (hm : m.Reached) (hloaded : m.world.AllLoaded)
    (hi : m.dispatching? = some (f, i)) (hloop : i.operation = .genericLoop)
    (hfunction : (f.register i.operands.a).isFunction = true)
    (hk : 0 < k) (hg : (step^[k] m).control = .run g) (hid : g.id = f.id)
    (hfirst : ∀ j, 0 < j → j < k → ∀ h, (step^[j] m).control = .run h → h.id ≠ f.id) :
    m.step.control = .call (f.register i.operands.a)
      [f.register (i.operands.a + 1), f.register (i.operands.a + 2)] ∧
    ∃ results waited rest first, (step^[k - 1] m).control = .give results ∧
      (step^[k - 1] m).stack = .frame waited
        (.iteration i.operands.a (AuxWord.count i.aux) i.operands.d) :: rest ∧
      f.WentRound i results first g ∧
      ((∀ results', (accept (.iteration i.operands.a (AuxWord.count i.aux) i.operands.d)
          results').Inside ⟨(step^[k - 1] m).world, waited, rest⟩) ↔
        0 < AuxWord.count i.aux ∨ i.operands.a + 3 < waited.registers.size) ∧
      (AuxWord.count i.aux = 0 → ∀ results',
        accept (.iteration i.operands.a (AuxWord.count i.aux) i.operands.d) results'
          ⟨(step^[k - 1] m).world, waited, rest⟩ =
        .ok .next ⟨(step^[k - 1] m).world, g, rest⟩) := by
  obtain ⟨k, rfl⟩ := Nat.exists_eq_succ_of_ne_zero hk.ne'
  have hlast : f.id ∈ (step^[k + 1] m).frameIds := hid ▸ mem_frameIds_of_run hg
  have hstays : f.id ∈ (step^[1] m).frameIds := hm.anchored.mem_between
    (mem_frameIds_of_run (dispatching_spec hi).1) (Nat.le_add_left 1 k) hlast
  obtain ⟨before, stack, hcontrol, hstack, hbefore, hroom⟩ :=
    loop_calls hm hloaded hi hloop hfunction hstays
  have hsame : before.id = f.id := by rw [hbefore.frame]
  rw [Function.iterate_succ_apply] at hg
  obtain ⟨j, d, rfl, hover, hlater⟩ :=
    over_of_runs (hm.iterate 1) hcontrol hstack hg (hid.trans hsame.symm)
  obtain ⟨results, waited, rest, t, hgive, hwaiting, hwaited, haccept, hrun, ht⟩ :=
    call_returns ((hm.iterate 1).iterate j).anchored hover (Nat.succ_pos d) hlater
  have hmoment : step^[j] (step^[1] m) = step^[j + 1] m :=
    (Function.iterate_add_apply step j 1 m).symm
  rw [hmoment] at hgive hwaiting haccept hrun
  rw [← Function.iterate_succ_apply' step] at hrun
  -- the frame goes on in the next step, and not before the moment in question
  have hd : d = 0 := by
    by_contra hd
    exact hfirst (j + 2) (by omega) (by omega) t.frame hrun (ht.trans hsame)
  subst hd
  rw [← Function.iterate_succ_apply step] at hg
  cases hrun.symm.trans hg
  rw [accept_iteration] at haccept
  cases haccept
  refine ⟨hcontrol, results, waited, rest, _, hgive, hwaiting,
    Frame.wentRound hbefore hwaited hroom results,
    inside_accept_iff (hroom.trans_eq hwaited.size.symm), fun hcount results' => ?_⟩
  rw [accept_iteration, hcount, Frame.withRound_zero, Frame.withRound_zero]

/-- A module whose main function loops, without variables, over a function that always returns 1.
Its body returns the control value, and what is behind the loop returns nothing. -/
def barrenModule : Bytes :=
  [6, 1, 0, 2,
    4, 0, 0, 0, 0, 0,
    6, 0x13, 0, 0, 0, 0x17, 0, 1, 0, 0x16, 2, 2, 0, 0x3a, 0, 0xfe, 0xff, 0, 0, 0, 0, 0x16, 0, 1, 0,
    0, 1, 1, 0, 0, 0, 0,
    1, 0, 0, 0, 0, 0,
    2, 4, 0, 1, 0, 0x16, 0, 2, 0,
    0, 0, 0, 0, 0, 0,
    0]

/-- Whether some values are handed to the call that waits. -/
def gives (m : Machine) (values : List Value) : Bool :=
  match m.control with
  | .give given => given = values
  | _ => false

theorem gives_iff {m : Machine} {values : List Value} :
    m.gives values = true ↔ m.control = .give values := by
  unfold gives
  split
  · rename_i given hgiven
    simp [hgiven]
  · rename_i hnot
    exact ⟨fun h => (by cases h), fun h => absurd h (hnot values)⟩

/-- A frame of it is about to continue the loop, and does not come to the body after the call. -/
theorem run_of_barrenModule :
    ∃ m f i g, m.Reached ∧ m.world.AllLoaded ∧ m.dispatching? = some (f, i) ∧
      i.operation = .genericLoop ∧ (f.register i.operands.a).isFunction = true ∧
      (step^[5] m).control = .run g ∧ g.id = f.id ∧
      (∀ j, 0 < j → j < 5 → ∀ h, (step^[j] m).control = .run h → h.id ≠ f.id) ∧
      (step^[4] m).control = .give [.number (Number.ofNat 1)] ∧
      g.pc ≠ Frame.displace (f.pc + 1) i.operands.d := by
  have hcheck : (World.loadBytes {} barrenModule none {}).toOption.any (fun loaded =>
      let m := step^[3] (start loaded.2 (.function loaded.1.main) [])
      m.dispatching?.any fun next => decide (next.2.operation = .genericLoop) &&
        (next.1.register next.2.operands.a).isFunction &&
        (List.range 5).all (fun j => decide (j = 0) || !(step^[j] m).runs next.1.id) &&
        (step^[4] m).gives [.number (Number.ofNat 1)] &&
        (step^[5] m).dispatching?.any fun after => decide (after.1.id = next.1.id) &&
          decide (after.1.pc ≠ Frame.displace (next.1.pc + 1) next.2.operands.d)) = true := by
    decide +kernel
  obtain ⟨entry, w, hload, hcheck⟩ := World.exists_of_loadBytes hcheck
  have hreached : (step^[3] (start w (.function entry.main) [])).Reached :=
    (reached_start hload _ _).iterate 3
  have hloaded : (step^[3] (start w (.function entry.main) [])).world.AllLoaded :=
    allLoaded_iterate (.loadBytes (World.allLoaded_of_empty rfl) hload) 3
  dsimp only at hcheck
  generalize step^[3] (start w (.function entry.main) []) = m at hcheck hreached hloaded ⊢
  obtain ⟨⟨f, i⟩, hi, hcheck⟩ := (Option.any_eq_true _ _).1 hcheck
  simp only [Bool.and_eq_true, decide_eq_true_eq] at hcheck
  obtain ⟨⟨⟨⟨hloop, hfunction⟩, hnot⟩, hgives⟩, hlast⟩ := hcheck
  obtain ⟨⟨g, i'⟩, hi', hlast⟩ := (Option.any_eq_true _ _).1 hlast
  simp only [Bool.and_eq_true, decide_eq_true_eq] at hlast
  refine ⟨m, f, i, g, hreached, hloaded, hi, hloop, hfunction, (dispatching_spec hi').1, hlast.1,
    ?_, gives_iff.1 hgives, hlast.2⟩
  intro j hpos hj h hh hsame
  have hj := List.all_eq_true.1 hnot j (List.mem_range.2 hj)
  simp [hpos.ne', runs_iff.2 ⟨h, hh, hsame⟩] at hj

/-- So the first result does not decide whether the loop goes on. -/
theorem loop_ends_on_first_result :
    ∃ m f i g results, m.Reached ∧ m.world.AllLoaded ∧ m.dispatching? = some (f, i) ∧
      i.operation = .genericLoop ∧ (f.register i.operands.a).isFunction = true ∧
      (step^[5] m).control = .run g ∧ g.id = f.id ∧
      (∀ j, 0 < j → j < 5 → ∀ h, (step^[j] m).control = .run h → h.id ≠ f.id) ∧
      (step^[4] m).control = .give results ∧ results.headD .nil ≠ .nil ∧
      g.pc ≠ Frame.displace (f.pc + 1) i.operands.d := by
  obtain ⟨m, f, i, g, hm, hloaded, hi, hloop, hfunction, hg, hid, hfirst, hgive, hpc⟩ :=
    run_of_barrenModule
  exact ⟨m, f, i, g, _, hm, hloaded, hi, hloop, hfunction, hg, hid, hfirst, hgive, nofun, hpc⟩

/-- The register of the first variable, which the loop does not have, holds nil. -/
theorem loop_goes_on_in_barrenModule :
    ∃ (m : Machine) (f : Frame) (i : Instruction) (g : Frame), (step^[5] m).control = .run g ∧
      f.WentRound i [.number (Number.ofNat 1)] .nil g := by
  obtain ⟨m, f, i, g, hm, hloaded, hi, hloop, hfunction, hg, hid, hfirst, hgive, hpc⟩ :=
    run_of_barrenModule
  obtain ⟨-, results, waited, rest, first, hresults, -, hround, -, -⟩ :=
    loop_goes_on hm hloaded hi hloop hfunction (by decide) hg hid hfirst
  cases hresults.symm.trans hgive
  have hnil : first = .nil := by
    by_contra hne
    exact hpc (hround.again hne).1
  exact ⟨m, f, i, g, hg, hnil ▸ hround⟩

end Machine

end ScriptMachine
