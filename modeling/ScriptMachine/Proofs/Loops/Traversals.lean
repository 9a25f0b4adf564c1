import ScriptMachine.Proofs.Loops.Laps

/-!
# Traversals in runs

The traversals that drive generic loops are used once and in the right place: each belongs to one
loop of one frame, starts afresh whenever the loop is prepared, and is gone when the loop has ended.
-/

namespace ScriptMachine

namespace Machine

variable {m : Machine}

/-- In all runs the traversals of the frames are used once and in the right place.  A frame has at
most one for each loop; a step changes those of the frame that acts alone, where this prepares or
continues a loop, and a frame that is new has none.  Preparing a loop over a table gives the loop a
fresh traversal, whatever traversal it has had, unless a breakpoint hides the instruction of the
loop: then the frame fails.  A traversal that reports the end is removed, and what is behind the
loop comes next; it would report the end for ever, without being resumed.  So a loop over a table
that does not change makes one round for each entry, and its traversal is resumed once more. -/
theorem traversals_of_run (hm : m.Reached) :
    (∀ f ∈ m.frames, f.OneEach) ∧
    (∀ g ∈ m.step.frames,
      (∃ f ∈ m.frames, f.home = g.home ∧ (g.iterators = f.iterators ∨ m.Tends f g)) ∨
        g.id ∉ m.frameIds ∧ g.iterators = []) ∧
    (∀ (l : GenericLoop) f i t u, l.Starts m f i t →
      Effect.prelude i ⟨m.world, f, m.stack⟩ = .ok none u →
      (¬ l.Hidden u → ∃ g, m.step.control = .run g ∧ g.home = f.home ∧ g.pc = l.slot ∧
        g.iterator? l.slot = some { table := t, arity := l.arity }) ∧
      (l.Hidden u → m.acting? = some (.error (.fault (.loopTarget l.slot)) u))) ∧
    (∀ (l : GenericLoop) g i u roomy b, l.Turn m g i →
      l.Ready ⟨m.world, g, m.stack⟩ i u roomy → g.iterator? l.slot = some b →
      (∃ g', m.step.control = .run g' ∧ g'.home = g.home ∧ l.Turned b m.step.world.heap g') ∨
        ∃ fault v, (b.step u.world.heap).2 = .error fault ∧ v.frame.id = g.id ∧
          m.acting? = some (.error (.fault fault) v)) ∧
    (∀ (b : Bridge) heap, (b.step heap).2 = .ok none → ∀ heaps heap',
      ((b.step heap).1.after heaps).step heap' = ((b.step heap).1, .ok none)) ∧
    (∀ (l : GenericLoop) f t history n turn,
      (∀ op ∈ history, ∀ key value, op.stored? = some (key, value) →
        key.hasNaNComponent = false) →
      l.Laps m f t (Table.empty.run history) n turn →
      n ≤ (Table.empty.run history).pairs.length ∧
        ∀ j ≤ n, l.Lap (Table.empty.run history) j (step^[turn j] m)) := by
  refine ⟨Reached.oneEach hm, fun g hg => tends_step hm.anchored hg,
    fun l f i t u hstarts hpasses => hstarts.begins hpasses,
    fun l g i u roomy b hturn hready hb => hturn.turned_of_ready hready hb,
    fun b heap hend heaps heap' => Bridge.ended_for_good hend heaps heap',
    fun l f t history n turn hkeys hlaps => ?_⟩
  have hwell := Table.wellFormed_empty.run history
  have hkeyed := Table.keyed_empty.run hkeys
  exact ⟨(hlaps.stands hm.anchored hwell hkeyed le_rfl).1,
    fun j hj => hlaps.lap hm.anchored hwell hkeyed hj⟩

end Machine

namespace GenericLoop
open Machine

/-- A table with one field. -/
def oneField : Table := Table.empty.run [.setField (.ofString "k") (.boolean true)]

theorem next_oneField :
    oneField.next .nil = .ok (some (.string (.ofString "k"), .boolean true)) ∧
      oneField.next (.string (.ofString "k")) = .ok none := by
  have htable : oneField = Table.empty.append (.string (.ofString "k")) (.boolean true) := by
    simp [oneField, Table.run, Table.after, Table.Operation.apply, Table.setField, Table.store,
      Table.storeEntry, Table.entryPosition?, Value.position?, Value.isNil, Table.isSparse,
      Table.empty, Key.ofValue?]
  rw [htable]
  constructor <;>
    simp [Table.next, Table.firstFrom?, Table.firstEntry?, Table.findFrom?, Table.append,
      Table.entryPosition?, Value.position?, Key.ofValue?, Table.empty, Value.isNil]

/-- A module whose code is a loop over its parameter. -/
def fieldModule : Module :=
  { version := 6, typesVersion := 1, strings := [], main := 0
    prototypes := #[{ Prototype.empty with
      maxStackSize := 5, numParams := 1
      code := #[.instruction pairPrep, .instruction pairNext, .aux 2] }] }

/-- A call of it with that table. -/
def fieldRun : Machine :=
  let (entry, w) := World.createVm { heap := { tables := #[oneField] } } fieldModule none {}
  start w (.function entry.main) [.table ⟨0⟩]

theorem unpatched_fieldModule : fieldModule.Unpatched := by
  intro index slot p i hp hi
  rcases index with _ | index <;> cases hp
  rcases slot with _ | _ | _ | slot <;> cases hi <;> rfl

/-- The world of that call. -/
def fieldWorld : World :=
  (World.createVm { heap := { tables := #[oneField] } } fieldModule none {}).2

theorem later_fieldWorld : idle.Later ⟨fieldWorld, [], .give []⟩ := by
  have hstored : idle.Next ⟨{ heap := { tables := #[oneField] } }, [], .give []⟩ :=
    .acts (m := idle) rfl (.stores _)
  have hcreated : Next ⟨{ heap := { tables := #[oneField] } }, [], .give []⟩
      ⟨fieldWorld, [], .give []⟩ :=
    .acts (m := ⟨{ heap := { tables := #[oneField] } }, [], .give []⟩) rfl (.creates _ _ _)
  exact (Relation.ReflTransGen.single hstored).tail hcreated

theorem reached_fieldRun : fieldRun.Reached := later_fieldWorld.tail (.calls rfl _ _)

/-- The frame of that call before its loop is continued. -/
def fieldFrame (key value : Value) (current : Nat) (top : Int) (b : Bridge) : Running :=
  { world := fieldRun.step.world, stack := []
    frame := { id := ⟨0⟩, captured := [], registers := #[.table ⟨0⟩, .nil, key, key, value]
               vm := ⟨0⟩, prototype := 0, upvalues := #[], varargs := [], pc := 1, current, top
               iterators := [(1, b)] } }

/-- What its traversal gives becomes a round, or the end. -/
theorem step_fieldFrame {key value : Value} {current : Nat} {top : Int} {b b' : Bridge}
    {round : Option (List Value)} (h : b.step fieldRun.step.world.heap = (b', .ok round)) :
    (fieldFrame key value current top b).machine.step =
      let u := (fieldFrame key value current top b).advanced
      ofOutcome (pairLoop.takeRound round
        { u with frame := (pairLoop.roomy u.frame).setIterator 1 b' }) := by
  have hready : pairLoop.Ready (fieldFrame key value current top b) pairNext
      (fieldFrame key value current top b).advanced
      (fieldFrame key value current top b).advanced.frame :=
    ⟨⟨rfl, rfl, rfl, rfl, rfl, rfl⟩, Effect.beforeLoop_of_quiet ⟨rfl, rfl, rfl, rfl⟩ _, rfl⟩
  refine (step_of_acting (acting_of_bridge hready rfl rfl rfl)).trans ?_
  dsimp only
  rw [show b.step (fieldFrame key value current top b).advanced.world.heap = _ from h]
  rfl

/-- The traversal of the loop when it starts. -/
def fieldStart : Bridge := { table := ⟨0⟩, arity := 2 }

/-- The traversal of the loop behind the field. -/
def fieldPast : Bridge :=
  { fieldStart with traversal := .behind (.string (.ofString "k")), resumes := 1 }

/-- The frame makes a round with the field. -/
theorem step_fieldStart : (fieldFrame .nil .nil 0 (-1) fieldStart).machine.step =
    (fieldFrame (.string (.ofString "k")) (.boolean true) 1 6 fieldPast).machine := by
  have hgives : fieldStart.step fieldRun.step.world.heap =
      (fieldPast, .ok (some [.string (.ofString "k"), .boolean true])) := by
    rw [Bridge.step_behind rfl rfl,
      show fieldRun.step.world.heap.next fieldStart.table .nil = _ from next_oneField.1]
    rfl
  exact (step_fieldFrame hgives).trans rfl

/-- Then it ends the loop. -/
theorem step_fieldPast : ∃ g, (fieldFrame (.string (.ofString "k")) (.boolean true) 1 6
    fieldPast).machine.step = ⟨fieldRun.step.world, [], .run g⟩ ∧ g.id = ⟨0⟩ := by
  have hgives : fieldPast.step fieldRun.step.world.heap =
      ({ fieldPast with traversal := .ended, finished := true, resumes := 2 }, .ok none) := by
    rw [Bridge.step_behind rfl rfl,
      show fieldRun.step.world.heap.next fieldPast.table _ = _ from next_oneField.2]
    rfl
  exact ⟨_, step_fieldFrame hgives, rfl⟩

theorem laps_fieldRun : ∃ f, pairLoop.Laps fieldRun.step f ⟨0⟩ oneField 1 (· + 1) := by
  have hstart : step^[1] fieldRun.step = (fieldFrame .nil .nil 0 (-1) fieldStart).machine := rfl
  have hround : step^[2] fieldRun.step = (fieldFrame (.string (.ofString "k")) (.boolean true) 1 6
      fieldPast).machine := by
    rw [Function.iterate_succ_apply', hstart, step_fieldStart]
  obtain ⟨g, hend, hid⟩ := step_fieldPast
  rw [← hround, ← Function.iterate_succ_apply' step] at hend
  refine ⟨_, ⟨pairPrep, rfl, rfl, rfl, rfl, ⟨_, rfl, rfl⟩, fieldModule,
    ⟨_, rfl, .refl unpatched_fieldModule⟩, pairNext, rfl, rfl, rfl, rfl, rfl⟩, Nat.one_pos, ?order, ?turns,
    ?only, ?unchanged, ?stays⟩
  case order => exact fun j _ => by omega
  case turns =>
    intro j hj
    rcases Nat.le_one_iff_eq_zero_or_eq_one.1 hj with rfl | rfl
    · exact ⟨_, congrArg Machine.control hstart, rfl, rfl, rfl⟩
    · exact ⟨_, congrArg Machine.control hround, rfl, rfl, rfl⟩
  case only => exact fun k hpos hk _ => ⟨k - 1, by omega, by omega⟩
  case unchanged =>
    intro k hk
    have hworld : (step^[k] fieldRun.step).world.heap = fieldRun.step.world.heap := by
      interval_cases k
      · rfl
      · rw [hstart]; rfl
      · rw [hround]; rfl
      · exact congrArg (·.world.heap) hend
    rw [hworld]
    rfl
  case stays =>
    show (⟨0⟩ : FrameId) ∈ _
    rw [← hid]
    exact mem_frameIds_of_run (congrArg Machine.control hend)

/-- That world with a breakpoint on the instruction that continues the loop. -/
def hiddenWorld : World :=
  (Program.settle (κ := Empty) (.breakpoint ⟨0⟩ 0 1 true (.done ())) fieldWorld).1

theorem acts_hiddenWorld : fieldWorld.Acts hiddenWorld :=
  .performs (κ := Empty) (.breakpoint ⟨0⟩ 0 1 true (.done ()))

/-- The call of `fieldRun` in that world. -/
def hiddenRun : Machine := start hiddenWorld (.function ⟨0⟩) [.table ⟨0⟩]

theorem reached_hiddenRun : hiddenRun.Reached := by
  have hpatched : Next ⟨fieldWorld, [], .give []⟩ ⟨hiddenWorld, [], .give []⟩ :=
    .acts (m := ⟨fieldWorld, [], .give []⟩) rfl acts_hiddenWorld
  exact (later_fieldWorld.tail hpatched).tail (.calls rfl _ _)

theorem runs_hiddenRun : hiddenRun.step.world.Runs ⟨0⟩ fieldModule :=
  (acts_hiddenWorld.evolves.trans (step_evolves hiddenRun)).runs
    (World.runs_createVm _ unpatched_fieldModule none {})

end GenericLoop

namespace Machine

open GenericLoop

/-- A run with a loop over a table with one field: it makes one round, and then ends. -/
theorem traversals_of_fieldRun : fieldRun.step.Reached ∧ ∃ f,
    pairLoop.Laps fieldRun.step f ⟨0⟩ oneField 1 (· + 1) ∧
      pairLoop.Lap oneField 0 (step^[1] fieldRun.step) ∧
      pairLoop.Lap oneField 1 (step^[2] fieldRun.step) := by
  have hreached : fieldRun.step.Reached := reached_fieldRun.iterate 1
  obtain ⟨f, hlaps⟩ := laps_fieldRun
  obtain ⟨-, -, -, -, -, hloops⟩ := traversals_of_run hreached
  obtain ⟨-, hlap⟩ := hloops pairLoop f ⟨0⟩ _ 1 _ (by
    intro op hop key value hstored
    rw [List.mem_singleton.1 hop] at hstored
    cases hstored
    rfl) hlaps
  exact ⟨hreached, f, hlaps, hlap 0 (by decide), hlap 1 le_rfl⟩

/-- Where a breakpoint hides the loop, preparing it gives no traversal: the frame fails. -/
theorem hidden_loop_fails :
    ∃ f u, hiddenRun.step.Reached ∧ pairLoop.Starts hiddenRun.step f pairPrep ⟨0⟩ ∧
      Effect.prelude pairPrep ⟨hiddenRun.step.world, f, hiddenRun.step.stack⟩ = .ok none u ∧
      hiddenRun.step.acting? = some (.error (.fault (.loopTarget 1)) u) ∧
      ∀ g, hiddenRun.step.step.control ≠ .run g := by
  have hstarts : pairLoop.Starts hiddenRun.step _ pairPrep ⟨0⟩ :=
    ⟨rfl, rfl, rfl, rfl, ⟨_, rfl, rfl⟩, fieldModule, runs_hiddenRun, pairNext, rfl, rfl, rfl, rfl,
      rfl⟩
  refine ⟨_, _, reached_hiddenRun.iterate 1, hstarts, rfl, (hstarts.begins rfl).2 ⟨_, rfl, nofun⟩,
    fun g hg => ?_⟩
  cases hg

end Machine

end ScriptMachine
