import ScriptMachine.Machine.Load
import ScriptMachine.Proofs.Capture.Frames

/-!
# No open cell outlives its frame

Between calls no cell is open.  During a call every open cell is listed by one frame in progress;
however that frame ends, its cells are closed then, with the last values of its registers, and stay
closed.
-/

namespace ScriptMachine

namespace Machine

/-! ## Runs -/

theorem advances_iterate (m : Machine) (k : Nat) : m.Advances (step^[k] m) := by
  induction k with
  | zero => exact .refl m
  | succ k ih =>
    rw [Function.iterate_succ_apply']
    exact ih.trans (advances_step _)

theorem advances_later (m : Machine) {j i : Nat} (hji : j ≤ i) :
    (step^[j] m).Advances (step^[i] m) := by
  obtain ⟨d, rfl⟩ := Nat.exists_eq_add_of_le hji
  rw [Nat.add_comm, Function.iterate_add_apply]
  exact advances_iterate _ d

/-- A run that has ended has come to its end by steps. -/
theorem exists_step_of_run {fuel : Nat} {m : Machine} {w : World}
    {outcome : Except Failure (List Value)} (h : m.run fuel = some (w, outcome)) :
    ∃ k, (step^[k] m).outcome? = some outcome ∧ (step^[k] m).world = w := by
  induction fuel generalizing m with
  | zero =>
    obtain ⟨outcome', houtcome, heq⟩ := Option.map_eq_some_iff.1 h
    cases heq
    exact ⟨0, houtcome, rfl⟩
  | succ fuel ih =>
    unfold run at h
    cases houtcome : m.outcome? with
    | some outcome' =>
      rw [houtcome] at h
      cases h
      exact ⟨0, houtcome, rfl⟩
    | none =>
      rw [houtcome] at h
      obtain ⟨k, hk⟩ := ih h
      exact ⟨k + 1, hk⟩

/-- A run that has ended has no frames. -/
theorem frames_of_outcome {m : Machine} {outcome : Except Failure (List Value)}
    (h : m.outcome? = some outcome) : m.frames = [] := by
  obtain ⟨w, stack, control⟩ := m
  unfold outcome? at h
  cases stack <;> cases control <;> first | rfl | cases h

/-- Without frames there are no open cells. -/
theorem Anchored.not_open {m : Machine} (h : m.Anchored) (hframes : m.frames = []) (id : CellId) :
    (m.world.cells.cell id).isOpen = false := by
  cases hcell : m.world.cells.cell id with
  | closed value => rfl
  | «open» frame slot =>
    obtain ⟨f, hf, -⟩ := h.home id frame slot hcell
    rw [hframes] at hf
    cases hf

theorem anchored_start {w : World} (h : ∀ id, (w.cells.cell id).isOpen = false) (function : Value)
    (args : List Value) : (start w function args).Anchored where
  nodup := List.nodup_nil
  fresh f hf := by cases hf
  tracks f hf := by cases hf
  home id frame slot hopen := by
    have hclosed := h id
    rw [show w.cells.cell id = .open frame slot from hopen] at hclosed
    cases hclosed

/-! ## Endings -/

variable {m : Machine} {s : Running} {result : Except Failure (List Value)}

/-- The state in which a frame ends, with the frames that were in progress. -/
theorem Anchored.ending (hm : m.Anchored) (h : m.ending? = some (s, result)) : s.Anchored := by
  have hnone : m.ending? ≠ none := by rw [h]; exact Option.some_ne_none _
  cases move Running.steady_follows m with
  | goesOn _ _ _ _ _ ending => exact absurd ending hnone
  | enters _ _ _ _ ending => exact absurd ending hnone
  | rests _ ending => exact absurd ending hnone
  | ends s₀ t _ hworld hframes hfollows ending =>
    rw [h] at ending
    cases ending
    refine hfollows.anchored ?_
    unfold Running.Anchored
    rw [hworld, hframes]
    exact hm
  | overflows c vm args hframes ending =>
    rw [h] at ending
    cases ending
    unfold Anchored at hm
    rw [hframes] at hm
    exact hm.entered rfl rfl

/-- A frame that has ended is not in progress any more, and will not be. -/
theorem Anchored.not_mem_of_ending (hm : m.Anchored) (h : m.ending? = some (s, result))
    {n : Machine} (hn : m.step.Advances n) : s.frame.id ∉ n.frameIds := by
  have hs := hm.ending h
  have hstep := step_of_ending h
  intro hmem
  rcases hn.old _ hmem with hnow | hnew
  · rw [hstep, frameIds, s.endWith_frames] at hnow
    exact (List.nodup_cons.1 hs.nodup).1 hnow
  · rw [hstep, (s.endWith_world result).2] at hnew
    exact absurd (hs.fresh s.frame List.mem_cons_self) (Nat.not_lt.2 hnew)

/-! ## Lifetimes -/

end Machine

/-! ## Between calls -/

/-- The worlds between calls: from an empty one on, the host has changed anything but the cells,
such as by loading modules, and has made calls. -/
inductive World.Idle : World → Prop where
  /-- The empty world. -/
  | empty : World.Idle {}
  /-- The host has changed something. -/
  | changed {w w' : World} : w.Idle → w'.cells = w.cells → World.Idle w'
  /-- A call has ended. -/
  | called {w w' : World} {fuel : Nat} {function : Value} {args : List Value}
    {outcome : Except Failure (List Value)} : w.Idle →
      w.call fuel function args = some (w', outcome) → World.Idle w'

/-- Loading a module makes no cells. -/
theorem World.Idle.loaded {w w' : World} {bytes : Bytes} {environment : Option TableId}
    {settings : Settings} {entry : Entry} (h : w.Idle)
    (hload : w.loadBytes bytes environment settings = .ok (entry, w')) : w'.Idle := by
  obtain ⟨m, heap, -, heq⟩ := createVm_of_loadBytes hload
  cases heq
  exact h.changed rfl

theorem World.Idle.not_open {w : World} (h : w.Idle) (id : CellId) :
    (w.cells.cell id).isOpen = false := by
  induction h generalizing id with
  | empty => rfl
  | changed _ hcells ih =>
    rw [hcells]
    exact ih id
  | @called _ _ _ function args _ _ hcall ih =>
    obtain ⟨k, houtcome, rfl⟩ := Machine.exists_step_of_run hcall
    have hstart := Machine.anchored_start ih function args
    have hend := (Machine.advances_iterate _ k).anchored hstart
    exact hend.not_open (Machine.frames_of_outcome houtcome) id

end ScriptMachine
