import Mathlib
import ScriptMachine.Proofs.Capture.Scopes
import ScriptMachine.Proofs.Machine.Endings
import ScriptMachine.Proofs.Machine.Hosts

/-!
# Open cells belong to frames in progress

At every moment of a run the cells that are open are exactly those that the frames in progress list,
each under its own slot in one frame.  Every effect keeps it so, a frame that is made lists none,
and a frame that ends closes its own.
-/

namespace ScriptMachine

/-! ## Stores and frames -/

/-- The open cells of a store are those that some frames list, and the next frame will be new. -/
structure Anchored (store : Cells) (frames : List Frame) (next : Nat) : Prop where
  /-- The frames are different ones. -/
  nodup : (frames.map (·.id)).Nodup
  /-- The next frame is none of them. -/
  fresh : ∀ f ∈ frames, f.id.index < next
  /-- The entries of each are exact. -/
  tracks : ∀ f ∈ frames, f.toScope.Tracks store
  /-- Open cells are open on one of them. -/
  home : ∀ id frame slot, store.cell id = .open frame slot → ∃ f ∈ frames, f.id = frame

namespace Anchored

variable {store store' : Cells} {frames rest : List Frame} {f : Frame} {next : Nat}

/-- Only the entries of the frames matter. -/
theorem of_entries (h : Anchored store frames next) {others : List Frame}
    (hentries : others.map (fun f => (f.id, f.captured)) =
      frames.map fun f => (f.id, f.captured)) : Anchored store others next := by
  have hids : others.map (·.id) = frames.map (·.id) := by
    simpa [Function.comp_def] using congrArg (List.map Prod.fst) hentries
  have hmem : ∀ g ∈ others, ∃ f ∈ frames, f.id = g.id ∧ f.captured = g.captured := by
    intro g hg
    have hg' := List.mem_map_of_mem (f := fun f : Frame => (f.id, f.captured)) hg
    rw [hentries] at hg'
    obtain ⟨f, hf, heq⟩ := List.mem_map.1 hg'
    cases hf' : (f.id, f.captured)
    simp_all
  refine ⟨hids ▸ h.nodup, fun g hg => ?_, fun g hg => ?_, fun id frame slot hopen => ?_⟩
  · obtain ⟨f, hf, hid, -⟩ := hmem g hg
    exact hid ▸ h.fresh f hf
  · obtain ⟨f, hf, hid, hcaptured⟩ := hmem g hg
    exact (h.tracks f hf).congr hid.symm hcaptured.symm fun _ _ => .rfl
  · obtain ⟨f, hf, hid⟩ := h.home id frame slot hopen
    have hframe : frame ∈ others.map (·.id) := hids ▸ List.mem_map.2 ⟨f, hf, hid⟩
    obtain ⟨g, hg, hid'⟩ := List.mem_map.1 hframe
    exact ⟨g, hg, hid'⟩

/-- Only the cells that are open matter. -/
theorem of_open (h : Anchored store frames next)
    (hopen : ∀ id frame slot, store'.cell id = .open frame slot ↔
      store.cell id = .open frame slot) : Anchored store' frames next where
  nodup := h.nodup
  fresh := h.fresh
  tracks f hf := (h.tracks f hf).congr rfl rfl fun id slot => hopen id f.id slot
  home id frame slot hid := h.home id frame slot ((hopen id frame slot).1 hid)

/-- The first frame may open and close cells of its own. -/
theorem of_scope (h : Anchored store (f :: rest) next) {scope : Scope} (hid : scope.id = f.id)
    (htracks : scope.Tracks store')
    (hothers : ∀ id frame slot, frame ≠ f.id →
      (store'.cell id = .open frame slot ↔ store.cell id = .open frame slot)) :
    Anchored store' ({ f with toScope := scope } :: rest) next := by
  have hne : ∀ g ∈ rest, g.id ≠ f.id := by
    intro g hg heq
    exact (List.nodup_cons.1 h.nodup).1 (List.mem_map.2 ⟨g, hg, heq⟩)
  refine ⟨?_, ?_, ?_, fun id frame slot hopen => ?_⟩
  · simpa [hid] using h.nodup
  · simpa [hid] using h.fresh
  · rintro g (_ | ⟨_, hg⟩)
    · exact htracks
    · exact (h.tracks g (List.mem_cons_of_mem _ hg)).congr rfl rfl fun id slot =>
        hothers id g.id slot (hne g hg)
  · by_cases hframe : frame = f.id
    · exact ⟨_, List.mem_cons_self, hid.trans hframe.symm⟩
    · obtain ⟨g, hg, rfl⟩ := h.home id frame slot ((hothers id frame slot hframe).1 hopen)
      rcases List.mem_cons.1 hg with rfl | hg
      · exact absurd rfl hframe
      · exact ⟨g, List.mem_cons_of_mem _ hg, rfl⟩

theorem capture (h : Anchored store (f :: rest) next) (slot : Nat) :
    Anchored (f.toScope.capture store slot).2.2
      ({ f with toScope := (f.toScope.capture store slot).2.1 } :: rest) next := by
  have htracks := h.tracks f List.mem_cons_self
  refine h.of_scope (f.toScope.capture_id store slot) (htracks.capture slot)
    fun id frame k hframe => ?_
  rw [htracks.open_capture_iff slot]
  simp [hframe]

theorem closeFrom (h : Anchored store (f :: rest) next) (slot : Nat) :
    Anchored (f.toScope.closeFrom store slot).2
      ({ f with toScope := (f.toScope.closeFrom store slot).1 } :: rest) next := by
  have htracks := h.tracks f List.mem_cons_self
  refine h.of_scope rfl (htracks.closeFrom slot) fun id frame k hframe => ?_
  rw [htracks.open_closeFrom_iff]
  simp [hframe]

/-- A frame that has closed its cells can go. -/
theorem ended (h : Anchored store (f :: rest) next) :
    Anchored (f.toScope.closeFrom store 0).2 rest next := by
  have hclosed := h.closeFrom 0
  have htracks := h.tracks f List.mem_cons_self
  refine ⟨(List.nodup_cons.1 hclosed.nodup).2, fun g hg => ?_, fun g hg => ?_,
    fun id frame slot hopen => ?_⟩
  · exact hclosed.fresh g (List.mem_cons_of_mem _ hg)
  · exact hclosed.tracks g (List.mem_cons_of_mem _ hg)
  · obtain ⟨hbefore, hother⟩ := htracks.open_closeFrom_iff.1 hopen
    obtain ⟨g, hg, rfl⟩ := h.home id frame slot hbefore
    rcases List.mem_cons.1 hg with rfl | hg
    · exact absurd ⟨rfl, Nat.zero_le _⟩ hother
    · exact ⟨g, hg, rfl⟩

/-- A frame that has just been made lists no cells. -/
theorem entered (h : Anchored store rest next) (hid : f.id = ⟨next⟩) (hcaptured : f.captured = []) :
    Anchored store (f :: rest) (next + 1) := by
  have hnot : f.id ∉ rest.map (·.id) := by
    intro hmem
    obtain ⟨g, hg, heq⟩ := List.mem_map.1 hmem
    have hlt := h.fresh g hg
    rw [heq, hid] at hlt
    exact lt_irrefl _ hlt
  refine ⟨List.nodup_cons.2 ⟨hnot, h.nodup⟩, ?_, ?_, fun id frame slot hopen => ?_⟩
  · rintro g (_ | ⟨_, hg⟩)
    · rw [hid]
      exact Nat.lt_succ_self next
    · exact Nat.lt_succ_of_lt (h.fresh g hg)
  · rintro g (_ | ⟨_, hg⟩)
    · refine Scope.tracks_of_fresh hcaptured fun id slot hopen => hnot ?_
      obtain ⟨g, hg, heq⟩ := h.home id f.id slot hopen
      exact List.mem_map.2 ⟨g, hg, heq⟩
    · exact h.tracks g hg
  · obtain ⟨g, hg, rfl⟩ := h.home id frame slot hopen
    exact ⟨g, List.mem_cons_of_mem _ hg, rfl⟩

end Anchored

/-! ## What programs of the host leave alone -/

/-- Programs of the host touch no cells and make no frames. -/
theorem World.hosted_cells :
    World.Hosted fun w w' => w'.cells = w.cells ∧ w'.nextFrame = w.nextFrame where
  refl _ := ⟨rfl, rfl⟩
  trans h h' := ⟨h'.1.trans h.1, h'.2.trans h.2⟩
  heap _ _ := ⟨rfl, rfl⟩
  write _ _ := ⟨rfl, rfl⟩
  close _ _ := ⟨rfl, rfl⟩
  release _ _ := ⟨rfl, rfl⟩
  setBreakpoint h := by
    rcases setBreakpoint_cases h with rfl | ⟨m, rfl⟩ <;> exact ⟨rfl, rfl⟩
  record _ _ := ⟨rfl, rfl⟩
  countUp _ _ _ := ⟨rfl, rfl⟩

theorem Program.settle_cells {κ α : Type} (p : Program κ α) (w : World) :
    (p.settle w).1.cells = w.cells ∧ (p.settle w).1.nextFrame = w.nextFrame :=
  p.settle_keeps World.hosted_cells w

theorem Program.perform_cells {α : Type} (p : HookProgram α) (w : World) :
    (p.perform w).1.cells = w.cells ∧ (p.perform w).1.nextFrame = w.nextFrame :=
  p.perform_keeps World.hosted_cells w

theorem handle_cells (w : World) (f : Frame) (failure : Failure) :
    (handle w f failure).1.cells = w.cells ∧ (handle w f failure).1.nextFrame = w.nextFrame :=
  handle_keeps World.hosted_cells w f failure

/-! ## What effects do to cells -/

namespace Cells

variable {store : Cells} {id : CellId}

/-- A new cell that is closed opens nothing. -/
theorem open_create_closed_iff (value : Value) {frame : FrameId} {slot : Nat} :
    (store.create (.closed value)).2.cell id = .open frame slot ↔
      store.cell id = .open frame slot := by
  rw [cell_create]
  split
  · rename_i hid
    refine ⟨fun h => (by cases h), fun h => absurd (lt_of_open h) (by omega)⟩
  · exact .rfl

end Cells

namespace Running

/-- The open cells of a state are those that its frames list. -/
def Anchored (s : Running) : Prop :=
  ScriptMachine.Anchored s.world.cells s.frames s.world.nextFrame

/-- One state has come out of another one by effects. -/
structure Follows (s t : Running) : Prop where
  /-- The same frames are in progress. -/
  ids : t.frames.map (·.id) = s.frames.map (·.id)
  /-- No frame has been made. -/
  nextFrame : t.world.nextFrame = s.world.nextFrame
  /-- Cells have been made and closed. -/
  evolves : s.world.cells.Evolves t.world.cells
  /-- Open cells are still listed. -/
  anchored : s.Anchored → t.Anchored

/-- Effects that leave cells and entries alone. -/
theorem Follows.of_entries {s t : Running} (hcells : t.world.cells = s.world.cells)
    (hnext : t.world.nextFrame = s.world.nextFrame)
    (hentries : t.frames.map (fun f => (f.id, f.captured)) =
      s.frames.map fun f => (f.id, f.captured)) : s.Follows t where
  ids := by simpa [Function.comp_def] using congrArg (List.map Prod.fst) hentries
  nextFrame := hnext
  evolves := hcells ▸ .refl _
  anchored h := by
    unfold Running.Anchored
    rw [hcells, hnext]
    exact h.of_entries hentries

theorem Follows.trans {s t u : Running} (h : s.Follows t) (h' : t.Follows u) : s.Follows u :=
  ⟨h'.ids.trans h.ids, h'.nextFrame.trans h.nextFrame, h.evolves.trans h'.evolves,
    fun hs => h'.anchored (h.anchored hs)⟩

/-- What does not depend on registers is the same of all frames when one of them is stored in. -/
theorem map_frames_putRegister {α : Type} {g : Frame → α}
    (hg : ∀ f slot value, g (f.put slot value) = g f) (stack : Stack) (id : FrameId) (slot : Nat)
    (value : Value) : (stack.putRegister id slot value).frames.map g = stack.frames.map g := by
  induction stack with
  | nil => rfl
  | cons waiting stack ih =>
    cases waiting with
    | native resume => exact ih
    | frame f next =>
      have hcons : Stack.putRegister (.frame f next :: stack) id slot value =
          (if f.id = id then .frame (f.put slot value) next else .frame f next) ::
            Stack.putRegister stack id slot value := rfl
      rw [hcons]
      split <;> simp [ih, hg]

/-- Every basic effect keeps open cells listed. -/
theorem steady_follows : Effect.Steady Follows where
  refl s := .of_entries rfl rfl rfl
  trans h h' := h.trans h'
  fault s f := .of_entries rfl rfl rfl
  frame s f hf _ := .of_entries rfl rfl (by simp [frames, hf.id, hf.captured])
  moved s pc := .of_entries rfl rfl rfl
  setIterator s slot bridge := .of_entries rfl rfl rfl
  dropIterator s slot := .of_entries rfl rfl rfl
  heap s heap := .of_entries rfl rfl rfl
  perform s p _ := .of_entries (p.perform_cells s.world).1 (p.perform_cells s.world).2 rfl
  countHit s := .of_entries rfl rfl rfl
  confusion s := .of_entries rfl rfl rfl
  trace s line := .of_entries rfl rfl rfl
  writeCell id value s := by
    unfold Effect.after Effect.writeCell
    split
    · rename_i old hold
      refine ⟨rfl, rfl, Cells.evolves_replace_closed _ _ _, fun h => h.of_open ?_⟩
      exact fun _ _ _ => Cells.open_replace_closed_iff hold value
    · split
      · exact .of_entries rfl rfl rfl
      · refine .of_entries rfl rfl ?_
        exact congrArg (List.cons _) (map_frames_putRegister (fun _ _ _ => rfl) _ _ _ _)
  closedCell value s :=
    ⟨rfl, rfl, Cells.evolves_create _ _, fun h => h.of_open fun _ _ _ =>
      Cells.open_create_closed_iff value⟩
  captureRegister slot s := by
    refine ⟨?_, rfl, Scope.evolves_capture _ _ _, fun h => h.capture slot⟩
    exact congrArg (· :: _) (Scope.capture_id _ _ _)
  closeFrom slot s := ⟨rfl, rfl, Scope.evolves_closeFrom _ _ _, fun h => h.closeFrom slot⟩
  createClosure index upvalues s := .of_entries rfl rfl rfl

/-! ## Endings -/

variable {s : Running}

theorem endWith_world (s : Running) (result : Except Failure (List Value)) :
    (s.endWith result).world.cells = (s.frame.toScope.closeFrom s.world.cells 0).2 ∧
      (s.endWith result).world.nextFrame = s.world.nextFrame := by
  cases result with
  | ok values => exact ⟨rfl, rfl⟩
  | error failure =>
    obtain ⟨hcells, hnext⟩ := handle_cells s.world s.frame failure
    refine ⟨?_, hnext⟩
    show (s.frame.toScope.closeFrom (handle s.world s.frame failure).1.cells 0).2 = _
    rw [hcells]

theorem endWith_frames (s : Running) (result : Except Failure (List Value)) :
    (s.endWith result).frames = s.stack.frames := by
  cases result <;> rfl

end Running

/-! ## Steps -/

namespace Machine

/-- The open cells of a run are those that the frames in progress list. -/
def Anchored (m : Machine) : Prop :=
  ScriptMachine.Anchored m.world.cells m.frames m.world.nextFrame

/-- One moment of a run comes after another one. -/
structure Advances (m n : Machine) : Prop where
  /-- Cells have been made and closed. -/
  evolves : m.world.cells.Evolves n.world.cells
  /-- Frames have been made. -/
  next_le : m.world.nextFrame ≤ n.world.nextFrame
  /-- Frames in progress were in progress before, or are new. -/
  old : ∀ id ∈ n.frameIds, id ∈ m.frameIds ∨ m.world.nextFrame ≤ id.index
  /-- Open cells are still listed. -/
  anchored : m.Anchored → n.Anchored

theorem Advances.refl (m : Machine) : m.Advances m :=
  ⟨.refl _, le_refl _, fun _ hid => .inl hid, id⟩

theorem Advances.trans {m n o : Machine} (h : m.Advances n) (h' : n.Advances o) :
    m.Advances o := by
  refine ⟨h.evolves.trans h'.evolves, h.next_le.trans h'.next_le, fun id hid => ?_,
    fun hm => h'.anchored (h.anchored hm)⟩
  rcases h'.old id hid with hn | hnew
  · exact h.old id hn
  · exact .inr (h.next_le.trans hnew)

section Steps

variable {m n : Machine} {s t : Running}

/-- What a frame does. -/
theorem advances_of_follows (hworld : s.world = m.world) (hframes : s.frames = m.frames)
    (h : s.Follows t) (hworld' : n.world = t.world) (hframes' : n.frames = t.frames) :
    m.Advances n := by
  refine ⟨?_, ?_, fun id hid => .inl ?_, fun hm => ?_⟩
  · rw [hworld', ← hworld]
    exact h.evolves
  · rw [hworld', h.nextFrame, hworld]
  · rwa [frameIds, hframes', h.ids, hframes] at hid
  · have hs : s.Anchored := by
      unfold Running.Anchored
      rw [hworld, hframes]
      exact hm
    unfold Anchored
    rw [hworld', hframes']
    exact h.anchored hs

/-- The end of a frame. -/
theorem advances_endWith (hworld : m.world = s.world) (hframes : m.frames = s.frames)
    (result : Except Failure (List Value)) : m.Advances (s.endWith result) := by
  obtain ⟨hcells, hnext⟩ := s.endWith_world result
  refine ⟨?_, ?_, fun id hid => .inl ?_, fun hm => ?_⟩
  · rw [hworld, hcells]
    exact s.frame.toScope.evolves_closeFrom _ _
  · rw [hworld, hnext]
  · rw [frameIds, s.endWith_frames] at hid
    rw [frameIds, hframes]
    exact List.mem_cons_of_mem _ hid
  · unfold Anchored at hm ⊢
    rw [hworld, hframes] at hm
    rw [hcells, hnext, s.endWith_frames]
    exact hm.ended

/-- A frame that is made. -/
theorem advances_entered {c : Closure} {vm : Vm} {args : List Value}
    (hframes : m.frames = m.stack.frames)
    (hworld' : n.world = (entered m.world m.stack c vm args).world)
    (hframes' : n.frames = (entered m.world m.stack c vm args).frames) : m.Advances n := by
  refine ⟨?_, ?_, fun id hid => ?_, fun hm => ?_⟩
  · rw [hworld']
    exact .refl _
  · rw [hworld']
    exact Nat.le_succ _
  · rw [frameIds, hframes'] at hid
    rcases List.mem_cons.1 hid with rfl | hold
    · exact .inr (le_refl _)
    · rw [frameIds, hframes]
      exact .inl hold
  · unfold Anchored at hm ⊢
    rw [hframes] at hm
    rw [hworld', hframes']
    exact hm.entered rfl rfl

end Steps

theorem advances_step (m : Machine) : m.Advances m.step := by
  cases move Running.steady_follows m with
  | goesOn s t hworld hframes h _ hworld' hframes' =>
    exact advances_of_follows hworld hframes h hworld' hframes'
  | ends s t result hworld hframes h _ hstep =>
    have hacted : m.Advances ⟨t.world, t.stack, .run t.frame⟩ :=
      advances_of_follows hworld hframes h rfl rfl
    rw [hstep]
    exact hacted.trans (advances_endWith rfl rfl result)
  | enters c vm args hframes _ hworld' hframes' => exact advances_entered hframes hworld' hframes'
  | overflows c vm args hframes _ hstep =>
    let s := entered m.world m.stack c vm args
    have hentered : m.Advances ⟨s.world, s.stack, .run s.frame⟩ :=
      advances_entered hframes rfl rfl
    rw [hstep]
    exact hentered.trans (advances_endWith rfl rfl _)
  | rests p _ hworld' hframes' =>
    obtain ⟨hcells, hnext⟩ := p.settle_cells m.world
    refine ⟨?_, ?_, fun id hid => .inl ?_, fun hm => ?_⟩
    · rw [hworld', hcells]
      exact .refl _
    · rw [hworld', hnext]
    · rwa [frameIds, hframes'] at hid
    · unfold Anchored
      rw [hworld', hframes', hcells, hnext]
      exact hm

end Machine

end ScriptMachine
