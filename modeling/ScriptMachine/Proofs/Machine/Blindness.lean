import ScriptMachine.Machine.Dispatch
import ScriptMachine.Proofs.Machine.Patches

/-!
# Effects that are blind to breakpoints

Two effects *agree* when they come out the same on a state and on a patch of it, and an effect that
agrees with itself is *blind* to breakpoints.  Everything that only touches registers, tables,
captured variables and the host is blind, and blind effects in sequence are blind.
-/

namespace ScriptMachine

/-- The state of a run is another one, with more breakpoints in a machine. -/
structure Running.PatchOf (id : VmId) (s t : Running) : Prop where
  /-- The world is the same but for breakpoints. -/
  world : s.world.PatchOf id t.world
  /-- The frame is the same. -/
  frame : s.frame = t.frame
  /-- The calls that wait are the same. -/
  stack : s.stack = t.stack

namespace Effect

/-- Two steps have come out the same: with related results or the same failure, and in states of
which the first is a patch of the second. -/
inductive Same {α β : Type} (id : VmId) (R : α → β → Prop) :
    EStateM.Result Failure Running α → EStateM.Result Failure Running β → Prop where
  /-- Both have results. -/
  | ok {a : α} {b : β} {s t : Running} (value : R a b) (state : s.PatchOf id t) :
      Same id R (.ok a s) (.ok b t)
  /-- Both have failed. -/
  | error {failure : Failure} {s t : Running} (state : s.PatchOf id t) :
      Same id R (.error failure s) (.error failure t)

/-- Two effects come out the same on a state and on a patch of it. -/
def Agree {α β : Type} (id : VmId) (R : α → β → Prop) (x : Effect α) (y : Effect β) : Prop :=
  ∀ s t, s.PatchOf id t → Same id R (x s) (y t)

/-- The effect comes out the same on a state and on a patch of it. -/
abbrev Blind {α : Type} (id : VmId) (x : Effect α) : Prop := Agree id Eq x x

/-! ## Sequences -/

section Sequences

variable {α β γ δ : Type} {id : VmId} {R : α → β → Prop} {R' : γ → δ → Prop}

theorem Same.bind {x : Effect α} {y : Effect β} {f : α → Effect γ} {g : β → Effect δ}
    {s t : Running} (h : Same id R (x s) (y t))
    (hf : ∀ a b s' t', x s = .ok a s' → R a b → s'.PatchOf id t' → Same id R' (f a s') (g b t')) :
    Same id R' ((x >>= f) s) ((y >>= g) t) := by
  show Same id R' (EStateM.bind x f s) (EStateM.bind y g t)
  unfold EStateM.bind
  generalize x s = r at h hf
  generalize y t = r' at h
  cases h with
  | ok value state => exact hf _ _ _ _ rfl value state
  | error state => exact .error state

theorem Agree.bind {x : Effect α} {y : Effect β} {f : α → Effect γ} {g : β → Effect δ}
    (h : Agree id R x y) (hf : ∀ a b, R a b → Agree id R' (f a) (g b)) :
    Agree id R' (x >>= f) (y >>= g) :=
  fun s t hst => (h s t hst).bind fun a b s' t' _ hab hst' => hf a b hab s' t' hst'

theorem Blind.bind {x : Effect α} {f : α → Effect γ} (h : Blind id x)
    (hf : ∀ a, Blind id (f a)) : Blind id (x >>= f) :=
  Agree.bind h fun a _ hab => hab ▸ hf a

/-- It is enough to look at states that have the frame and the waiting calls in common. -/
theorem blind_of {x : Effect α} (h : ∀ w u f k, World.PatchOf id w u →
    Same id Eq (x ⟨w, f, k⟩) (x ⟨u, f, k⟩)) : Blind id x := by
  rintro ⟨w, f, k⟩ ⟨u, g, l⟩ ⟨hworld, hframe, hstack⟩
  cases hframe
  cases hstack
  exact h w u f k hworld

theorem blind_pure (a : α) : Blind id (pure a : Effect α) := by
  intro s t hst
  exact .ok rfl hst

theorem blind_throw (failure : Failure) : Blind id (throw failure : Effect α) := by
  intro s t hst
  exact .error hst

theorem blind_fault (f : Fault) : Blind id (fault f : Effect α) := blind_throw _

theorem blind_ofExcept (e : Except Fault α) : Blind id (ofExcept e) := by
  cases e with
  | ok a => exact blind_pure a
  | error f => exact blind_fault f

/-- A condition that both sides read in the same way. -/
theorem Blind.ite {c : Prop} [Decidable c] {x y : Effect α} (hx : Blind id x) (hy : Blind id y) :
    Blind id (if c then x else y) := by
  by_cases hc : c
  · simp only [hc, if_true]
    exact hx
  · simp only [hc, if_false]
    exact hy

end Sequences

/-! ## The frame -/

section Frame

variable {id : VmId}

theorem blind_modifyFrame (f : Frame → Frame) : Blind id (modifyFrame f) := by
  refine blind_of fun w u a k hworld => ?_
  exact .ok rfl ⟨hworld, rfl, rfl⟩

theorem blind_register (slot : Nat) : Blind id (register slot) := by
  refine blind_of fun w u a k hworld => ?_
  exact .ok rfl ⟨hworld, rfl, rfl⟩

theorem blind_put (slot : Nat) (value : Value) : Blind id (put slot value) := blind_modifyFrame _

theorem blind_jump (distance : Int) : Blind id (jump distance) := blind_modifyFrame _

theorem blind_context (opcode : Opcode) : Blind id (context opcode) := by
  refine blind_of fun w u a k hworld => ?_
  exact .ok rfl ⟨hworld, rfl, rfl⟩

theorem blind_countFrom (first field : Nat) : Blind id (countFrom first field) := by
  refine blind_of fun w u a k hworld => ?_
  exact .ok rfl ⟨hworld, rfl, rfl⟩

theorem agree_get : Agree id (Running.PatchOf id) (get : Effect Running) get := by
  intro s t hst
  exact .ok hst hst

/-- What is read of the frame is the same. -/
theorem Blind.frame_bind {α : Type} {f : Running → Effect α}
    (hf : ∀ s t : Running, s.PatchOf id t → Agree id Eq (f s) (f t)) : Blind id (get >>= f) :=
  agree_get.bind hf

end Frame

/-! ## The machine -/

section Machine

variable {id : VmId} {α β : Type} {R : α → β → Prop}

/-- The machine of the frame is the same but for breakpoints. -/
theorem agree_vm : Agree id (fun v u => ∃ allowed, Vm.PatchOf allowed v u) vm vm := by
  rintro ⟨w, a, k⟩ ⟨u, b, l⟩ ⟨hworld, rfl, rfl⟩
  exact .ok ⟨_, hworld.vm a.vm⟩ ⟨hworld, rfl, rfl⟩

theorem Agree.vm_bind {f : Vm → Effect α} {g : Vm → Effect β}
    (hf : ∀ v u allowed, Vm.PatchOf allowed v u → Agree id R (f v) (g u)) :
    Agree id R (vm >>= f) (vm >>= g) :=
  agree_vm.bind fun v u ⟨allowed, hv⟩ => hf v u allowed hv

theorem blind_settings : Blind id settings := by
  refine Agree.vm_bind fun v u allowed hv => ?_
  rw [hv.settings]
  exact blind_pure _

theorem blind_ensure (size : Nat) : Blind id (ensure size) := by
  refine blind_settings.bind fun settings => ?_
  refine blind_of fun w u f k hworld => ?_
  dsimp only
  split
  · exact .ok rfl ⟨hworld, rfl, rfl⟩
  · exact .error ⟨hworld, rfl, rfl⟩

/-! ## The host -/

theorem blind_perform (p : HookProgram α) : Blind id (perform p) := by
  refine blind_of fun w u f k hworld => ?_
  obtain ⟨hworld, hresult⟩ := hworld.perform p
  unfold perform
  rcases hw : p.perform w with ⟨w', r⟩
  rcases hu : p.perform u with ⟨u', r'⟩
  rw [hw, hu] at hworld hresult
  cases hresult
  cases r with
  | ok result => exact .ok rfl ⟨hworld, rfl, rfl⟩
  | error failure => exact .error ⟨hworld, rfl, rfl⟩

theorem blind_stepHook (opcode : Opcode) : Blind id (stepHook opcode) := by
  refine blind_settings.bind fun settings => ?_
  split
  · exact (blind_context opcode).bind fun _ => blind_perform _
  · exact blind_pure ()

theorem blind_interrupt (opcode : Opcode) : Blind id (interrupt opcode) := by
  refine blind_settings.bind fun settings => ?_
  split
  · exact (blind_context opcode).bind fun _ => blind_perform _
  · exact blind_pure ()

end Machine

/-! ## Tables and captured variables -/

section Store

variable {id : VmId}

theorem blind_getKey (t : TableId) (key : Value) : Blind id (getKey t key) := by
  refine blind_of fun w u f k hworld => ?_
  refine .ok ?_ ⟨hworld, rfl, rfl⟩
  rw [hworld.heap]

theorem blind_setKey (t : TableId) (key value : Value) : Blind id (setKey t key value) := by
  refine blind_of fun w u f k hworld => ?_
  unfold setKey
  simp only [hworld.heap]
  split
  · exact .ok rfl ⟨{ hworld with heap := rfl }, rfl, rfl⟩
  · exact .error ⟨hworld, rfl, rfl⟩

theorem blind_createTable : Blind id createTable := by
  refine blind_of fun w u f k hworld => ?_
  unfold createTable
  simp only [hworld.heap]
  exact .ok rfl ⟨{ hworld with heap := rfl }, rfl, rfl⟩

theorem blind_readCell (cell : CellId) : Blind id (readCell cell) := by
  refine blind_of fun w u f k hworld => ?_
  unfold readCell
  simp only [hworld.cells]
  split
  · exact .ok rfl ⟨hworld, rfl, rfl⟩
  · split
    · exact .ok rfl ⟨hworld, rfl, rfl⟩
    · split <;> exact .ok rfl ⟨hworld, rfl, rfl⟩

theorem blind_writeCell (cell : CellId) (value : Value) : Blind id (writeCell cell value) := by
  refine blind_of fun w u f k hworld => ?_
  unfold writeCell
  simp only [hworld.cells]
  split
  · exact .ok rfl ⟨{ hworld with cells := rfl }, rfl, rfl⟩
  · split <;> exact .ok rfl ⟨hworld, rfl, rfl⟩

theorem blind_closedCell (value : Value) : Blind id (closedCell value) := by
  refine blind_of fun w u f k hworld => ?_
  unfold closedCell
  simp only [hworld.cells]
  exact .ok rfl ⟨{ hworld with cells := rfl }, rfl, rfl⟩

theorem blind_captureRegister (slot : Nat) : Blind id (captureRegister slot) := by
  refine blind_of fun w u f k hworld => ?_
  unfold captureRegister
  simp only [hworld.cells]
  exact .ok rfl ⟨{ hworld with cells := rfl }, rfl, rfl⟩

theorem blind_closeFrom (slot : Nat) : Blind id (closeFrom slot) := by
  refine blind_of fun w u f k hworld => ?_
  unfold closeFrom
  simp only [hworld.cells]
  exact .ok rfl ⟨{ hworld with cells := rfl }, rfl, rfl⟩

theorem blind_upvalue (index : Nat) : Blind id (upvalue index) := by
  refine blind_of fun w u f k hworld => ?_
  unfold upvalue
  dsimp only
  split
  · exact .ok rfl ⟨hworld, rfl, rfl⟩
  · exact .error ⟨hworld, rfl, rfl⟩

theorem blind_createClosure (index : Nat) (upvalues : Array CellId) :
    Blind id (createClosure index upvalues) := by
  refine blind_of fun w u f k hworld => ?_
  obtain ⟨hid, hpatch⟩ :=
    hworld.createFunction (.closure { vm := f.vm, prototype := index, upvalues })
  exact .ok hid ⟨hpatch, rfl, rfl⟩

end Store

end Effect

end ScriptMachine
