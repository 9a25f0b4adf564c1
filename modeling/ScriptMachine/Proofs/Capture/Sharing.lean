import Mathlib
import ScriptMachine.Proofs.Capture.Sessions

/-!
# Captured variables are shared

Whoever captures a register and whoever names it have one variable in common, until the register
goes out of scope; from then on the variable is on its own.  This is said of any history of what
can be done to a scope: its registers and the handles to its captured variables read as if every
capture of a register without a variable had made one that the register *is*, whatever cells are
open or closed to bring that about.
-/

namespace ScriptMachine

/-! ## Shared variables -/

/-- Registers that either hold a value of their own or are a variable that others share. -/
structure Variables where
  /-- The variable that a register is, if it is one. -/
  shared : Nat → Option CellId := fun _ => none
  /-- The values of the registers that are none. -/
  own : Nat → Value
  /-- The values of the variables. -/
  value : CellId → Value := fun _ => .nil
  /-- The number of the next variable. -/
  next : Nat
  /-- The variables that have been given out, the latest first. -/
  given : List CellId := []

namespace Variables

/-- The value of a register. -/
def register (v : Variables) (slot : Nat) : Value :=
  match v.shared slot with
  | some id => v.value id
  | none => v.own slot

/-- The registers from a slot on take the values of their variables and are variables no more. -/
def close (v : Variables) (slot : Nat) : Variables :=
  { v with
    shared := fun k => if slot ≤ k then none else v.shared k
    own := fun k => if slot ≤ k then v.register k else v.own k }

/-- The variables after an operation: a capture makes a register a new variable when it is none. -/
def after (v : Variables) : Session.Operation → Variables
  | .capture slot =>
    match v.shared slot with
    | some id => { v with given := id :: v.given }
    | none =>
      { v with
        shared := Function.update v.shared slot (some ⟨v.next⟩)
        value := Function.update v.value ⟨v.next⟩ (v.own slot)
        next := v.next + 1
        given := ⟨v.next⟩ :: v.given }
  | .close slot => v.close slot
  | .finish => v.close 0
  | .setRegister slot value =>
    match v.shared slot with
    | some id => { v with value := Function.update v.value id value }
    | none => { v with own := Function.update v.own slot value }
  | .write id value => { v with value := Function.update v.value id value }

/-- The variables after a history of operations. -/
def run (v : Variables) (history : List Session.Operation) : Variables := history.foldl after v

/-- The registers of a session at its start. -/
def ofSession (s : Session) : Variables := { own := s.register, next := s.store.cells.size }

end Variables

namespace Session

/-- A session cannot be told from registers and variables by reading. -/
structure ReadsAs (s : Session) (v : Variables) : Prop where
  /-- The same handles have been given out. -/
  given : s.given = v.given
  /-- Every register reads the same. -/
  register : ∀ slot, s.register slot = v.register slot
  /-- So does every handle. -/
  read : ∀ id ∈ s.given, s.read id = v.value id
  /-- The cells that are open are the variables that registers are. -/
  shared : ∀ id slot, s.store.cell id = .open s.scope.id slot ↔ v.shared slot = some id

/-! ## Reading as variables -/

variable {s : Session} {v : Variables}

theorem read_of_open {id : CellId} {frame : FrameId} {slot : Nat}
    (h : s.store.cell id = .open frame slot) : s.read id = s.register slot := by
  simp only [read, Scope.read, h, register]

theorem read_of_closed {id : CellId} {value : Value} (h : s.store.cell id = .closed value) :
    s.read id = value := by
  simp only [read, Scope.read, h]

/-- A session that reads as variables, the next of which is the next cell. -/
structure Simulates (s : Session) (v : Variables) : Prop extends s.ReadsAs v where
  /-- The next variable is the next cell. -/
  next : v.next = s.store.cells.size

/-- At the start every register has a value of its own. -/
theorem Fresh.simulates (h : s.Fresh) : s.Simulates (.ofSession s) where
  given := h.given
  register _ := rfl
  read id hid := by simp [h.given] at hid
  shared id slot := by simp [h.cells, Variables.ofSession]
  next := rfl

namespace Simulates

/-- What a register that is no variable holds. -/
theorem own (hv : s.Simulates v) {slot : Nat} (hslot : v.shared slot = none) :
    v.own slot = s.register slot := by
  rw [hv.register, Variables.register, hslot]

/-- What the variable of a register holds. -/
theorem value (hv : s.Simulates v) {slot : Nat} {id : CellId} (hslot : v.shared slot = some id) :
    v.value id = s.register slot := by
  rw [hv.register, Variables.register, hslot]

/-- A register that is captured again stays the variable that it is. -/
theorem capture_again (hv : s.Simulates v) {slot : Nat} {id : CellId}
    (hopen : s.store.cell id = .open s.scope.id slot) (hshared : v.shared slot = some id) :
    ({ s with given := id :: s.given } : Session).Simulates { v with given := id :: v.given } := by
  refine ⟨⟨congrArg _ hv.given, hv.register, fun other hother => ?_, hv.shared⟩, hv.next⟩
  rcases List.mem_cons.1 hother with rfl | hother
  · rw [hv.value hshared]
    exact read_of_open hopen
  · exact hv.read other hother

/-- The next variable is not one that a register is. -/
theorem ne_next (hv : s.Simulates v) {k : Nat} {id : CellId} (hk : v.shared k = some id) :
    id ≠ ⟨v.next⟩ := by
  rintro rfl
  have hlt := Cells.lt_of_open ((hv.shared _ k).2 hk)
  rw [hv.next] at hlt
  exact absurd hlt (lt_irrefl _)

/-- A register that becomes a new variable reads as before, and so do all others. -/
theorem register_captured (hv : s.Simulates v) {slot : Nat} (hshared : v.shared slot = none)
    (k : Nat) : (v.after (.capture slot)).register k = s.register k := by
  rw [hv.register]
  simp only [Variables.after, hshared]
  unfold Variables.register
  by_cases hk : k = slot
  · subst hk
    simp [hshared]
  · cases hother : v.shared k with
    | none => simp [Function.update_of_ne hk, hother]
    | some id => simp [Function.update_of_ne hk, hother, Function.update_of_ne (hv.ne_next hother)]

/-- A register that is captured for the first time becomes a new variable. -/
theorem capture_new (h : s.Sound) (hv : s.Simulates v) {slot : Nat} (hshared : v.shared slot = none)
    (hafter : s.after (.capture slot) =
      { scope := { s.scope with
          captured := Scope.insertCell slot ⟨s.store.cells.size⟩ s.scope.captured }
        store := (s.store.create (.open s.scope.id slot)).2
        given := ⟨s.store.cells.size⟩ :: s.given }) :
    (s.after (.capture slot)).Simulates (v.after (.capture slot)) := by
  have hcell : ∀ id : CellId, (s.after (.capture slot)).store.cell id =
      if id.index = s.store.cells.size then .open s.scope.id slot else s.store.cell id := by
    rw [hafter]
    exact fun id => Cells.cell_create _
  have hregister : ∀ k, (s.after (.capture slot)).register k = s.register k := by
    rw [hafter]
    exact fun k => rfl
  refine ⟨⟨?_, fun k => ?_, fun id hid => ?_, fun id k => ?_⟩, ?_⟩
  · rw [hafter]
    simp only [Variables.after, hshared, hv.given, hv.next]
  · rw [hregister, hv.register_captured hshared]
  · rw [hafter] at hid
    simp only [Variables.after, hshared, hv.next]
    rcases List.mem_cons.1 hid with rfl | hold
    · rw [Function.update_self, hv.own hshared, ← hregister]
      exact read_of_open ((hcell _).trans (if_pos rfl))
    · have hlt := h.made id hold
      have hne : id ≠ ⟨s.store.cells.size⟩ := by
        rintro rfl
        exact absurd hlt (lt_irrefl _)
      rw [Function.update_of_ne hne, ← hv.read id hold]
      simp only [read, Scope.read, (hcell id).trans (if_neg hlt.ne)]
      cases s.store.cell id with
      | closed value => rfl
      | «open» frame k => exact hregister k
  · rw [after_scope_id, hcell]
    simp only [Variables.after, hshared, hv.next]
    by_cases hnew : id = ⟨s.store.cells.size⟩
    · subst hnew
      rw [if_pos rfl]
      by_cases hk : k = slot
      · simp [hk]
      · have hfree : v.shared k ≠ some ⟨s.store.cells.size⟩ := fun hshares =>
          hv.ne_next hshares (by rw [hv.next])
        simp [Function.update_of_ne hk, hfree, Ne.symm hk]
    · rw [if_neg fun hindex => hnew (congrArg CellId.mk hindex), hv.shared]
      by_cases hk : k = slot
      · simp [hk, hshared, Ne.symm hnew]
      · rw [Function.update_of_ne hk]
  · rw [hafter]
    simp [Variables.after, hshared, hv.next, Cells.create]

theorem capture (h : s.Sound) (hv : s.Simulates v) (slot : Nat) :
    (s.after (.capture slot)).Simulates (v.after (.capture slot)) := by
  rcases h.tracks.capture_cases slot with ⟨id, hopen, heq⟩ | ⟨hnone, heq⟩
  · have hshared := (hv.shared id slot).1 hopen
    simp only [Session.after, heq, Variables.after, hshared]
    exact hv.capture_again hopen hshared
  · have hshared : v.shared slot = none := by
      cases hslot : v.shared slot with
      | none => rfl
      | some id => exact absurd ((hv.shared id slot).2 hslot) (hnone id)
    exact hv.capture_new h hshared (by simp only [Session.after, heq])

theorem close (h : s.Sound) (hv : s.Simulates v) (slot : Nat) :
    (s.close slot).Simulates (v.close slot) := by
  refine ⟨⟨hv.given, fun k => ?_, fun id hid => ?_, fun id k => ?_⟩, ?_⟩
  · refine (hv.register k).trans ?_
    simp only [Variables.register, Variables.close]
    by_cases hk : slot ≤ k <;> simp [hk]
  · have hcell := h.tracks.cell_closeFrom slot id
    refine Eq.trans ?_ (hv.read id hid)
    cases hid : s.store.cell id with
    | closed value =>
      rw [hid] at hcell
      rw [read_of_closed hid]
      exact read_of_closed hcell
    | «open» frame k =>
      rw [hid] at hcell
      dsimp only at hcell
      rw [read_of_open hid]
      by_cases hclosed : frame = s.scope.id ∧ slot ≤ k
      · rw [if_pos hclosed] at hcell
        exact read_of_closed hcell
      · rw [if_neg hclosed] at hcell
        exact read_of_open hcell
  · have hiff : (s.close slot).store.cell id = .open s.scope.id k ↔
        s.store.cell id = .open s.scope.id k ∧ ¬ (s.scope.id = s.scope.id ∧ slot ≤ k) :=
      h.tracks.open_closeFrom_iff
    refine hiff.trans ?_
    rw [hv.shared]
    by_cases hk : slot ≤ k <;> simp [Variables.close, hk]
  · exact hv.next.trans (s.scope.size_closeFrom s.store slot).symm

/-- Every variable is a register once at most. -/
theorem shared_injective (hv : s.Simulates v) {id : CellId} {slot k : Nat}
    (hslot : v.shared slot = some id) (hk : v.shared k = some id) : k = slot := by
  have hsame := ((hv.shared id k).2 hk).symm.trans ((hv.shared id slot).2 hslot)
  cases hsame
  rfl

/-- Storing a value in a variable that a register is. -/
theorem assign (h : s.Sound) (hv : s.Simulates v) {id : CellId} {slot : Nat} (value : Value)
    (hshared : v.shared slot = some id) :
    ({ s with scope := s.scope.setRegister slot value } : Session).Simulates
      { v with value := Function.update v.value id value } := by
  have hopen := (hv.shared id slot).2 hshared
  have hregister : ∀ k, (s.scope.setRegister slot value).register k =
      if slot = k then value else s.register k :=
    register_setRegister (h.bound id slot hopen) value
  refine ⟨⟨hv.given, fun k => ?_, fun other hother => ?_, hv.shared⟩, hv.next⟩
  · show (s.scope.setRegister slot value).register k =
      Variables.register { v with value := Function.update v.value id value } k
    rw [hregister]
    by_cases hk : slot = k
    · subst hk
      simp [Variables.register, hshared]
    · rw [if_neg hk, hv.register]
      unfold Variables.register
      cases hother : v.shared k with
      | none => rfl
      | some other =>
        have hne : other ≠ id := by
          rintro rfl
          exact hk (hv.shared_injective hother hshared)
        simp only [Function.update_of_ne hne]
  · show (s.scope.setRegister slot value).read s.store other =
      Function.update v.value id value other
    have hread := hv.read other hother
    by_cases hid : other = id
    · subst hid
      rw [Function.update_self]
      simp only [Scope.read, hopen, hregister, if_true]
    · rw [Function.update_of_ne hid, ← hread]
      cases hcell : s.store.cell other with
      | closed old => simp only [read, Scope.read, hcell]
      | «open» frame k =>
        obtain rfl := h.home other hother frame k hcell
        have hk : slot ≠ k := by
          rintro rfl
          exact hid (h.tracks.unique slot other id hcell hopen)
        simp only [read, Scope.read, hcell, hregister, if_neg hk]
        rfl

theorem setRegister (h : s.Sound) (hv : s.Simulates v) {slot : Nat} {value : Value}
    (hslot : slot < s.scope.registers.size) :
    (s.after (.setRegister slot value)).Simulates (v.after (.setRegister slot value)) := by
  cases hshared : v.shared slot with
  | some id =>
    simp only [Variables.after, hshared]
    exact hv.assign h value hshared
  | none =>
    have hregister := register_setRegister hslot value
    simp only [Variables.after, hshared]
    refine ⟨⟨hv.given, fun k => ?_, fun id hid => ?_, hv.shared⟩, hv.next⟩
    · show (s.scope.setRegister slot value).register k =
        Variables.register { v with own := Function.update v.own slot value } k
      rw [hregister]
      by_cases hk : slot = k
      · subst hk
        simp [Variables.register, hshared]
      · rw [if_neg hk]
        refine (hv.register k).trans ?_
        simp [Variables.register, Function.update_of_ne (Ne.symm hk)]
    · show (s.scope.setRegister slot value).read s.store id = v.value id
      rw [← hv.read id hid]
      cases hcell : s.store.cell id with
      | closed old => simp only [read, Scope.read, hcell]
      | «open» frame k =>
        obtain rfl := h.home id hid frame k hcell
        have hk : slot ≠ k := by
          rintro rfl
          rw [(hv.shared id slot).1 hcell] at hshared
          cases hshared
        simp only [read, Scope.read, hcell, hregister, if_neg hk]

theorem write (h : s.Sound) (hv : s.Simulates v) {id : CellId} {value : Value}
    (hid : id ∈ s.given) :
    (s.after (.write id value)).Simulates (v.after (.write id value)) := by
  cases hcell : s.store.cell id with
  | «open» frame slot =>
    obtain rfl := h.home id hid frame slot hcell
    simp only [Session.after, Scope.write, hcell, Variables.after]
    exact hv.assign h value ((hv.shared id slot).1 hcell)
  | closed old =>
    simp only [Session.after, Scope.write, hcell, Variables.after]
    refine ⟨⟨hv.given, fun k => ?_, fun other hother => ?_, fun other k => ?_⟩, ?_⟩
    · refine (hv.register k).trans ?_
      unfold Variables.register
      cases hk : v.shared k with
      | none => rfl
      | some other =>
        have hne : other ≠ id := by
          rintro rfl
          have hopen := (hv.shared other k).2 hk
          rw [hcell] at hopen
          cases hopen
        simp only [Function.update_of_ne hne]
    · show s.scope.read _ other = Function.update v.value id value other
      rw [Scope.read, Cells.cell_replace (h.made id hid)]
      by_cases heq : other = id
      · subst heq
        simp
      · rw [if_neg heq, Function.update_of_ne heq, ← hv.read other hother]
        rfl
    · exact (Cells.open_replace_closed_iff hcell value).trans (hv.shared other k)
    · exact hv.next.trans (Cells.size_replace _ _ _).symm

/-- A permitted operation reads as the operation on variables. -/
theorem after (h : s.Sound) (hv : s.Simulates v) {op : Operation} (hop : s.permits op) :
    (s.after op).Simulates (v.after op) := by
  cases op with
  | capture slot => exact hv.capture h slot
  | close slot => exact hv.close h slot
  | finish => exact hv.close h 0
  | setRegister slot value => exact hv.setRegister h (by simpa [permits] using hop)
  | write id value => exact hv.write h (by simpa [permits] using hop)

end Simulates

/-! ## Histories -/

theorem run_append (s : Session) (history later : List Operation) :
    s.run (history ++ later) = (s.run history).run later := by
  simp [run]

theorem allows_append (s : Session) (history later : List Operation) :
    s.allows (history ++ later) = (s.allows history && (s.run history).allows later) := by
  induction history generalizing s with
  | nil => simp [allows, run]
  | cons op history ih => simp [allows, ih, run, Bool.and_assoc]

theorem Sound.run (h : s.Sound) {history : List Operation} (hallowed : s.allows history) :
    (s.run history).Sound := by
  induction history generalizing s with
  | nil => exact h
  | cons op history ih =>
    obtain ⟨hop, hrest⟩ := Bool.and_eq_true_iff.1 hallowed
    exact ih (h.after hop) hrest

theorem Simulates.run (h : s.Sound) (hv : s.Simulates v) {history : List Operation}
    (hallowed : s.allows history) : (s.run history).Simulates (v.run history) := by
  induction history generalizing s v with
  | nil => exact hv
  | cons op history ih =>
    obtain ⟨hop, hrest⟩ := Bool.and_eq_true_iff.1 hallowed
    exact ih (h.after hop) (hv.after h hop) hrest

/-! ## The life of a variable -/

/-- Whether an operation takes a register out of scope. -/
def Operation.closes (slot : Nat) : Operation → Bool
  | .close first => first ≤ slot
  | .finish => true
  | _ => false

/-- The value that an operation stores through a handle, or in a register, if one is given. -/
def Operation.stored? (id : CellId) (slot? : Option Nat) : Operation → Option Value
  | .write written value => if written = id then some value else none
  | .setRegister slot value => if slot? = some slot then some value else none
  | _ => none

/-- The value that a history has stored last through a handle, or in a register, if one is given,
and `value` when there is none. -/
def latest (id : CellId) (slot? : Option Nat) (history : List Operation) (value : Value) : Value :=
  history.foldl (fun value op => (op.stored? id slot?).getD value) value

/-- A variable stays open on its register as long as that stays in scope. -/
theorem Sound.open_after_of (h : s.Sound) {op : Operation} (hop : s.permits op) {id : CellId}
    {slot : Nat} (hopen : s.store.cell id = .open s.scope.id slot)
    (hscope : op.closes slot = false) :
    (s.after op).store.cell id = .open s.scope.id slot ∧
      (s.after op).register slot = (op.stored? id (some slot)).getD (s.register slot) := by
  have hprecise := h.precise hop
  rw [hprecise.cell id (Cells.lt_of_open hopen), hprecise.register slot]
  cases op with
  | capture k => exact ⟨hopen, rfl⟩
  | close first =>
    have hlt : ¬ first ≤ slot := by simpa [Operation.closes] using hscope
    exact ⟨by simp [cellAfter, closedFrom, hopen, hlt], rfl⟩
  | finish => cases hscope
  | setRegister k value =>
    refine ⟨hopen, ?_⟩
    by_cases hk : slot = k <;> simp [registerAfter, Operation.stored?, hk, eq_comm]
  | write written value =>
    refine ⟨by simp [cellAfter, hopen, Cell.isOpen], ?_⟩
    have hwritten : s.store.cell written = .open s.scope.id slot ↔ written = id :=
      ⟨fun hw => h.tracks.unique slot written id hw hopen, fun hw => hw ▸ hopen⟩
    simp only [registerAfter, Operation.stored?, hwritten]
    split <;> rfl

/-- A register that goes out of scope leaves its value to its variable. -/
theorem Sound.closed_after (h : s.Sound) {op : Operation} {id : CellId} {slot : Nat}
    (hopen : s.store.cell id = .open s.scope.id slot) (hcloses : op.closes slot) :
    (s.after op).store.cell id = .closed (s.register slot) := by
  have hcell := fun first => h.tracks.cell_closeFrom first id
  simp only [hopen, true_and] at hcell
  cases op with
  | close first => exact (hcell first).trans (if_pos (by simpa [Operation.closes] using hcloses))
  | finish => exact (hcell 0).trans (if_pos (Nat.zero_le slot))
  | _ => cases hcloses

/-- A variable that is on its own changes by what is stored through its handle. -/
theorem Sound.closed_after_of (h : s.Sound) {op : Operation} (hop : s.permits op) {id : CellId}
    (hid : id.index < s.store.cells.size) {value : Value}
    (hclosed : s.store.cell id = .closed value) :
    (s.after op).store.cell id = .closed ((op.stored? id none).getD value) := by
  rw [(h.precise hop).cell id hid]
  cases op with
  | write written value' =>
    by_cases hw : written = id <;> simp [cellAfter, Operation.stored?, hw, hclosed, Cell.isOpen]
  | close first => simp [cellAfter, closedFrom, Operation.stored?, hclosed]
  | finish => simp [cellAfter, closedFrom, Operation.stored?, hclosed]
  | capture k => exact hclosed
  | setRegister k value' => exact hclosed

/-- While its register is in scope, a variable is that register, and holds what was stored last in
either. -/
theorem Sound.open_run (h : s.Sound) {history : List Operation} (hallowed : s.allows history)
    {id : CellId} {slot : Nat} (hopen : s.store.cell id = .open s.scope.id slot)
    (hscope : ∀ op ∈ history, op.closes slot = false) :
    (s.run history).store.cell id = .open s.scope.id slot ∧
      (s.run history).register slot = latest id (some slot) history (s.register slot) := by
  induction history generalizing s with
  | nil => exact ⟨hopen, rfl⟩
  | cons op history ih =>
    obtain ⟨hop, hrest⟩ := Bool.and_eq_true_iff.1 hallowed
    obtain ⟨hcell, hregister⟩ := h.open_after_of hop hopen (hscope op (by simp))
    rw [← after_scope_id s op] at hcell
    have hlater := ih (h.after hop) hrest hcell fun op' hop' => hscope op' (by simp [hop'])
    rw [after_scope_id, hregister] at hlater
    exact hlater

/-- Once its register has gone out of scope, a variable holds what was stored last through its
handle. -/
theorem Sound.closed_run (h : s.Sound) {history : List Operation} (hallowed : s.allows history)
    {id : CellId} (hid : id.index < s.store.cells.size) {value : Value}
    (hclosed : s.store.cell id = .closed value) :
    (s.run history).store.cell id = .closed (latest id none history value) := by
  induction history generalizing s value with
  | nil => exact hclosed
  | cons op history ih =>
    obtain ⟨hop, hrest⟩ := Bool.and_eq_true_iff.1 hallowed
    exact ih (h.after hop) hrest (lt_of_lt_of_le hid (evolves_after s op).size_le)
      (h.closed_after_of hop hid hclosed)

theorem run_scope_id (s : Session) (history : List Operation) :
    (s.run history).scope.id = s.scope.id := by
  induction history generalizing s with
  | nil => rfl
  | cons op history ih => exact (ih (s.after op)).trans (after_scope_id s op)

theorem evolves_run (s : Session) (history : List Operation) :
    s.store.Evolves (s.run history).store := by
  induction history generalizing s with
  | nil => exact .refl _
  | cons op history ih => exact (evolves_after s op).trans (ih (s.after op))

/-- A variable is not open any more once its register has gone out of scope. -/
theorem Sound.not_open_run (h : s.Sound) {history : List Operation} (hallowed : s.allows history)
    {id : CellId} {slot : Nat} (hopen : s.store.cell id = .open s.scope.id slot) {op : Operation}
    (hop : op ∈ history) (hcloses : op.closes slot) :
    ((s.run history).store.cell id).isOpen = false := by
  obtain ⟨before, rest, rfl⟩ := List.append_of_mem hop
  have hlt := lt_of_lt_of_le (Cells.lt_of_open hopen) (evolves_run s before).size_le
  rw [allows_append, Bool.and_eq_true] at hallowed
  have hbefore := h.run hallowed.1
  rw [run_append]
  refine (evolves_run ((s.run before).after op) rest).not_open
    (lt_of_lt_of_le hlt (evolves_after _ op).size_le) ?_
  cases hcell : (s.run before).store.cell id with
  | closed value => exact (evolves_after _ op).not_open hlt (by rw [hcell]; rfl)
  | «open» frame k =>
    have hsame := (evolves_run s before).eq_of_open (Cells.lt_of_open hopen) hcell
    rw [hopen] at hsame
    cases hsame
    rw [hbefore.closed_after (by rw [hcell, run_scope_id]) hcloses]
    rfl

/-- A capture gives out a handle again exactly as long as its variable is open on the register. -/
theorem Sound.handle_eq_iff (h : s.Sound) {id : CellId} (hid : id.index < s.store.cells.size)
    {slot : Nat} : s.handle slot = id ↔ s.store.cell id = .open s.scope.id slot := by
  constructor
  · rintro rfl
    exact (s.scope.cell_capture_of_lt slot hid).symm.trans (h.tracks.cell_capture slot)
  · intro hopen
    have hafter := (h.tracks.open_capture_iff slot).2 (.inr hopen)
    exact (h.tracks.capture slot).unique slot _ id
      ((h.tracks.cell_capture slot).trans (by rw [Scope.capture_id]))
      (hafter.trans (by rw [Scope.capture_id]))

/-- What becomes of the variable that the capture of a register gives a handle to: `opened` is the
session before the capture, and `later` is what happens after it. -/
structure Life (opened : Session) (slot : Nat) (later : List Operation) : Prop where
  /-- A register that is captured again gives the same handle as long as it has stayed in scope,
  and every other capture gives another one. -/
  again : ∀ k, ((opened.after (.capture slot)).run later).handle k = opened.handle slot ↔
    k = slot ∧ ∀ op ∈ later, op.closes slot = false
  /-- While the register stays in scope the variable is open on it, and both read as what was
  stored last in either. -/
  in_scope : (∀ op ∈ later, op.closes slot = false) →
    let now := (opened.after (.capture slot)).run later
    now.store.cell (opened.handle slot) = .open now.scope.id slot ∧
      now.read (opened.handle slot) = now.register slot ∧
      now.register slot =
        latest (opened.handle slot) (some slot) later (opened.register slot)
  /-- From the moment the register goes out of scope the variable is closed: it has taken the
  register's value of that moment, and reads as what was stored last through its handle. -/
  out_of_scope : ∀ during op rest, later = during ++ op :: rest →
    (∀ op ∈ during, op.closes slot = false) → op.closes slot →
    let atEnd := (opened.after (.capture slot)).run during
    let now := (opened.after (.capture slot)).run later
    now.store.cell (opened.handle slot) =
        .closed (latest (opened.handle slot) none rest (atEnd.register slot)) ∧
      now.read (opened.handle slot) =
        latest (opened.handle slot) none rest (atEnd.register slot)

theorem Sound.life {opened : Session} (h : opened.Sound) {slot : Nat} {later : List Operation}
    (hslot : opened.permits (.capture slot))
    (hallowed : (opened.after (.capture slot)).allows later) :
    opened.Life slot later := by
  have hafter := h.after hslot
  have hnow := hafter.run hallowed
  have hopen : (opened.after (.capture slot)).store.cell (opened.handle slot) =
      .open (opened.after (.capture slot)).scope.id slot :=
    (h.tracks.cell_capture slot).trans (by rw [after_scope_id])
  have hregister : (opened.after (.capture slot)).register slot = opened.register slot :=
    (h.precise hslot).register slot
  have hlt := lt_of_lt_of_le (Cells.lt_of_open hopen) (evolves_run _ later).size_le
  refine ⟨fun k => ?_, fun hscope => ?_, ?_⟩
  · rw [hnow.handle_eq_iff hlt]
    by_cases hscope : ∀ op ∈ later, op.closes slot = false
    · rw [(hafter.open_run hallowed hopen hscope).1, run_scope_id]
      simp only [Cell.open.injEq, true_and]
      exact ⟨fun hk => ⟨hk.symm, hscope⟩, fun hk => hk.1.symm⟩
    · obtain ⟨op, hop, hcloses⟩ : ∃ op ∈ later, op.closes slot = true := by
        simpa using hscope
      have hclosed := hafter.not_open_run hallowed hopen hop hcloses
      refine ⟨fun hagain => ?_, fun hboth => absurd hboth.2 hscope⟩
      rw [hagain] at hclosed
      cases hclosed
  · obtain ⟨hcell, hlatest⟩ := hafter.open_run hallowed hopen hscope
    rw [hregister] at hlatest
    rw [← run_scope_id _ later] at hcell
    exact ⟨hcell, read_of_open hcell, hlatest⟩
  · rintro during op rest rfl hscope hcloses
    rw [allows_append, Bool.and_eq_true] at hallowed
    obtain ⟨hduring, hclosing⟩ := hallowed
    obtain ⟨-, hrest⟩ := Bool.and_eq_true_iff.1 hclosing
    have hend := hafter.run hduring
    obtain ⟨hcell, -⟩ := hafter.open_run hduring hopen hscope
    rw [← run_scope_id _ during] at hcell
    have hclosed := (hend.after (Bool.and_eq_true_iff.1 hclosing).1).closed_run hrest
      (lt_of_lt_of_le (Cells.lt_of_open hcell) (evolves_after _ op).size_le)
      (hend.closed_after hcell hcloses)
    rw [run_append]
    exact ⟨hclosed, read_of_closed hclosed⟩

/-- Captured variables are shared cells.  Whatever is done to a scope, its registers and handles
read as registers and variables; no operation touches a register or cell that it does not name,
and closing touches exactly the cells that are open from its slot on; and the variable of every
capture is one with its register until that goes out of scope, and on its own ever after. -/
theorem shared_variables {s : Session} (hfresh : s.Fresh) {history : List Operation}
    (hallowed : s.allows history) :
    (s.run history).ReadsAs ((Variables.ofSession s).run history) ∧
      (∀ op, (s.run history).permits op → (s.run history).Precise op) ∧
      ∀ before slot later, history = before ++ .capture slot :: later →
        (s.run before).Life slot later := by
  refine ⟨(hfresh.simulates.run hfresh.sound hallowed).toReadsAs, fun op hop => ?_, ?_⟩
  · exact (hfresh.sound.run hallowed).precise hop
  · rintro before slot later rfl
    rw [allows_append, Bool.and_eq_true] at hallowed
    obtain ⟨hslot, hlater⟩ := Bool.and_eq_true_iff.1 hallowed.2
    exact (hfresh.sound.run hallowed.1).life hslot hlater

/-- A register that is captured again after it went out of scope has a new variable, and the one
before keeps what was stored in it. -/
theorem shared_variables_recaptured :
    let s : Session := { scope := { id := ⟨0⟩, registers := #[.nil, .nil] }, store := {} }
    let reused := [.write ⟨0⟩ (.boolean true), .close 1, .setRegister 1 (.boolean false)]
    s.allows (.capture 1 :: reused) ∧
      (s.run (.capture 1 :: reused)).read ⟨0⟩ = .boolean true ∧
      (s.run (.capture 1 :: reused)).handle 1 ≠ ⟨0⟩ := by
  intro s reused
  have hfresh : s.Fresh :=
    ⟨rfl, fun id slot hopen => absurd (Cells.lt_of_open hopen) (Nat.not_lt_zero _), rfl⟩
  have hallowed : s.allows (.capture 1 :: reused) := by decide
  have hlife := (shared_variables hfresh hallowed).2.2 [] 1 reused rfl
  refine ⟨hallowed, ?_, fun hsame => ?_⟩
  · have hclosed := hlife.out_of_scope [.write ⟨0⟩ (.boolean true)] (.close 1) _ rfl
    exact (hclosed (by decide) (by decide)).2
  · exact absurd ((hlife.again 1).1 hsame).2 (by decide)

end Session

end ScriptMachine
