import ScriptMachine.Proofs.Calls.Isolation
import ScriptMachine.Proofs.Flow.Counters
import ScriptMachine.Proofs.Table.FiniteMap

/-!
# Open counts of values

An instruction with an open count leaves as many values as there are, and marks the last one as the
top of its frame; the next instruction with an open count takes the registers up to there.  Nothing
is lost or added on the way, whatever the count: the only failure is that of a register file that
cannot grow far enough.
-/

namespace ScriptMachine

/-! ## Values under consecutive integers -/

namespace Table

variable {t : Table} {first : Nat} {values : List Value} {key : Value}

/-- The operations that store values under consecutive integers. -/
def listing (first : Nat) : List Value → List Operation
  | [] => []
  | value :: values => .set (.ofNat first) value :: listing (first + 1) values

theorem isKey_ofNat (n : Nat) : isKey (.ofNat n) = true := by
  have hnan : (Number.ofNat n).isNaN ≠ true := fun h =>
    Number.parts_ofNat_ne_nan n (Float.Model.UnpackedFloat.isNaN_iff.1 h)
  simpa [isKey, Value.ofNat] using hnan

/-- Integers that are exact numbers are different keys. -/
theorem rawEq_ofNat {a b : Nat} (ha : a ≤ 2 ^ 53) (hb : b ≤ 2 ^ 53) :
    (Value.ofNat a).rawEq (.ofNat b) = decide (a = b) := by
  have hx := Number.integer?_ofNat ha
  have hy := Number.integer?_ofNat hb
  have hzero : ∀ {n : Nat}, (∃ s, Number.parts (Number.ofNat n) = .zero s) →
      Number.integer? (Number.ofNat n) = some (n : Int) → n = 0 := by
    rintro n ⟨s, hs⟩ hn
    rw [Number.integer?, hs] at hn
    simpa using hn.symm
  rw [Bool.eq_iff_iff, decide_eq_true_iff]
  show (Number.ofNat a == Number.ofNat b) = true ↔ _
  constructor
  · intro heq
    obtain ⟨-, h | ⟨hx0, hy0⟩⟩ := (Number.beq_unpacked_iff _ _).1 heq
    · rw [Number.parts_injective h, hy] at hx
      cases hx
      rfl
    · rw [hzero hx0 hx, hzero hy0 hy]
  · rintro rfl
    exact (Number.beq_unpacked_iff _ _).2 ⟨Number.parts_ofNat_ne_nan _, .inl rfl⟩

theorem stored?_set_ofNat (n : Nat) (value : Value) :
    (Operation.set (.ofNat n) value).stored? = some (.ofNat n, value) := by
  simp [Operation.stored?, isKey_ofNat]

/-- A key that is none of the integers keeps its value. -/
theorem WellFormed.get_listing_of_ne (ht : t.WellFormed)
    (hkey : ∀ j < values.length, (Value.ofNat (first + j)).rawEq key = false) :
    (t.run (listing first values)).get key = t.get key := by
  induction values generalizing t first with
  | nil => rfl
  | cons value values ih =>
    show ((t.after (.set (.ofNat first) value)).run (listing (first + 1) values)).get key = _
    rw [ih (ht.after _) fun j hj => ?_, ht.get_after, stored?_set_ofNat]
    · dsimp only
      rw [if_neg]
      simpa using hkey 0 (Nat.succ_pos _)
    · have hlater := hkey (j + 1) (Nat.succ_lt_succ hj)
      rwa [show first + (j + 1) = first + 1 + j by omega] at hlater

/-- The integers get the values. -/
theorem WellFormed.get_listing (ht : t.WellFormed) (hexact : first + values.length ≤ 2 ^ 53)
    {j : Nat} (hj : j < values.length) :
    (t.run (listing first values)).get (.ofNat (first + j)) = values[j] := by
  induction values generalizing t first j with
  | nil => cases hj
  | cons value values ih =>
    rw [List.length_cons] at hexact
    show ((t.after (.set (.ofNat first) value)).run (listing (first + 1) values)).get _ = _
    cases j with
    | zero =>
      rw [(ht.after _).get_listing_of_ne fun j hj => ?_, ht.get_after, stored?_set_ofNat]
      · dsimp only
        rw [if_pos (by rw [rawEq_ofNat] <;> simp <;> omega)]
        rfl
      · rw [rawEq_ofNat (by omega) (by omega)]
        simp
        omega
    | succ j =>
      rw [show first + (j + 1) = first + 1 + j by omega]
      exact ih (ht.after _) (by omega) (Nat.lt_of_succ_lt_succ hj)

/-- A table has got values under consecutive integers, and is else as it was. -/
structure Lists (t : Table) (first : Nat) (values : List Value) (t' : Table) : Prop where
  /-- The values have been stored one after the other, and nothing else. -/
  made : t' = t.run (listing first values)
  /-- Integers that are exact numbers have the values. -/
  listed : first + values.length ≤ 2 ^ 53 →
    ∀ j (hj : j < values.length), t'.get (.ofNat (first + j)) = values[j]
  /-- The other keys have the values that they had. -/
  others : ∀ key, (∀ j < values.length, (Value.ofNat (first + j)).rawEq key = false) →
    t'.get key = t.get key

theorem WellFormed.lists (ht : t.WellFormed) (first : Nat) (values : List Value) :
    t.Lists first values (t.run (listing first values)) :=
  ⟨rfl, fun hexact _ hj => ht.get_listing hexact hj, fun _ hkey => ht.get_listing_of_ne hkey⟩

end Table

namespace Heap

variable {heap : Heap} {t : TableId} {key : Value}

/-- A value is set at a key that can be one: only that table changes. -/
theorem set_of_key (h : Table.isKey key = true) (heap : Heap) (t : TableId) (value : Value) :
    ∃ heap', heap.set t key value = .ok heap' ∧ heap'.tables.size = heap.tables.size ∧
      (∀ other, other ≠ t → heap'.table other = heap.table other) ∧
      (t.index < heap.tables.size → heap'.table t = (heap.table t).after (.set key value)) := by
  unfold set
  cases hcontent : heap.tables[t.index]? with
  | none =>
    refine ⟨heap, rfl, rfl, fun _ _ => rfl, fun hlt => ?_⟩
    rw [Array.getElem?_eq_none_iff] at hcontent
    omega
  | some content =>
    obtain ⟨hlt, -⟩ := Array.getElem?_eq_some_iff.1 hcontent
    have hset := Table.set_of_key h (t := content) value
    dsimp only
    rw [hset]
    refine ⟨_, rfl, by simp [replace], fun other hother => ?_, fun _ => ?_⟩
    · have hne : t.index ≠ other.index := fun heq => hother (congrArg TableId.mk heq.symm)
      simp [table, replace, Array.getD_eq_getD_getElem?, hne]
    · have htable : heap.table t = content := by
        rw [table, Array.getD_eq_getD_getElem?, hcontent, Option.getD_some]
      rw [htable, Table.after, Table.Operation.apply, hset]
      simp [table, replace, Array.getD_eq_getD_getElem?, hlt]

end Heap

/-! ## Registers up to the top -/

namespace Frame

variable {f g : Frame} {base first : Nat} {values : List Value}

/-- A register file grows just as far as it has to. -/
theorem size_ensure? {size limit : Nat} (h : f.ensure? size limit = some g) :
    g.registers.size = max f.registers.size size := by
  unfold ensure? at h
  split at h
  · cases h
    omega
  · split at h
    · cases h
    · cases h
      simp only [Array.size_append, Array.size_replicate]
      omega

theorem slice_add (f : Frame) (first a b : Nat) :
    f.slice first (a + b) = f.slice first a ++ f.slice (first + a) b := by
  simp [slice, List.range_add, Function.comp_def, Nat.add_assoc]

theorem putAll_eq (f : Frame) (first : Nat) (values : List Value) :
    f.putAll first values = { f with registers := (f.putAll first values).registers } := by
  induction values generalizing f first with
  | nil => rfl
  | cons value values ih => exact ih (f.put first value) (first + 1)

/-- A frame holds values from a register on, the last one at its top. -/
structure Open (f : Frame) (base : Nat) (values : List Value) : Prop where
  /-- The top is the last one. -/
  top : f.top = (base : Int) + values.length - 1
  /-- There are registers for them. -/
  room : base + values.length ≤ f.registers.size
  /-- They are in these registers. -/
  window : f.slice base values.length = values

/-- A frame has taken values from a register on, the last one at its top, and is else as before. -/
structure Opens (f : Frame) (base : Nat) (values : List Value) (g : Frame) : Prop
    extends g.Open base values where
  /-- Only registers and the top differ. -/
  frame : g = { f with registers := g.registers, top := g.top }
  /-- The register file has grown as far as it had to. -/
  size : g.registers.size = max f.registers.size (base + values.length)
  /-- The other registers hold what they held; new ones hold nil. -/
  register : ∀ slot, slot < base ∨ base + values.length ≤ slot → g.register slot = f.register slot

/-- All that an instruction with an open count finds from a register on, which can be one below. -/
theorem Open.slice (h : g.Open base values) (hfirst : first ≤ base) :
    g.slice first (base + values.length - first) = g.slice first (base - first) ++ values := by
  rw [show base + values.length - first = base - first + values.length by omega, slice_add,
    Nat.add_sub_cancel' hfirst, h.window]

/-- An open count can be zero. -/
theorem Open.slice_eq_nil (h : g.Open base values) (hfirst : first ≤ base)
    (hcount : base + values.length - first = 0) :
    g.slice first (base - first) ++ values = [] := by
  rw [← h.slice hfirst, hcount]
  rfl

theorem Opens.slice_below (h : f.Opens base values g) (hfirst : first ≤ base) :
    g.slice first (base - first) = f.slice first (base - first) := by
  refine List.map_congr_left fun k hk => h.register _ (.inl ?_)
  have := List.mem_range.1 hk
  omega

end Frame

namespace Effect

variable {s u : Running} {i : Instruction} {base first : Nat} {values : List Value}

/-! ### Storing all results -/

/-- When there is room for all results, they are stored. -/
theorem storeResults_opens
    (hroom : base + values.length ≤ max s.frame.registers.size s.vm.settings.maxRegisters) :
    ∃ g, storeResults base 0 values s = .ok () { s with frame := g } ∧
      s.frame.Opens base values g := by
  have hsome := s.frame.ensure?_isSome (base + values.length) s.vm.settings.maxRegisters
  rw [show (_ || _) = true by simpa using le_max_iff.1 hroom, Option.isSome_iff_exists] at hsome
  obtain ⟨roomy, hroomy⟩ := hsome
  obtain ⟨hframe, hfits, hregister⟩ := Frame.ensure?_spec hroomy
  refine ⟨{ roomy.putAll base values with top := (base : Int) + values.length - 1 }, ?_,
    ⟨rfl, hfits.trans_eq Frame.size_putAll.symm, Frame.slice_putAll hfits⟩, ?_, ?_, ?_⟩
  · unfold storeResults
    rw [if_pos rfl, bind_of_ok (by rw [ensure_eq, hroomy])]
    rfl
  · rw [roomy.putAll_eq, hframe]
  · exact Frame.size_putAll.trans (Frame.size_ensure? hroomy)
  · rintro slot (hbelow | habove)
    · exact (Frame.register_putAll_of_lt hbelow).trans (hregister slot)
    · exact (Frame.register_putAll_of_le habove).trans (hregister slot)

/-- When there is not, that is a stack overflow. -/
theorem storeResults_overflows
    (hroom : max s.frame.registers.size s.vm.settings.maxRegisters < base + values.length) :
    storeResults base 0 values s = .error (.fault .stackOverflow) s := by
  obtain ⟨hsize, hlimit⟩ := max_lt_iff.1 hroom
  unfold storeResults
  rw [if_pos rfl]
  refine bind_of_error ?_
  rw [ensure_eq, Frame.ensure?, if_neg hsize.not_ge, if_pos hlimit]

/-! ### Taking all values up to the top -/

section Open

variable (h : s.frame.Open base values)

include h

theorem countFrom_open (hfirst : first ≤ base) :
    countFrom first 0 s = .ok (base + values.length - first) s := by
  unfold countFrom
  rw [if_pos rfl, h.top]
  congr 1
  omega

theorem values_open (hfirst : first ≤ base) :
    Effect.values first (base + values.length - first) s =
      .ok (s.frame.slice first (base - first) ++ values) s := by
  have hroom : first + (base + values.length - first) ≤ s.frame.registers.size := by
    have := h.room
    omega
  have hensure : ensure (first + (base + values.length - first)) s = .ok () s := by
    rw [ensure_eq, Frame.ensure?, if_pos hroom]
  unfold Effect.values
  refine (bind_of_ok hensure).trans ?_
  rw [h.slice hfirst]

/-- Once its hook has passed, a return with an open count gives all values up to the top. -/
theorem ret_open (hfirst : i.operands.a ≤ base) (hopen : i.operands.b = 0) :
    ret i s = (interrupt .ret >>= fun _ => pure (Outcome.leave
      (s.frame.slice i.operands.a (base - i.operands.a) ++ values))) s := by
  unfold ret
  cases hhook : interrupt .ret s with
  | error failure t => rw [bind_of_error hhook, bind_of_error hhook]
  | ok _ t =>
    have hframe : t.frame = s.frame := ((aside_interrupt _).ends s _ _ hhook).frame
    rw [← hframe] at h
    rw [bind_of_ok hhook, bind_of_ok hhook, hopen, bind_of_ok (countFrom_open h hfirst), ← hframe]
    by_cases hcount : base + values.length - i.operands.a = 0
    · rw [if_pos hcount, h.slice_eq_nil hfirst hcount]
    · rw [if_neg hcount]
      exact bind_of_ok (values_open h hfirst)

/-- Once its hook has passed, a call with an open count passes all values up to the top. -/
theorem call_open (hfirst : i.operands.a + 1 ≤ base) (hopen : i.operands.b = 0) :
    call i s = (interrupt .call >>= fun _ => pure (Outcome.call (s.frame.register i.operands.a)
      (s.frame.slice (i.operands.a + 1) (base - (i.operands.a + 1)) ++ values)
      (.results i.operands.a i.operands.c))) s := by
  unfold call
  cases hhook : interrupt .call s with
  | error failure t => rw [bind_of_error hhook, bind_of_error hhook]
  | ok _ t =>
    have hframe : t.frame = s.frame := ((aside_interrupt _).ends s _ _ hhook).frame
    rw [← hframe] at h
    rw [bind_of_ok hhook, bind_of_ok hhook, hopen, bind_of_ok (countFrom_open h hfirst),
      bind_of_ok (values_open h hfirst), ← hframe]
    rfl

end Open

/-- Values are stored in a table under consecutive integers, without a failure. -/
theorem setItems_eq (t : TableId) (first : Nat) (values : List Value) (s : Running) :
    ∃ heap, setItems t first values s = .ok () { s with world := { s.world with heap } } ∧
      heap.tables.size = s.world.heap.tables.size ∧
      (∀ other, other ≠ t → heap.table other = s.world.heap.table other) ∧
      (t.index < s.world.heap.tables.size →
        heap.table t = (s.world.heap.table t).run (Table.listing first values)) := by
  induction values generalizing s first with
  | nil => exact ⟨s.world.heap, rfl, rfl, fun _ _ => rfl, fun _ => rfl⟩
  | cons value values ih =>
    obtain ⟨heap, hset, hsize, hother, hcontent⟩ :=
      Heap.set_of_key (Table.isKey_ofNat first) s.world.heap t value
    obtain ⟨heap', hitems, hsize', hother', hcontent'⟩ :=
      ih (first + 1) { s with world := { s.world with heap } }
    have hkey : setKey t (.ofNat first) value s =
        .ok () { s with world := { s.world with heap } } := by
      unfold setKey
      rw [hset]
    refine ⟨heap', (bind_of_ok hkey).trans hitems, hsize'.trans hsize,
      fun other hne => (hother' other hne).trans (hother other hne), fun hlt => ?_⟩
    rw [hcontent' (hsize.symm ▸ hlt)]
    show (heap.table t).run _ = _
    rw [hcontent hlt]
    rfl

/-- A list with an open count takes all values up to the top. -/
theorem setList_open (h : s.frame.Open base values) (hfirst : i.operands.b ≤ base)
    (hopen : i.operands.c = 0) {t : TableId} (ht : s.frame.register i.operands.a = .table t) :
    setList i s = (setItems t i.aux.toNat
      (s.frame.slice i.operands.b (base - i.operands.b) ++ values) >>= fun _ => jump 1) s := by
  unfold setList
  simp only [register_bind, ht]
  rw [hopen, bind_of_ok (countFrom_open h hfirst)]
  by_cases hcount : base + values.length - i.operands.b = 0
  · rw [if_pos hcount, h.slice_eq_nil hfirst hcount]
    rfl
  · rw [if_neg hcount, bind_of_ok (values_open h hfirst)]

/-! ### Method calls that the host takes -/

/-- Offers a method call to the host, up to its results: the call that follows, which is passed
over, and what it gives. -/
def takenCall? (method : Value) : Effect (Option (Instruction × List Value)) := do
  let settings ← settings
  match settings.namecallHandler, ← offeredCall? with
  | some handler, some callInst =>
    if settings.namecallReinvokesHooks then callHooks
    let base := callInst.operands.a
    let args ← Effect.values (base + 1) (← countFrom (base + 1) callInst.operands.b)
    match ← perform (handler method.toText args) with
    | none => return none
    | some results =>
      if !settings.namecallReinvokesHooks then callHooks
      modifyFrame fun f => { f with current := f.pc, pc := f.pc + 1 }
      return some (callInst, results)
  | _, _ => return none

/-- A method call that the host takes stores its results where the call that follows would. -/
theorem offerNamecall_eq (method : Value) : offerNamecall method = do
    match ← takenCall? method with
    | some (callInst, results) =>
      storeResults callInst.operands.a callInst.operands.c results
      return true
    | none => return false := by
  unfold offerNamecall takenCall?
  simp only [bind_assoc]
  refine bind_congr fun settings => bind_congr fun offered => ?_
  cases settings.namecallHandler with
  | none => simp
  | some handler =>
    cases offered with
    | none => simp
    | some callInst =>
      cases settings.namecallReinvokesHooks
      · simp only [Bool.false_eq_true, if_false, Bool.not_false, if_true, bind_assoc]
        refine bind_congr fun count => bind_congr fun args => bind_congr fun results? => ?_
        cases results? with
        | none => simp
        | some results => simp
      · simp only [Bool.not_true, Bool.false_eq_true, if_false, if_true, bind_assoc]
        refine bind_congr fun _ => bind_congr fun count => bind_congr fun args =>
          bind_congr fun results? => ?_
        cases results? with
        | none => simp
        | some results => simp

theorem bind_of_eq {α β : Type} {x y : Effect α} (h : x s = y u) (f : α → Effect β) :
    (x >>= f) s = (y >>= f) u := by
  show EStateM.bind x f s = EStateM.bind y f u
  unfold EStateM.bind
  rw [h]

/-- Such a method look-up does nothing else. -/
theorem namecall_of_taken {call : Instruction}
    (h : takenCall? i.constant.value (lookedUp i s) = .ok (some (call, values)) u) :
    namecall i s = storeResults call.operands.a call.operands.c values u := by
  unfold namecall
  rw [register_bind, put_bind, jump_bind, offerNamecall_eq, bind_assoc]
  refine (bind_of_ok h).trans ?_
  simp

end Effect

/-! ## Steps -/

namespace Machine

variable {m : Machine} {s u : Running} {i : Instruction} {base first : Nat} {values : List Value}

/-- The next step stores values from a register on, with an open count.  They are all that is still
to be done on a state. -/
inductive Produces (m : Machine) (base : Nat) (values : List Value) : Running → Prop where
  /-- A call gives its results. -/
  | call {f : Frame} {rest : Stack} (waits : m.stack = .frame f (.results base 0) :: rest)
    (gives : m.control = .give values) : Produces m base values ⟨m.world, f, rest⟩
  /-- The host takes a method call, and gives its results. -/
  | namecall {i call : Instruction} {s u : Running} (next : m.executing? = some (i, s))
    (operation : i.operation = .namecall)
    (taken : Effect.takenCall? i.constant.value (Effect.lookedUp i s) = .ok (some (call, values)) u)
    (first : call.operands.a = base) (opens : call.operands.c = 0) : Produces m base values u
  /-- The extra arguments of a frame are taken. -/
  | varargs {i : Instruction} {s : Running} (next : m.executing? = some (i, s))
    (operation : i.operation = .getVarargs) (first : i.operands.a = base)
    (opens : i.operands.b = 0) (extra : s.frame.varargs = values) : Produces m base values s

theorem Produces.acting (h : m.Produces base values s) :
    m.acting? = some ((Effect.storeResults base 0 values >>= fun _ => pure Outcome.next) s) := by
  cases h with
  | call waits gives =>
    obtain ⟨w, stack, control⟩ := m
    cases waits
    cases gives
    rfl
  | namecall next operation taken first opens =>
    rw [acting_of_executing next, operation]
    rw [← first, ← opens]
    exact congrArg some (Effect.bind_of_eq (Effect.namecall_of_taken taken) _)
  | varargs next operation first opens extra =>
    rw [acting_of_executing next, operation]
    rw [← first, ← opens, ← extra]
    rfl

/-- What an instruction with an open count takes is a list of values, whatever it does with them. -/
structure Takes (m : Machine) (i : Instruction) (u : Running) (first : Nat) (values : List Value) :
    Prop where
  /-- A return gives them, once its hook has passed. -/
  ret : i.operation = .ret → i.operands.a = first → i.operands.b = 0 →
    m.acting? = some ((Effect.interrupt .ret >>= fun _ => pure (.leave values)) u)
  /-- A call passes them as arguments, once its hook has passed. -/
  call : i.operation = .call → i.operands.a + 1 = first → i.operands.b = 0 →
    m.acting? = some ((Effect.interrupt .call >>= fun _ =>
      pure (.call (u.frame.register i.operands.a) values (.results i.operands.a i.operands.c))) u)
  /-- A list stores them in its table. -/
  setList : i.operation = .setList → i.operands.b = first → i.operands.c = 0 →
    ∀ t, u.frame.register i.operands.a = .table t → ∃ heap,
      m.acting? = some (.ok .next
        { u with world := { u.world with heap }, frame := u.frame.jump 1 }) ∧
      (∀ other, other ≠ t → heap.table other = u.world.heap.table other) ∧
      ∀ history, t.index < u.world.heap.tables.size →
        u.world.heap.table t = Table.empty.run history →
        (u.world.heap.table t).Lists i.aux.toNat values (heap.table t)

theorem takes_of_open (hi : m.executing? = some (i, u)) (h : u.frame.Open base values)
    (hfirst : first ≤ base) :
    m.Takes i u first (u.frame.slice first (base - first) ++ values) := by
  have hacting := acting_of_executing hi
  refine ⟨?ret, ?call, ?setList⟩
  case ret =>
    rintro hoperation rfl hopen
    rw [hacting, hoperation]
    exact congrArg some (Effect.ret_open h hfirst hopen)
  case call =>
    rintro hoperation rfl hopen
    rw [hacting, hoperation]
    exact congrArg some (Effect.call_open h hfirst hopen)
  case setList =>
    rintro hoperation rfl hopen t ht
    obtain ⟨heap, hitems, -, hother, hcontent⟩ := Effect.setItems_eq t i.aux.toNat
      (u.frame.slice i.operands.b (base - i.operands.b) ++ values) u
    have hlist := (Effect.setList_open h hfirst hopen ht).trans (Effect.bind_of_ok hitems)
    refine ⟨heap, ?_, hother, fun history hlt hmade => ?_⟩
    · rw [hacting, hoperation]
      show some ((Effect.setList i >>= fun _ => pure Outcome.next) u) = _
      exact congrArg some (Effect.bind_of_ok hlist)
    · rw [hcontent hlt, hmade]
      exact (Table.wellFormed_empty.run history).lists _ _

/-- A call whose frame goes on later has given results, which the frame then takes. -/
theorem produces_of_call {f g : Frame} {k : Nat} (hm : m.Reached)
    (hi : m.dispatching? = some (f, i)) (hcall : i.operation = .call) (hopen : i.operands.c = 0)
    (hg : (step^[k + 1] m).control = .run g) (hid : g.id = f.id) :
    ∃ j ≤ k, ∃ values s, (step^[j] m).Produces i.operands.a values s ∧ s.frame.id = f.id := by
  obtain ⟨before, stack, j, d, rfl, hbefore, hover, hlater⟩ := call_over hm hi hcall hg hid
  have hsame : before.id = f.id := by rw [hbefore.frame]
  obtain ⟨results, waited, rest, -, hgive, hstack, hwaited, -⟩ :=
    call_returns (hm.iterate _).anchored hover (Nat.succ_pos d) hlater
  rw [hopen] at hstack
  exact ⟨j + 1, by omega, results, _, .call hstack hgive, hwaited.id_eq.trans hsame⟩

end Machine

/-! ## Entry -/

/-- A frame has just begun, with arguments for the parameters of its prototype. -/
structure Frame.Entered (f : Frame) (p : Prototype) (args : List Value) : Prop where
  /-- The parameters have the arguments, and nil when there is none. -/
  parameters : ∀ j < p.numParams.toNat, f.register j = args.getD j .nil
  /-- The other registers hold nil. -/
  others : ∀ j, p.numParams.toNat ≤ j → f.register j = .nil
  /-- The arguments that are left are its extra arguments, if it takes any. -/
  varargs : f.varargs = if p.isVararg then args.drop p.numParams.toNat else []

theorem getD_fitTo (count : Nat) (values : List Value) (j : Nat) :
    (fitTo count values).getD j .nil = if j < count then values.getD j .nil else .nil := by
  simp only [fitTo, List.getD_eq_getElem?_getD, List.getElem?_append, List.length_take,
    List.getElem?_take, List.getElem?_replicate]
  by_cases hcount : j < count
  · by_cases hlength : j < values.length
    · simp [hcount, hlength]
    · simp [hcount, hlength]
      split <;> rfl
  · simp [hcount]
    split <;> rfl

theorem Frame.entered_enter (id : FrameId) {p : Prototype} (c : Closure) (args : List Value)
    (hfits : p.numParams.toNat ≤ max p.maxStackSize.toNat 1) :
    (Frame.enter id p c args).Entered p args := by
  have hregister : ∀ j, (Frame.enter id p c args).register j =
      (fitTo (max p.maxStackSize.toNat 1) (args.take p.numParams.toNat)).getD j .nil := by
    intro j
    simp [Scope.register, enter, initialRegisters]
  refine ⟨fun j hj => ?_, fun j hj => ?_, rfl⟩ <;> rw [hregister, getD_fitTo]
  · rw [if_pos (hj.trans_le hfits)]
    simp [List.getD_eq_getElem?_getD, hj]
  · simp [List.getD_eq_getElem?_getD, Nat.not_lt.2 hj]

/-! ## Runs -/

namespace Machine

/-- Open counts lose no values and add none.  A call, a method call that the host takes and extra
arguments leave all their values from a register on, or else a stack overflow, exactly when that
takes more registers than there are and than the settings allow.  Whatever return, call or list with
an open count comes next then takes the registers in front of them and all of these values, and does
nothing else to them.  A call that begins has its arguments in its parameters, and what is left of
them in its extra arguments. -/
theorem open_arity :
    (∀ (m : Machine) base values s, m.Produces base values s →
      (base + values.length ≤ max s.frame.registers.size s.vm.settings.maxRegisters →
        ∃ g, m.step = ⟨s.world, s.stack, .run g⟩ ∧ s.frame.Opens base values g ∧
          ∀ i u, m.step.executing? = some (i, u) → ∀ first ≤ base,
            m.step.Takes i u first (s.frame.slice first (base - first) ++ values)) ∧
      (max s.frame.registers.size s.vm.settings.maxRegisters < base + values.length →
        m.acting? = some (.error (.fault .stackOverflow) s))) ∧
    (∀ (m : Machine) f g i k, m.Reached → m.dispatching? = some (f, i) → i.operation = .call →
      i.operands.c = 0 → (step^[k + 1] m).control = .run g → g.id = f.id →
      ∃ j ≤ k, ∃ values s, (step^[j] m).Produces i.operands.a values s ∧ s.frame.id = f.id) ∧
    (∀ (m : Machine) c args vm, m.calling? = some (c, args) → m.world.vm? c.vm = some vm →
      vm.isPresent = true → vm.alive = true → vm.depth < vm.settings.maxCallDepth →
      let p := vm.prototype c.prototype
      p.numParams.toNat ≤ max p.maxStackSize.toNat 1 →
      ∃ f, m.step.control = .run f ∧ f.Entered p args) := by
  refine ⟨fun m base values s hproduces => ⟨fun hroom => ?_, fun hroom => ?_⟩,
    fun m f g i k hm hi hcall hopen hg hid => produces_of_call hm hi hcall hopen hg hid,
    fun m c args vm hcalling hvm hpresent halive hdepth hfits => ?_⟩
  · obtain ⟨g, hstored, hopens⟩ := Effect.storeResults_opens hroom
    have hstep : m.step = ⟨s.world, s.stack, .run g⟩ := by
      rw [step_of_acting hproduces.acting, Effect.bind_of_ok hstored]
      rfl
    refine ⟨g, hstep, hopens, fun i u hi first hfirst => ?_⟩
    have hframe : u.frame = { g with current := g.pc, pc := g.pc + 1 } := by
      obtain ⟨f, hdispatching, hprelude⟩ := executing_spec hi
      rw [hstep] at hdispatching
      cases (dispatching_spec hdispatching).1
      exact (Effect.ends_prelude i _ _ hprelude).frame
    have hopen : u.frame.Open base values := by
      rw [hframe]
      exact ⟨hopens.top, hopens.room, hopens.window⟩
    have hbelow : u.frame.slice first (base - first) = s.frame.slice first (base - first) := by
      rw [hframe]
      exact hopens.slice_below hfirst
    exact hbelow ▸ takes_of_open hi hopen hfirst
  · rw [hproduces.acting, Effect.bind_of_error (Effect.storeResults_overflows hroom)]
  · refine ⟨_, ?_, Frame.entered_enter ⟨m.world.nextFrame⟩ c args hfits⟩
    rw [step_of_calling hcalling hvm, enter_of_alive hpresent halive, if_neg (by omega)]
    rfl

/-- A return of all registers. -/
def returnAll : Instruction :=
  { opcode := .ret, underlying := .ret, word := 0, operands := {}, aux := 0 }

/-- A module whose code gives back its extra arguments, behind `true`. -/
def extraModule : Module :=
  let truth : Instruction :=
    { opcode := .loadBoolean, underlying := .loadBoolean, word := 0, operands := { b := 1 }
      aux := 0 }
  let extra : Instruction :=
    { opcode := .getVarargs, underlying := .getVarargs, word := 0, operands := { a := 1 }
      aux := 0 }
  { version := 6, typesVersion := 1, strings := [], main := 0
    prototypes := #[{ Prototype.empty with
      isVararg := true
      code := #[.instruction truth, .instruction extra, .instruction returnAll] }] }

/-- A call of it, at the moment at which it takes its extra arguments. -/
def extraRun : Machine :=
  let (entry, w) := World.createVm {} extraModule none {}
  step^[2] (start w (.function entry.main) [.nil, .boolean false])

/-- There are three registers in the end, of which there was one before, and all are given back. -/
theorem open_arity_of_extraRun :
    (step^[2] extraRun).control = .give [.boolean true, .nil, .boolean false] := by
  have hnext : ∃ i s, extraRun.executing? = some (i, s) ∧ i.operation = .getVarargs ∧
      i.operands.a = 1 ∧ i.operands.b = 0 ∧ s.frame.varargs = [.nil, .boolean false] ∧
      s.frame.slice 0 1 = [.boolean true] ∧ s.vm.settings.maxRegisters = 16384 :=
    ⟨_, _, rfl, rfl, rfl, rfl, rfl, rfl, rfl⟩
  obtain ⟨i, s, hi, hoperation, hfirst, hopens, hextra, hslice, hlimit⟩ := hnext
  obtain ⟨hroom, -⟩ := open_arity.1 _ _ _ _ (.varargs hi hoperation hfirst hopens hextra)
  obtain ⟨g, -, -, htakes⟩ := hroom (by rw [hlimit]; exact le_max_of_le_right (by decide))
  have hlast : ∃ u, extraRun.step.executing? = some (returnAll, u) ∧
      Effect.interrupt .ret u = .ok () u := ⟨_, rfl, rfl⟩
  obtain ⟨u, hu, hhook⟩ := hlast
  have hret := (htakes _ _ hu 0 (by decide)).ret rfl rfl rfl
  rw [hslice, Effect.bind_of_ok hhook] at hret
  rw [Function.iterate_succ_apply', Function.iterate_one, step_of_acting hret]
  rfl

end Machine

end ScriptMachine
