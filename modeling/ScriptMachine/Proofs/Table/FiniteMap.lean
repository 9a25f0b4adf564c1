import ScriptMachine.Proofs.Table.Store

/-!
# A table is a finite map

Whatever is done to a table, what it answers for a key is what was last stored under a raw-equal
key.  Where the pair lives, in the array part, among the entries, or nowhere any more, does not
show, and neither does room made in advance.
-/

namespace ScriptMachine.Table

/-! ## Histories -/

/-- What can be done to a table. -/
inductive Operation where
  /-- A value is set at any key. -/
  | set (key value : Value)
  /-- A value is set at an integer. -/
  | setInt (i : Int) (value : Value)
  /-- A value is set at a string. -/
  | setField (name : Bytes) (value : Value)
  /-- Room is made in advance. -/
  | reserve (arraySize entryCount : Nat)

namespace Operation

/-- The table after an operation, or its fault. -/
def apply (t : Table) : Operation → Except Fault Table
  | .set key value => t.set key value
  | .setInt i value => .ok (t.setInt i value)
  | .setField name value => .ok (t.setField name value)
  | .reserve arraySize entryCount => .ok (t.reserve arraySize entryCount)

end Operation

/-- The table after an operation; one that faults has changed nothing. -/
def after (t : Table) (op : Operation) : Table :=
  match op.apply t with
  | .ok t' => t'
  | .error _ => t

/-- The table after a history of operations. -/
def run (t : Table) (history : List Operation) : Table := history.foldl after t

/-- Whether a value can be a key: nil and NaN cannot. -/
def isKey : Value → Bool
  | .nil => false
  | .number n => !n.isNaN
  | _ => true

/-- The key and value that an operation stores, if it does not fault. -/
def Operation.stored? : Operation → Option (Value × Value)
  | .set key value => if isKey key then some (key, value) else none
  | .setInt i value => some (.ofInt i, value)
  | .setField name value => some (.string name, value)
  | .reserve .. => none

/-- The value that was last stored under a key raw-equal to the given one, nil when none was. -/
def lastStored (history : List Operation) (key : Value) : Value :=
  match (history.filterMap Operation.stored?).reverse.find? fun pair => pair.1.rawEq key with
  | some pair => pair.2
  | none => .nil

/-! ## One operation -/

variable {t : Table}

theorem set_of_key {key : Value} (h : isKey key = true) (value : Value) :
    t.set key value = .ok (t.store key value) := by
  cases key with
  | nil => cases h
  | number n =>
    rw [set, if_neg]
    simpa [isKey] using h
  | _ => rfl

theorem set_of_not_key {key : Value} (h : isKey key = false) (value : Value) :
    ∃ fault, t.set key value = .error fault := by
  cases key with
  | nil => exact ⟨.nilKey, rfl⟩
  | number n =>
    refine ⟨.nanKey, ?_⟩
    rw [set, if_pos]
    simpa [isKey] using h
  | _ => cases h

/-- What a set that does not fault has done. -/
theorem eq_store_of_set {t' : Table} {key value : Value} (h : t.set key value = .ok t') :
    isKey key = true ∧ t' = t.store key value := by
  cases hkey : isKey key with
  | false =>
    obtain ⟨fault, hfault⟩ := set_of_not_key (t := t) hkey value
    rw [hfault] at h
    cases h
  | true =>
    rw [set_of_key hkey] at h
    exact ⟨rfl, (Except.ok.inj h).symm⟩

theorem after_eq (t : Table) (op : Operation) :
    t.after op = match op.stored? with
      | some (key, value) => t.store key value
      | none => t := by
  cases op with
  | set key value =>
    cases h : isKey key with
    | true => simp [after, Operation.apply, Operation.stored?, set_of_key h, h]
    | false =>
      obtain ⟨fault, hfault⟩ := set_of_not_key (t := t) h value
      simp [after, Operation.apply, Operation.stored?, hfault, h]
  | setInt i value => rfl
  | setField name value => rfl
  | reserve arraySize entryCount => rfl

theorem WellFormed.after (ht : t.WellFormed) (op : Operation) : (t.after op).WellFormed := by
  rw [after_eq]
  split
  · exact (ht.store _ _).1
  · exact ht

theorem stored_ne_nil {op : Operation} {key value : Value} (h : op.stored? = some (key, value)) :
    key ≠ .nil := by
  rintro rfl
  cases op with
  | set key value => simp [Operation.stored?] at h; obtain ⟨h, rfl, -⟩ := h; cases h
  | setInt i value => cases h
  | setField name value => cases h
  | reserve arraySize entryCount => cases h

/-- One operation changes the answers for the keys raw-equal to the one it stores. -/
theorem WellFormed.get_after (ht : t.WellFormed) (op : Operation) (key : Value) :
    (t.after op).get key = match op.stored? with
      | some pair => if pair.1.rawEq key then pair.2 else t.get key
      | none => t.get key := by
  rw [after_eq]
  cases h : op.stored? with
  | none => rfl
  | some pair =>
    have hiff := Key.rawEq_iff pair.1 key
    simp only [stored_ne_nil h, false_and, false_or] at hiff
    dsimp only
    rw [(ht.store pair.1 pair.2).2 key]
    simp only [hiff]

/-! ## All operations -/

theorem WellFormed.run (ht : t.WellFormed) (history : List Operation) :
    (t.run history).WellFormed := by
  induction history generalizing t with
  | nil => exact ht
  | cons op history ih => exact ih (ht.after op)

theorem run_snoc (t : Table) (history : List Operation) (op : Operation) :
    t.run (history ++ [op]) = (t.run history).after op := by
  rw [run, List.foldl_append]
  rfl

theorem lastStored_snoc (history : List Operation) (op : Operation) (key : Value) :
    lastStored (history ++ [op]) key = match op.stored? with
      | some pair => if pair.1.rawEq key then pair.2 else lastStored history key
      | none => lastStored history key := by
  rw [lastStored, List.filterMap_append, List.reverse_append]
  cases h : op.stored? with
  | none => simp [h, lastStored]
  | some pair =>
    rw [List.filterMap_cons_some h, List.filterMap_nil, List.reverse_singleton,
      List.singleton_append, List.find?_cons]
    cases hraw : pair.1.rawEq key <;> simp [hraw, lastStored]

theorem get_empty (key : Value) : empty.get key = .nil := by
  have hnone : empty.entryPosition? key = none := by
    cases h : Key.ofValue? key with
    | none => exact entryPosition?_of_keyless h
    | some k => rw [entryPosition?_of_key h]; simp [empty]
  refine getEntry_eq_nil_of_none hnone fun n hn => ?_
  have := (Value.position?_eq_some_iff.1 hn).1
  simp [empty]
  omega

/-- A table that starts empty answers for every key what was last stored there. -/
theorem get_run_empty (history : List Operation) (key : Value) :
    (empty.run history).get key = lastStored history key := by
  induction history using List.reverseRecOn with
  | nil => exact get_empty key
  | append_singleton history op ih =>
    rw [run_snoc, (wellFormed_empty.run history).get_after, lastStored_snoc, ih]

theorem Sound.getInt_eq (ht : t.Sound) (i : Int) : t.getInt i = t.get (.ofInt i) := by
  rw [getInt]
  split
  · rename_i hi
    obtain ⟨n, rfl⟩ := Int.eq_ofNat_of_zero_le (by omega : 0 ≤ i)
    have hsize := ht.array_size
    have hn : (Value.ofInt n).position? = some n := Value.position?_ofNat (by omega) (by omega)
    rw [get_of_position hn, if_pos (by omega), Int.toNat_natCast]
  · rfl

/-- A table is a finite map: after any history each way of looking a key up answers what was last
stored under it, and a set that faults, which it does for nil and NaN alone, might as well not have
been tried. -/
theorem finite_map (arraySize entryCount : Nat) (history : List Operation) :
    let t := (empty.reserve arraySize entryCount).run history
    (∀ key, t.get key = lastStored history key) ∧
    (∀ i, t.getInt i = lastStored history (.ofInt i)) ∧
    (∀ name, t.getField name = lastStored history (.string name)) ∧
    (∀ key value, (∃ fault, t.set key value = .error fault) ↔ isKey key = false) ∧
    (∀ key value later, isKey key = false → t.run (.set key value :: later) = t.run later) := by
  refine ⟨get_run_empty history, fun i => ?_, fun name => get_run_empty history _,
    fun key value => ⟨fun h => ?_, fun h => set_of_not_key h value⟩, fun key value later h => ?_⟩
  · have hwf := wellFormed_empty.run history
    exact (hwf.toSound.getInt_eq i).trans (get_run_empty history _)
  · obtain ⟨fault, hfault⟩ := h
    cases hkey : isKey key with
    | false => rfl
    | true =>
      rw [set_of_key hkey] at hfault
      cases hfault
  · have hafter := after_eq ((empty.reserve arraySize entryCount).run history) (.set key value)
    simp only [Operation.stored?, h] at hafter
    exact congrArg (fun t => Table.run t later) hafter

end ScriptMachine.Table
