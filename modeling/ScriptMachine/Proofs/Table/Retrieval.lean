import ScriptMachine.Proofs.Table.Keyed
import ScriptMachine.Proofs.Table.Slots

/-!
# What is set is found again

A key that a table accepts is one that it can find again: it has the value that was set, a traversal
can be resumed there, and nil removes it from every traversal that follows.  All three rest on a key
being equal to itself, and a vector with a NaN component is not.  It is accepted as well, and then
the table has an entry that only a traversal meets, and that nothing can remove.
-/

namespace ScriptMachine

theorem Key.ofValue?_of_hasNaNComponent {key : Value} (h : key.hasNaNComponent = true) :
    ofValue? key = none := by
  have hself : ∀ {x : Float32} {b}, bits32? x = some b → x.isNaN = false := by
    intro x b hb
    by_contra hx
    rw [bits32?, if_pos (by simpa using hx)] at hb
    cases hb
  cases key with
  | vector v =>
    by_contra hsome
    obtain ⟨k, hk⟩ := Option.ne_none_iff_exists'.1 hsome
    obtain ⟨x, y, z, w, hx, hy, hz, hw, -⟩ := ofValue?_vector.1 hk
    simp only [Value.hasNaNComponent, Vector4.toList, List.any_cons, List.any_nil, hself hx,
      hself hy, hself hz, hself hw, Bool.or_false, Bool.false_eq_true] at h
  | _ => cases h

namespace Table

variable {t t' : Table} {key value last : Value} {k : Key} {p : Nat}

/-! ## Accepted keys -/

theorem WellFormed.get_store_self (ht : t.WellFormed) (hk : Key.ofValue? key = some k)
    (value : Value) : (t.store key value).get key = value := by
  rw [(ht.store key value).2 key, if_pos ⟨k, hk, hk⟩]

/-- A traversal can be resumed at a key that has a value. -/
theorem exists_next_of_get (h : t.get key ≠ .nil) : ∃ found, t.next key = .ok found := by
  have hposition : key.position? = none → ∃ p, t.entryPosition? key = some p := fun hn => by
    rw [get_of_no_position hn] at h
    exact Option.ne_none_iff_exists'.1 fun hnone => h (getEntry_of_none hnone)
  unfold Table.next
  split
  · exact ⟨_, rfl⟩
  · split
    · split
      · exact ⟨_, rfl⟩
      · split <;> exact ⟨_, rfl⟩
    · exact ⟨_, rfl⟩
    · rename_i hn hnone
      obtain ⟨p, hp⟩ := hposition hn
      rw [hp] at hnone
      cases hnone

/-! ## Found pairs -/

theorem WellFormed.get_of_firstEntry? (ht : t.WellFormed)
    (h : t.firstEntry? p = some (key, value)) (hk : Key.ofValue? key = some k) :
    t.get key ≠ .nil := by
  obtain ⟨⟨q, pair⟩, hfound, rfl⟩ := Option.map_eq_some_iff.1 h
  obtain ⟨-, hentry, hlive, -⟩ := findFrom?_some hfound
  rw [Bool.not_eq_true', isNil_eq_false_iff] at hlive
  have hposition : t.entryPosition? key = some q := by
    rw [entryPosition?_of_key hk, ht.index_of_entry hentry hlive hk]
  rwa [get_of_behind fun n hn => ht.behind_array hposition hn, getEntry_of_position hposition,
    valueAt_of_getElem? hentry]

theorem WellFormed.get_of_firstFrom? (ht : t.WellFormed)
    (h : t.firstFrom? p = some (key, value)) (hk : Key.ofValue? key = some k) :
    t.get key ≠ .nil := by
  unfold Table.firstFrom? at h
  split at h
  · rename_i i found hfound
    cases h
    obtain ⟨-, hvalue, hlive, -⟩ := findFrom?_some hfound
    rw [Bool.not_eq_true', isNil_eq_false_iff] at hlive
    have hi := (Array.getElem?_eq_some_iff.1 hvalue).1
    have hsize := ht.array_size
    rw [get_of_position (Value.position?_ofNat (n := i + 1) (by omega) (by omega)),
      if_pos (by omega), Nat.add_sub_cancel, Array.getD_eq_getD_getElem?, hvalue]
    exact hlive
  · exact ht.get_of_firstEntry? h hk

/-- Where a traversal finds a key that is equal to itself, the key has a value. -/
theorem WellFormed.get_of_next (ht : t.WellFormed) (h : t.next last = .ok (some (key, value)))
    (hk : Key.ofValue? key = some k) : t.get key ≠ .nil := by
  unfold Table.next at h
  split at h
  · exact ht.get_of_firstFrom? (Except.ok.inj h) hk
  · split at h
    · split at h
      · exact ht.get_of_firstFrom? (Except.ok.inj h) hk
      · split at h
        · exact ht.get_of_firstFrom? (Except.ok.inj h) hk
        · exact ht.get_of_firstEntry? (Except.ok.inj h) hk
    · exact ht.get_of_firstEntry? (Except.ok.inj h) hk
    · cases h

/-- A history that gives no value to a key. -/
def Spares (key : Value) (history : List Operation) : Prop :=
  ∀ op ∈ history, ∀ other value, op.stored? = some (other, value) → other.rawEq key = true →
    value = .nil

/-- A key without a value stays without one until it is given one. -/
theorem WellFormed.get_run_of_spares (ht : t.WellFormed) {later : List Operation}
    (hlater : Spares key later) (hnil : t.get key = .nil) : (t.run later).get key = .nil := by
  induction later generalizing t with
  | nil => exact hnil
  | cons op later ih =>
    refine ih (ht.after op) (fun op hop => hlater op (List.mem_cons_of_mem _ hop)) ?_
    rw [ht.get_after op key]
    split
    · rename_i pair hstored
      split
      · rename_i hraw
        exact hlater op List.mem_cons_self pair.1 pair.2 hstored hraw
      · exact hnil
    · exact hnil

/-- No traversal yields a key without a value, whatever else has been stored in the meantime. -/
theorem WellFormed.next_run_of_spares (ht : t.WellFormed) {later : List Operation}
    (hlater : Spares key later) (hkey : key ≠ .nil) (hnil : t.get key = .nil) {last : Value}
    {pair : Value × Value} (h : (t.run later).next last = .ok (some pair)) :
    pair.1.rawEq key = false := by
  rw [← Bool.not_eq_true, Key.rawEq_iff]
  rintro (⟨-, hkey'⟩ | ⟨k, hk, hk'⟩)
  · exact hkey hkey'
  · refine (ht.run later).get_of_next h hk ?_
    rw [get_of_same_position hk hk', ht.get_run_of_spares hlater hnil]

/-! ## Keys that differ from themselves -/

section Keyless

theorem position?_of_keyless (h : Key.ofValue? key = none) : key.position? = none := by
  by_contra hsome
  obtain ⟨n, hn⟩ := Option.ne_none_iff_exists'.1 hsome
  obtain ⟨k, hk⟩ := Key.exists_of_position? hn
  rw [h] at hk
  cases hk

theorem get_of_keyless (h : Key.ofValue? key = none) : t.get key = .nil := by
  rw [get_of_no_position (position?_of_keyless h), getEntry_of_none (entryPosition?_of_keyless h)]

theorem next_of_keyless (h : Key.ofValue? key = none) (hkey : key ≠ .nil) :
    t.next key = .error .unknownKey := by
  rw [Table.next, position?_of_keyless h, entryPosition?_of_keyless h]
  exact hkey

theorem store_nil_of_keyless (h : Key.ofValue? key = none) : t.store key .nil = t := by
  rw [Table.store, position?_of_keyless h]
  simp [storeEntry, entryPosition?_of_keyless h, Value.isNil]

/-- A value stored at a key that differs from itself makes an entry, every time. -/
theorem back?_store_of_keyless (h : Key.ofValue? key = none) (hvalue : value ≠ .nil) :
    (t.store key value).entries.back? = some (key, value) := by
  rw [Table.store, position?_of_keyless h]
  simp [storeEntry, entryPosition?_of_keyless h, (isNil_eq_false_iff value).2 hvalue, append]

end Keyless

/-! ## The law of the accepted key -/

/-- A key that a table accepts with a value is found again if it is no vector with a NaN component:
the table has the value at the key, a traversal can be resumed there, and a nil set there takes the
key out of every traversal until it is given a value again.  A vector with a NaN component is
accepted as well, as the last entry, but the table has nothing at the key, no traversal can be
resumed there, and a nil set there changes nothing. -/
theorem accepted_key_found (history : List Operation) {key value : Value} {t : Table}
    (hset : (empty.run history).set key value = .ok t) (hvalue : value ≠ .nil) :
    (key.hasNaNComponent = false →
      t.get key = value ∧ (∃ found, t.next key = .ok found) ∧
      ∃ removed, t.set key .nil = .ok removed ∧
        ∀ later, Spares key later → ∀ last pair,
          (removed.run later).next last = .ok (some pair) → pair.1.rawEq key = false) ∧
    (key.hasNaNComponent = true →
      t.entries.back? = some (key, value) ∧ t.get key = .nil ∧
      t.next key = .error .unknownKey ∧ t.set key .nil = .ok t) := by
  obtain ⟨hkey, rfl⟩ := eq_store_of_set hset
  have hne : key ≠ .nil := fun h => by rw [h] at hkey; cases hkey
  have hold := wellFormed_empty.run history
  have ht := (hold.store key value).1
  refine ⟨fun hnan => ?_, fun hnan => ?_⟩
  · obtain ⟨k, hk⟩ := Key.exists_of_isKey hkey hnan
    have hget := hold.get_store_self hk value
    refine ⟨hget, exists_next_of_get (by rwa [hget]), _, set_of_key hkey .nil, ?_⟩
    intro later hlater last pair hnext
    exact (ht.store key .nil).1.next_run_of_spares hlater hne (ht.get_store_self hk .nil) hnext
  · have hk := Key.ofValue?_of_hasNaNComponent hnan
    exact ⟨back?_store_of_keyless hk hvalue, get_of_keyless hk, next_of_keyless hk hne, by
      rw [set_of_key hkey, store_nil_of_keyless hk]⟩

/-- The vector of `-0`, `0`, `1` and `2`, set behind an integer, is found and can be removed. -/
theorem accepted_vector_found :
    let history := [Operation.setInt 1 (.boolean true)]
    let key := Value.vector ⟨.ofBits 0x80000000, 0, 1, 2⟩
    ∃ t, (empty.run history).set key (.boolean false) = .ok t ∧ key.hasNaNComponent = false ∧
      t.get key = .boolean false ∧ (∃ found, t.next key = .ok found) ∧
      ∃ removed, t.set key .nil = .ok removed ∧ ∀ last pair,
        removed.next last = .ok (some pair) → pair.1.rawEq key = false := by
  intro history key
  have hset : (empty.run history).set key (.boolean false) =
    .ok ((empty.run history).store key (.boolean false)) := rfl
  have hnan : key.hasNaNComponent = false := by decide +kernel
  obtain ⟨hget, hnext, removed, hremoved, hlater⟩ :=
    (accepted_key_found history hset (by decide)).1 hnan
  exact ⟨_, hset, hnan, hget, hnext, removed, hremoved, hlater [] fun _ h => nomatch h⟩

/-- A vector with a NaN component is accepted by an empty table and not found in it. -/
theorem accepted_vector_lost :
    let key := Value.vector ⟨.ofBits 0x7fc00000, 0, 0, 0⟩
    ∃ t, empty.set key (.boolean true) = .ok t ∧ t.get key ≠ .boolean true ∧
      t.next key = .error .unknownKey ∧
      ∃ removed, t.set key .nil = .ok removed ∧
        removed.next .nil = .ok (some (key, .boolean true)) := by
  intro key
  have hk : Key.ofValue? key = none := Key.ofValue?_of_hasNaNComponent (by decide +kernel)
  have hstore : empty.store key (.boolean true) =
      { entries := #[(key, .boolean true)], live := 1 } := by
    rw [store, position?_of_keyless hk]
    simp [storeEntry, entryPosition?_of_keyless hk, Value.isNil, isSparse, append, hk, empty]
  refine ⟨_, rfl, by simp [get_of_keyless hk], next_of_keyless hk (by simp [key]), _, rfl, ?_⟩
  rw [store_nil_of_keyless hk, hstore]
  simp [next, firstFrom?, firstEntry?, findFrom?, Value.isNil]

end Table

end ScriptMachine
