import ScriptMachine.Proofs.Table.Keys
import ScriptMachine.Table.Basic

/-!
# The invariant of tables

Array part, entries and index of a table describe one finite map.  `Sound` is what holds also in the
middle of a store, while integers move over to the array part; `WellFormed` adds what holds
between two operations: that no entry has a value at the integer just behind the border.

The lemmas of this module say for each way of changing the entries that the invariant survives and
what the change does to the value of every key.
-/

namespace ScriptMachine.Table

/-- The count of entries with a value. -/
def liveCount (entries : Array (Value × Value)) : Nat := entries.countP fun pair => !pair.2.isNil

/-- The index leads to the entries of its keys, every entry with a value is found through it, and
no key of the array part is among the entries. -/
structure Sound (t : Table) : Prop where
  /-- The array part is no longer than the integers that can be keys of it. -/
  array_size : t.array.size ≤ 2 ^ 53
  /-- The array part does not end in nil. -/
  array_back : t.array.back? ≠ some .nil
  /-- The index leads a key to an entry of that key. -/
  entry_of_index : ∀ {k p}, t.index[k]? = some p →
    ∃ key, t.entries[p]? = some (key, t.valueAt p) ∧ Key.ofValue? key = some k
  /-- An entry with a key and a value is where the index leads its key. -/
  index_of_entry : ∀ {p key value k}, t.entries[p]? = some (key, value) → value ≠ .nil →
    Key.ofValue? key = some k → t.index[k]? = some p
  /-- An integer that the index knows is behind the border. -/
  behind_array : ∀ {key p n}, t.entryPosition? key = some p → key.position? = some n →
    t.array.size < n
  /-- The entries with a value are counted. -/
  live_eq : t.live = liveCount t.entries

/-- A sound table without an entry that ought to have moved over to the array part. -/
structure WellFormed (t : Table) : Prop extends Sound t where
  /-- The integer just behind the border has no value. -/
  no_successor : ∀ {key p}, t.entryPosition? key = some p →
    key.position? = some (t.array.size + 1) → t.valueAt p = .nil

theorem isNil_iff (v : Value) : v.isNil = true ↔ v = .nil := by
  cases v <;> simp [Value.isNil]

theorem isNil_eq_false_iff (v : Value) : v.isNil = false ↔ v ≠ .nil := by
  rw [ne_eq, ← isNil_iff, Bool.not_eq_true]

theorem wellFormed_empty : WellFormed empty := by
  have hindex : ∀ key, empty.entryPosition? key = none := by
    intro key
    cases h : Key.ofValue? key <;> simp [entryPosition?, empty, h]
  refine ⟨⟨by simp [empty], by simp [empty], ?_, ?_, ?_, by simp [empty, liveCount]⟩, ?_⟩
  · intro k p h
    simp [empty] at h
  · intro p key value k h
    simp [empty] at h
  · intro key p n h
    rw [hindex] at h
    cases h
  · intro key p h
    rw [hindex] at h
    cases h

/-! ## Looking up entries -/

section Lookup

variable {t : Table} {key other value : Value} {k k' : Key} {p q : Nat}

theorem entryPosition?_of_key (h : Key.ofValue? key = some k) :
    t.entryPosition? key = t.index[k]? := by
  rw [entryPosition?, h, Option.bind_some]

theorem entryPosition?_of_keyless (h : Key.ofValue? key = none) : t.entryPosition? key = none := by
  rw [entryPosition?, h, Option.bind_none]

theorem exists_key_of_position (h : t.entryPosition? key = some p) :
    ∃ k, Key.ofValue? key = some k ∧ t.index[k]? = some p := by
  simpa [entryPosition?] using Option.bind_eq_some_iff.1 h

theorem getEntry_of_position (h : t.entryPosition? key = some p) :
    t.getEntry key = t.valueAt p := by
  rw [getEntry, h]

theorem getEntry_of_none (h : t.entryPosition? key = none) : t.getEntry key = .nil := by
  rw [getEntry, h]

theorem valueAt_of_getElem? (h : t.entries[p]? = some (key, value)) : t.valueAt p = value := by
  rw [valueAt, Array.getD_eq_getD_getElem?, h, Option.getD_some]

theorem Sound.lt_of_index (ht : t.Sound) (h : t.index[k]? = some p) : p < t.entries.size := by
  obtain ⟨key, hentry, -⟩ := ht.entry_of_index h
  exact (Array.getElem?_eq_some_iff.1 hentry).1

theorem Sound.index_injective (ht : t.Sound) (h : t.index[k]? = some p)
    (h' : t.index[k']? = some p) : k = k' := by
  obtain ⟨key, hentry, hkey⟩ := ht.entry_of_index h
  obtain ⟨key', hentry', hkey'⟩ := ht.entry_of_index h'
  rw [hentry] at hentry'
  cases hentry'
  exact Option.some.inj (hkey.symm.trans hkey')

/-- A key has a value among the entries exactly when there is such an entry. -/
theorem Sound.getEntry_eq_iff (ht : t.Sound) (hkey : Key.ofValue? key = some k)
    (hvalue : value ≠ .nil) :
    t.getEntry key = value ↔ ∃ (p : Nat) (other : Value), t.entries[p]? = some (other, value) ∧
      Key.ofValue? other = some k := by
  rw [getEntry, entryPosition?_of_key hkey]
  constructor
  · intro h
    cases hp : t.index[k]? with
    | none => rw [hp] at h; exact absurd h.symm hvalue
    | some p =>
      rw [hp] at h
      obtain rfl : t.valueAt p = value := h
      obtain ⟨other, hentry, hother⟩ := ht.entry_of_index hp
      exact ⟨p, other, hentry, hother⟩
  · rintro ⟨p, other, hentry, hother⟩
    rw [ht.index_of_entry hentry hvalue hother]
    exact valueAt_of_getElem? hentry

end Lookup

/-! ## Another value in an entry -/

section SetEntry

variable {t : Table} {key other value : Value} {k : Key} {p q : Nat}

@[simp] theorem setEntry_array : (t.setEntry p value).array = t.array := rfl

@[simp] theorem setEntry_index : (t.setEntry p value).index = t.index := rfl

@[simp] theorem setEntry_entryPosition? :
    (t.setEntry p value).entryPosition? key = t.entryPosition? key := rfl

theorem setEntry_getElem? : (t.setEntry p value).entries[q]? =
    if p = q then t.entries[q]?.map fun pair => (pair.1, value) else t.entries[q]? := by
  rw [setEntry, Array.getElem?_modify]

theorem valueAt_setEntry (hp : p < t.entries.size) :
    (t.setEntry p value).valueAt q = if p = q then value else t.valueAt q := by
  rw [valueAt, Array.getD_eq_getD_getElem?, setEntry_getElem?]
  split
  · rename_i h
    rw [← h, Array.getElem?_eq_getElem hp]
    rfl
  · rw [valueAt, Array.getD_eq_getD_getElem?]

theorem entries_setEntry (hp : p < t.entries.size) :
    (t.setEntry p value).entries = t.entries.set p (t.entries[p].1, value) hp := by
  apply Array.ext_getElem?
  intro q
  rw [setEntry_getElem?, Array.getElem?_set]
  split
  · rename_i h
    subst h
    rw [Array.getElem?_eq_getElem hp]
    rfl
  · rfl

theorem live_setEntry (hp : p < t.entries.size) (h : t.live = liveCount t.entries) :
    (t.setEntry p value).live = liveCount (t.setEntry p value).entries := by
  have hold : t.valueAt p = t.entries[p].2 := valueAt_of_getElem? (Array.getElem?_eq_getElem hp)
  have hpos : t.entries[p].2.isNil = false → 0 < liveCount t.entries := fun hlive =>
    Array.countP_pos_iff.2 ⟨_, Array.getElem_mem hp, by rw [hlive]; rfl⟩
  rw [liveCount, entries_setEntry hp, Array.countP_set hp, ← liveCount, setEntry, h, hold]
  cases ho : t.entries[p].2.isNil <;> cases value.isNil <;> (simp_all; try omega)

/-- Another value in an indexed entry changes the value of that key and nothing else. -/
theorem Sound.getEntry_setEntry (ht : t.Sound) (hp : t.index[k]? = some p)
    (value other : Value) :
    (t.setEntry p value).getEntry other =
      if Key.ofValue? other = some k then value else t.getEntry other := by
  have hlt := ht.lt_of_index hp
  split
  · rename_i hother
    rw [getEntry_of_position (p := p) (by simpa [entryPosition?_of_key hother] using hp),
      valueAt_setEntry hlt, if_pos rfl]
  · rename_i hother
    cases hq : t.entryPosition? other with
    | none => rw [getEntry_of_none hq, getEntry_of_none (by simpa using hq)]
    | some q =>
      obtain ⟨k', hk', hindex⟩ := exists_key_of_position hq
      have hpq : p ≠ q := by
        rintro rfl
        exact hother (ht.index_injective hp hindex ▸ hk')
      rw [getEntry_of_position hq, getEntry_of_position (p := q) (by simpa using hq),
        valueAt_setEntry hlt, if_neg hpq]

theorem Sound.setEntry (ht : t.Sound) (hp : t.index[k]? = some p) (value : Value) :
    (t.setEntry p value).Sound where
  array_size := ht.array_size
  array_back := ht.array_back
  entry_of_index := by
    intro k' q hq
    obtain ⟨key, hentry, hkey⟩ := ht.entry_of_index hq
    refine ⟨key, ?_, hkey⟩
    rw [setEntry_getElem?, hentry, valueAt_setEntry (ht.lt_of_index hp)]
    split <;> rfl
  index_of_entry := by
    intro q key v k' hentry hv hkey
    rw [setEntry_getElem?] at hentry
    split at hentry
    · rename_i hpq
      subst hpq
      -- the entry has kept its key, which is the one that leads here
      obtain ⟨key', hentry', hkey'⟩ := ht.entry_of_index hp
      rw [hentry'] at hentry
      cases hentry
      rw [hkey] at hkey'
      cases hkey'
      exact hp
    · exact ht.index_of_entry hentry hv hkey
  behind_array := ht.behind_array
  live_eq := live_setEntry (ht.lt_of_index hp) ht.live_eq

end SetEntry

/-! ## An entry less -/

section DropEntry

variable {t : Table} {other : Value} {k : Key} {p : Nat}

@[simp] theorem dropEntry_array : (t.dropEntry k p).array = t.array := rfl

theorem dropEntry_index {k' : Key} :
    (t.dropEntry k p).index[k']? = if k = k' then none else t.index[k']? := by
  rw [dropEntry, Std.HashMap.getElem?_erase]
  simp

theorem dropEntry_valueAt : (t.dropEntry k p).valueAt = (t.setEntry p .nil).valueAt := rfl

theorem dropEntry_entryPosition? : (t.dropEntry k p).entryPosition? other =
    if Key.ofValue? other = some k then none else t.entryPosition? other := by
  cases hkey : Key.ofValue? other with
  | none => simp [entryPosition?_of_keyless hkey]
  | some k' =>
    rw [entryPosition?_of_key hkey, entryPosition?_of_key hkey, dropEntry_index]
    simp [eq_comm]

/-- Dropping the entry of a key takes its value and nothing else. -/
theorem Sound.getEntry_dropEntry (ht : t.Sound) (hp : t.index[k]? = some p) (other : Value) :
    (t.dropEntry k p).getEntry other =
      if Key.ofValue? other = some k then .nil else t.getEntry other := by
  have hset := ht.getEntry_setEntry hp .nil other
  by_cases hother : Key.ofValue? other = some k
  · rw [if_pos hother, getEntry_of_none]
    rw [dropEntry_entryPosition?, if_pos hother]
  · rw [if_neg hother] at hset ⊢
    rw [← hset, getEntry, getEntry, dropEntry_entryPosition?, if_neg hother, dropEntry_valueAt,
      setEntry_entryPosition?]

theorem Sound.dropEntry (ht : t.Sound) (hp : t.index[k]? = some p) : (t.dropEntry k p).Sound where
  array_size := ht.array_size
  array_back := ht.array_back
  entry_of_index := by
    intro k' q hq
    rw [dropEntry_index] at hq
    split at hq
    · cases hq
    · exact (ht.setEntry hp .nil).entry_of_index hq
  index_of_entry := by
    intro q key v k' hentry hv hkey
    have hindex := (ht.setEntry hp .nil).index_of_entry hentry hv hkey
    rw [dropEntry_index, if_neg]
    · exact hindex
    · rintro rfl
      -- the entry of the key has lost its value
      obtain rfl : q = p := Option.some.inj (hindex.symm.trans hp)
      have hnil := valueAt_of_getElem? hentry
      rw [dropEntry_valueAt, valueAt_setEntry (ht.lt_of_index hp), if_pos rfl] at hnil
      exact hv hnil.symm
  behind_array := by
    intro key q n hq hn
    rw [dropEntry_entryPosition?] at hq
    split at hq
    · cases hq
    · exact ht.behind_array hq hn
  live_eq := (ht.setEntry hp .nil).live_eq

theorem index_size_dropEntry (hp : t.index[k]? = some p) :
    (t.dropEntry k p).index.size + 1 = t.index.size := by
  have hmem : k ∈ t.index := Std.HashMap.mem_iff_isSome_getElem?.2 (by rw [hp]; rfl)
  have hpos : t.index.size ≠ 0 := by
    intro h
    have hempty : t.index.isEmpty = true := by rw [Std.HashMap.isEmpty_eq_size_eq_zero, h]; rfl
    exact Std.HashMap.isEmpty_iff_forall_not_mem.1 hempty k hmem
  have hsize : (t.dropEntry k p).index.size = t.index.size - 1 := by
    rw [Table.dropEntry, Std.HashMap.size_erase, setEntry_index, if_pos hmem]
  omega

end DropEntry

/-! ## A new entry -/

section Append

variable {t : Table} {key other value : Value} {k k' : Key} {p : Nat}

@[simp] theorem append_array : (t.append key value).array = t.array := rfl

theorem append_getElem? : (t.append key value).entries[p]? =
    if p = t.entries.size then some (key, value) else t.entries[p]? := by
  rw [append, Array.getElem?_push]

theorem append_index : (t.append key value).index[k]? =
    if Key.ofValue? key = some k then some t.entries.size else t.index[k]? := by
  rw [append]
  cases hkey : Key.ofValue? key with
  | none => simp
  | some k' => simp [Std.HashMap.getElem?_insert]

theorem append_entryPosition? : (t.append key value).entryPosition? other =
    if ∃ k, Key.ofValue? key = some k ∧ Key.ofValue? other = some k then some t.entries.size
    else t.entryPosition? other := by
  cases hother : Key.ofValue? other with
  | none => simp [entryPosition?_of_keyless hother]
  | some k =>
    rw [entryPosition?_of_key hother, entryPosition?_of_key hother, append_index]
    simp

theorem append_valueAt : (t.append key value).valueAt p =
    if p = t.entries.size then value else t.valueAt p := by
  rw [valueAt, Array.getD_eq_getD_getElem?, append_getElem?]
  split
  · rfl
  · rw [valueAt, Array.getD_eq_getD_getElem?]

/-- A new entry gives its key a value, and leaves all other keys theirs. -/
theorem Sound.getEntry_append (ht : t.Sound) (key value other : Value) :
    (t.append key value).getEntry other =
      if ∃ k, Key.ofValue? key = some k ∧ Key.ofValue? other = some k then value
      else t.getEntry other := by
  rw [getEntry, append_entryPosition?]
  by_cases h : ∃ k, Key.ofValue? key = some k ∧ Key.ofValue? other = some k
  · rw [if_pos h, if_pos h]
    simp [append_valueAt]
  · rw [if_neg h, if_neg h]
    cases hp : t.entryPosition? other with
    | none => rw [getEntry_of_none hp]
    | some p =>
      obtain ⟨k, -, hindex⟩ := exists_key_of_position hp
      have hlt := ht.lt_of_index hindex
      rw [getEntry_of_position hp]
      simp [append_valueAt, hlt.ne]

theorem Sound.append (ht : t.Sound) (hnew : t.entryPosition? key = none) (hvalue : value ≠ .nil)
    (hposition : ∀ n, key.position? = some n → t.array.size < n) : (t.append key value).Sound where
  array_size := ht.array_size
  array_back := ht.array_back
  entry_of_index := by
    intro k p hp
    rw [append_index] at hp
    rw [append_getElem?, append_valueAt]
    split at hp
    · rename_i hkey
      obtain rfl := Option.some.inj hp
      exact ⟨key, by simp, hkey⟩
    · rw [if_neg (ht.lt_of_index hp).ne, if_neg (ht.lt_of_index hp).ne]
      exact ht.entry_of_index hp
  index_of_entry := by
    intro p key' v k hentry hv hkey
    rw [append_getElem?] at hentry
    rw [append_index]
    split at hentry
    · rename_i hp
      cases hentry
      rw [if_pos hkey, hp]
    · have hindex := ht.index_of_entry hentry hv hkey
      rw [if_neg]
      · exact hindex
      · intro hk
        rw [entryPosition?_of_key hk, hindex] at hnew
        cases hnew
  behind_array := by
    intro key' p n hp hn
    rw [append_entryPosition?] at hp
    split at hp
    · rename_i h
      obtain ⟨k, hk, hk'⟩ := h
      exact hposition n (Key.position?_congr hk hk' ▸ hn)
    · exact ht.behind_array hp hn
  live_eq := by
    have hlive : (!value.isNil) = true := by simp [(isNil_eq_false_iff value).2 hvalue]
    rw [liveCount, Table.append, Array.countP_push, if_pos hlive, ← liveCount, ht.live_eq]

end Append

end ScriptMachine.Table
