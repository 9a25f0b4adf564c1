import ScriptMachine.Proofs.Table.FiniteMap

/-!
# The keys of the entries

Every entry was made for a key that was set, so that a table nobody has set a vector with a NaN
component in has no entry that its index could not lead to.
-/

namespace ScriptMachine

/-- Whether a value is a vector with a component that is not even equal to itself. -/
def Value.hasNaNComponent : Value → Bool
  | .vector v => v.toList.any Float32.isNaN
  | _ => false

theorem Key.exists_of_isKey {v : Value} (h : Table.isKey v = true)
    (hnan : v.hasNaNComponent = false) : ∃ k, Key.ofValue? v = some k := by
  have hbits : ∀ x : Float32, x.isNaN = false → ∃ b, bits32? x = some b := by
    intro x hx
    rw [bits32?, hx, if_neg Bool.false_ne_true]
    split <;> exact ⟨_, rfl⟩
  cases v with
  | nil => cases h
  | number n =>
    have hn : n.isNaN = false := by simpa [Table.isKey] using h
    rw [ofValue?, bits?, hn, if_neg Bool.false_ne_true]
    split <;> exact ⟨_, rfl⟩
  | vector v =>
    simp only [Value.hasNaNComponent, Vector4.toList, List.any_cons, List.any_nil, Bool.or_false,
      Bool.or_eq_false_iff] at hnan
    obtain ⟨hx, hy, hz, hw⟩ := hnan
    obtain ⟨x, hx⟩ := hbits _ hx
    obtain ⟨y, hy⟩ := hbits _ hy
    obtain ⟨z, hz⟩ := hbits _ hz
    obtain ⟨w, hw⟩ := hbits _ hw
    exact ⟨_, ofValue?_vector.2 ⟨x, y, z, w, hx, hy, hz, hw, rfl⟩⟩
  | _ => exact ⟨_, rfl⟩

namespace Table

/-- The keys of all entries, tombstones included. -/
def entryKeys (t : Table) : List Value := t.entries.toList.map Prod.fst

section

variable {t : Table} {key other value : Value} {k : Key} {p : Nat}

theorem mem_entryKeys_of_getElem? (h : t.entries[p]? = some (key, value)) : key ∈ t.entryKeys :=
  List.mem_map_of_mem (f := Prod.fst) (Array.mem_toList_iff.2 (Array.mem_of_getElem? h))

@[simp] theorem entryKeys_setEntry : (t.setEntry p value).entryKeys = t.entryKeys := by
  apply List.ext_getElem?
  intro q
  simp only [entryKeys, List.getElem?_map, Array.getElem?_toList, setEntry_getElem?]
  split
  · rw [Option.map_map]
    rfl
  · rfl

theorem entryKeys_dropEntry (t : Table) (k : Key) (p : Nat) :
    (t.dropEntry k p).entryKeys = t.entryKeys :=
  entryKeys_setEntry

theorem entryKeys_migrateUpTo (count : Nat) (t : Table) :
    (migrateUpTo count t).entryKeys = t.entryKeys := by
  induction count generalizing t with
  | zero => rfl
  | succ count ih =>
    rw [migrateUpTo]
    split
    · rfl
    · rename_i k p _
      dsimp only
      split
      · rfl
      · rw [ih]
        exact entryKeys_dropEntry t k p

theorem entryKeys_push : (t.push key value).entryKeys = t.entryKeys := by
  obtain ⟨cleared, hpush, hcleared⟩ := exists_push_eq t key value
  rw [hpush, migrate, entryKeys_migrateUpTo]
  rcases hcleared with ⟨-, rfl⟩ | ⟨k, p, -, -, rfl⟩
  · rfl
  · exact entryKeys_dropEntry t k p

theorem entryKeys_append : (t.append key value).entryKeys = t.entryKeys ++ [key] := by
  simp [entryKeys, append]

theorem mem_entryKeys_of_compact (h : other ∈ t.compact.entryKeys) : other ∈ t.entryKeys := by
  obtain ⟨pair, hpair, rfl⟩ := List.mem_map.1 h
  rw [compact, Array.mem_toList_iff, Array.mem_filter] at hpair
  exact List.mem_map_of_mem (Array.mem_toList_iff.2 hpair.1)

theorem mem_entryKeys_of_storeEntry (h : other ∈ (t.storeEntry key value).entryKeys) :
    other ∈ t.entryKeys ∨ other = key := by
  rw [storeEntry] at h
  split at h
  · exact .inl (by simpa using h)
  · split at h
    · exact .inl h
    · rw [entryKeys_append, List.mem_append, List.mem_singleton] at h
      rcases h with h | h
      · split at h
        · exact .inl (mem_entryKeys_of_compact h)
        · exact .inl h
      · exact .inr h

/-- A store makes no entry but one for its own key. -/
theorem mem_entryKeys_of_store (h : other ∈ (t.store key value).entryKeys) :
    other ∈ t.entryKeys ∨ other = key := by
  rw [store] at h
  split at h
  · split at h
    · exact .inl h
    · split at h
      · exact .inl (entryKeys_push ▸ h)
      · exact mem_entryKeys_of_storeEntry h
  · exact mem_entryKeys_of_storeEntry h

end

/-- Every entry has a key that the index can lead to. -/
def Keyed (t : Table) : Prop := ∀ key ∈ t.entryKeys, ∃ k, Key.ofValue? key = some k

theorem isKey_of_stored {op : Operation} {key value : Value}
    (h : op.stored? = some (key, value)) : isKey key = true := by
  cases op with
  | set key' value' =>
    rw [Operation.stored?] at h
    split at h
    · rename_i hkey
      cases h
      exact hkey
    · cases h
  | setInt i value' =>
    cases h
    rw [Value.ofInt, isKey, Bool.not_eq_true', ← Bool.not_eq_true]
    exact fun h => Number.parts_ofInt_ne_nan i (Float.Model.UnpackedFloat.isNaN_iff.1 h)
  | setField name value' => cases h; rfl
  | reserve arraySize entryCount => cases h

theorem Keyed.after {t : Table} (ht : t.Keyed) {op : Operation}
    (hop : ∀ key value, op.stored? = some (key, value) → key.hasNaNComponent = false) :
    (t.after op).Keyed := by
  intro other hother
  rw [after_eq] at hother
  split at hother
  · rename_i key value h
    rcases mem_entryKeys_of_store hother with hold | rfl
    · exact ht other hold
    · exact Key.exists_of_isKey (isKey_of_stored h) (hop _ _ h)
  · exact ht other hother

/-- No history without vectors with a NaN component leaves an entry out of the index's reach. -/
theorem Keyed.run {t : Table} (ht : t.Keyed) {history : List Operation}
    (h : ∀ op ∈ history, ∀ key value, op.stored? = some (key, value) →
      key.hasNaNComponent = false) : (t.run history).Keyed := by
  induction history generalizing t with
  | nil => exact ht
  | cons op history ih =>
    exact ih (ht.after (h op List.mem_cons_self)) fun op hop => h op (List.mem_cons_of_mem _ hop)

theorem keyed_empty : empty.Keyed := by
  intro key hkey
  cases hkey

end Table

end ScriptMachine
