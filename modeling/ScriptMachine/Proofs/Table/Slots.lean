import ScriptMachine.Proofs.Table.Keyed

/-!
# The slots of a table

A traversal goes through the slots of a table, first those of the array part and then the entries.
Assigning to fields that have a value keeps the slots where they are: the array part may become
shorter, but nothing moves and no key is forgotten.  So `next` finds its way from any key that the
table had, whatever has been cleared since.
-/

namespace ScriptMachine.Table

/-- The key of a slot: an integer for the array part, then the keys of the entries. -/
def slotKey (t : Table) (i : Nat) : Value :=
  if i < t.array.size then .ofNat (i + 1) else (t.entries.getD (i - t.array.size) (.nil, .nil)).1

/-- The value in a slot of a table, counting entries from the given border on. -/
def slotValue (border : Nat) (t : Table) (i : Nat) : Value :=
  if i < border then t.array.getD i .nil else t.valueAt (i - border)

/-- Whether a slot has a value. -/
def isLive (t : Table) (i : Nat) : Bool := !(slotValue t.array.size t i).isNil

/-- The keys that have a value, in the order in which a traversal meets them. -/
def keys (t : Table) : List Value :=
  ((List.range (t.array.size + t.entries.size)).filter t.isLive).map t.slotKey

/-- A later state of a table that only had fields with a value assigned to. -/
structure SameShape (start t : Table) : Prop where
  /-- The table is well formed. -/
  wellFormed : t.WellFormed
  /-- The index is the same. -/
  index_eq : t.index = start.index
  /-- The entries have kept their keys. -/
  entryKeys_eq : t.entryKeys = start.entryKeys
  /-- The array part has not grown. -/
  size_le : t.array.size ≤ start.array.size
  /-- No key has gained a value. -/
  no_new : ∀ key, start.get key = .nil → t.get key = .nil

theorem WellFormed.sameShape_self {t : Table} (ht : t.WellFormed) : SameShape t t where
  wellFormed := ht
  index_eq := rfl
  entryKeys_eq := rfl
  size_le := le_rfl
  no_new := fun _ h => h

section Shape

variable {start t : Table} {key value : Value} {i j p : Nat}

theorem entryPosition?_eq_of_index (h : t.index = start.index) :
    t.entryPosition? key = start.entryPosition? key := by
  rw [entryPosition?, entryPosition?, h]

/-- Where a field has a value, a store changes the array part or the entry in place. -/
theorem WellFormed.store_in_place (ht : t.WellFormed) (hcur : t.get key ≠ .nil)
    (value : Value) :
    (∃ n, t.store key value = t.setArray n value) ∨
      ∃ p, t.store key value = t.setEntry p value := by
  have hentry : t.get key = t.getEntry key →
      ∃ p, t.entryPosition? key = some p ∧ t.valueAt p ≠ .nil := fun h => by
    cases hp : t.entryPosition? key with
    | none => exact absurd (h.trans (getEntry_of_none hp)) hcur
    | some p => exact ⟨p, rfl, by rwa [h, getEntry_of_position hp] at hcur⟩
  cases hn : key.position? with
  | none =>
    obtain ⟨p, hp, -⟩ := hentry (get_of_no_position hn)
    exact .inr ⟨p, by rw [Table.store, hn]; simp [Table.storeEntry, hp]⟩
  | some n =>
    by_cases hle : n ≤ t.array.size
    · exact .inl ⟨n, by rw [Table.store, hn]; simp [hle]⟩
    · obtain ⟨p, hp, hvalue⟩ := hentry (by rw [get_of_position hn, if_neg hle])
      have hnext : n ≠ t.array.size + 1 := by
        rintro rfl
        exact hvalue (ht.no_successor hp hn)
      exact .inr ⟨p, by rw [Table.store, hn]; simp [hle, hnext, Table.storeEntry, hp]⟩

/-- Assigning to a field that has a value keeps the shape. -/
theorem SameShape.store (hs : SameShape start t) (hcur : t.get key ≠ .nil) (value : Value) :
    SameShape start (t.store key value) where
  wellFormed := (hs.wellFormed.store key value).1
  index_eq := by
    rcases hs.wellFormed.store_in_place hcur value with ⟨n, h⟩ | ⟨p, h⟩
    · rw [h]; exact hs.index_eq
    · rw [h]; exact hs.index_eq
  entryKeys_eq := by
    rcases hs.wellFormed.store_in_place hcur value with ⟨n, h⟩ | ⟨p, h⟩
    · rw [h]; exact hs.entryKeys_eq
    · rw [h, entryKeys_setEntry, hs.entryKeys_eq]
  size_le := by
    rcases hs.wellFormed.store_in_place hcur value with ⟨n, h⟩ | ⟨p, h⟩
    · rw [h]; exact (setArray_array_size_le value).trans hs.size_le
    · rw [h]; exact hs.size_le
  no_new := by
    intro other hother
    rw [(hs.wellFormed.store key value).2, if_neg]
    · exact hs.no_new other hother
    · rintro ⟨k, hk, hk'⟩
      rw [get_of_same_position hk hk', hs.no_new other hother] at hcur
      exact hcur rfl

end Shape

/-! ## Slots with a value -/

section Live

variable {start t : Table} {key value : Value} {k k' : Key} {i j p : Nat}

theorem slotValue_of_lt {border : Nat} (h : i < border) :
    slotValue border t i = t.array.getD i .nil := by
  rw [slotValue, if_pos h]

theorem slotValue_entry (border : Nat) (t : Table) (p : Nat) :
    slotValue border t (border + p) = t.valueAt p := by
  rw [slotValue, if_neg (by omega), Nat.add_sub_cancel_left]

theorem slotKey_of_lt (h : i < t.array.size) : t.slotKey i = .ofNat (i + 1) := by
  rw [slotKey, if_pos h]

theorem slotKey_entry (h : t.entries[p]? = some (key, value)) :
    t.slotKey (t.array.size + p) = key := by
  rw [slotKey, if_neg (by omega), Nat.add_sub_cancel_left, Array.getD_eq_getD_getElem?, h]
  rfl

theorem isLive_iff : t.isLive i = true ↔ slotValue t.array.size t i ≠ .nil := by
  rw [isLive, Bool.not_eq_true', isNil_eq_false_iff]

theorem WellFormed.position_slotKey (ht : t.WellFormed) (h : i < t.array.size) :
    (t.slotKey i).position? = some (i + 1) := by
  have hsize := ht.array_size
  rw [slotKey_of_lt h]
  exact Value.position?_ofNat (by omega) (by omega)

theorem getElem?_of_valueAt_ne_nil (h : t.valueAt p ≠ .nil) :
    ∃ key, t.entries[p]? = some (key, t.valueAt p) := by
  cases hp : t.entries[p]? with
  | none =>
    rw [valueAt, Array.getD_eq_getD_getElem?, hp] at h
    exact absurd rfl h
  | some pair => exact ⟨pair.1, by rw [valueAt_of_getElem? hp]⟩

/-- An entry with a key and a value is where the index leads, and what the key is looked up for. -/
theorem WellFormed.indexed_entry (ht : t.WellFormed) (hentry : t.entries[p]? = some (key, value))
    (hvalue : value ≠ .nil) (hk : Key.ofValue? key = some k) :
    t.index[k]? = some p ∧ t.get key = value := by
  have hindex := ht.index_of_entry hentry hvalue hk
  have hposition : t.entryPosition? key = some p := by rw [entryPosition?_of_key hk, hindex]
  refine ⟨hindex, ?_⟩
  rw [get_of_behind fun n hn => ht.behind_array hposition hn, getEntry_of_position hposition,
    valueAt_of_getElem? hentry]

/-- An entry with a value, in a table whose entries all have keys, is where the index leads. -/
theorem WellFormed.live_entry (ht : t.WellFormed) (hkeyed : t.Keyed) (h : t.valueAt p ≠ .nil) :
    ∃ key k, t.entries[p]? = some (key, t.valueAt p) ∧ Key.ofValue? key = some k ∧
      t.index[k]? = some p ∧ t.get key = t.valueAt p := by
  obtain ⟨key, hentry⟩ := getElem?_of_valueAt_ne_nil h
  obtain ⟨k, hk⟩ := hkeyed key (mem_entryKeys_of_getElem? hentry)
  exact ⟨key, k, hentry, hk, ht.indexed_entry hentry h hk⟩

/-- A key that a table has is looked up in the same slot in all later states. -/
theorem SameShape.get_slotKey (hs : SameShape start t) (hstart : start.WellFormed)
    (hkeyed : start.Keyed) (hlive : start.isLive i = true) :
    t.get (start.slotKey i) = slotValue start.array.size t i := by
  rw [isLive_iff] at hlive
  have hsize := hs.size_le
  by_cases hi : i < start.array.size
  · have hn := hstart.position_slotKey hi
    have hnone := hstart.entryPosition?_of_le hn (by omega)
    rw [← entryPosition?_eq_of_index hs.index_eq] at hnone
    rw [get_of_unindexed hn hnone, slotValue_of_lt hi, Nat.add_sub_cancel]
  · obtain ⟨p, rfl⟩ := Nat.exists_eq_add_of_le (Nat.le_of_not_lt hi)
    rw [slotValue_entry] at hlive
    obtain ⟨key, k, hentry, hk, hindex, -⟩ := hstart.live_entry hkeyed hlive
    have hposition : t.entryPosition? key = some p := by
      rw [entryPosition?_of_key hk, hs.index_eq, hindex]
    rw [slotKey_entry hentry, slotValue_entry,
      get_of_behind fun n hn => hs.wellFormed.behind_array hposition hn,
      getEntry_of_position hposition]

theorem SameShape.keyed (hs : SameShape start t) (hkeyed : start.Keyed) : t.Keyed := by
  intro key hkey
  rw [hs.entryKeys_eq] at hkey
  exact hkeyed key hkey

theorem SameShape.entry_key (hs : SameShape start t) (h : t.entries[p]? = some (key, value)) :
    ∃ old, start.entries[p]? = some (key, old) := by
  have hkeys := congrArg (fun l => l[p]?) hs.entryKeys_eq
  simp only [entryKeys, List.getElem?_map, Array.getElem?_toList, h, Option.map_some] at hkeys
  obtain ⟨⟨key', old⟩, hpair, rfl⟩ := Option.map_eq_some_iff.1 hkeys.symm
  exact ⟨old, hpair⟩

/-- A slot that has a value had one at the start. -/
theorem SameShape.isLive_of_value (hs : SameShape start t) (hstart : start.WellFormed)
    (hkeyed : start.Keyed) (h : slotValue start.array.size t i ≠ .nil) :
    start.isLive i = true := by
  rw [isLive_iff]
  have hsize := hs.size_le
  by_cases hi : i < start.array.size
  · have hn := hstart.position_slotKey hi
    have hnone := hstart.entryPosition?_of_le hn (by omega)
    have hnone' := (entryPosition?_eq_of_index hs.index_eq).trans hnone
    rw [slotValue_of_lt hi] at h ⊢
    intro hnil
    have hget := get_of_unindexed hn hnone
    have hget' := get_of_unindexed hn hnone'
    rw [Nat.add_sub_cancel] at hget hget'
    exact h (hget' ▸ hs.no_new _ (hget.trans hnil))
  · obtain ⟨p, rfl⟩ := Nat.exists_eq_add_of_le (Nat.le_of_not_lt hi)
    rw [slotValue_entry] at h ⊢
    obtain ⟨key, k, hentry, hk, hindex, hget⟩ := hs.wellFormed.live_entry (hs.keyed hkeyed) h
    rw [hs.index_eq] at hindex
    have hposition : start.entryPosition? key = some p := by
      rw [entryPosition?_of_key hk, hindex]
    intro hnil
    refine h (hget ▸ hs.no_new key ?_)
    rw [get_of_behind fun n hn => hstart.behind_array hposition hn,
      getEntry_of_position hposition, hnil]

/-- No two slots with a value have raw-equal keys. -/
theorem WellFormed.slot_injective (ht : t.WellFormed) (hkeyed : t.Keyed)
    (hi : t.isLive i = true) (hj : t.isLive j = true)
    (hki : Key.ofValue? (t.slotKey i) = some k) (hkj : Key.ofValue? (t.slotKey j) = some k) :
    i = j := by
  -- an array slot and an entry cannot share a key
  have hapart : ∀ {m p : Nat}, m < t.array.size → t.isLive (t.array.size + p) = true →
      Key.ofValue? (t.slotKey m) = some k →
      Key.ofValue? (t.slotKey (t.array.size + p)) ≠ some k := by
    intro m p hm hp hkm hkp
    rw [isLive_iff, slotValue_entry] at hp
    obtain ⟨key, k', hentry, hk', hindex, -⟩ := ht.live_entry hkeyed hp
    rw [slotKey_entry hentry] at hkp
    have hn := (Key.position?_congr hkm hkp).symm.trans (ht.position_slotKey hm)
    have := ht.behind_array (by rw [entryPosition?_of_key hk', hindex]) hn
    omega
  by_cases hia : i < t.array.size <;> by_cases hja : j < t.array.size
  · have hpi := ht.position_slotKey hia
    rw [Key.position?_congr hki hkj, ht.position_slotKey hja] at hpi
    have := Option.some.inj hpi
    omega
  · obtain ⟨q, rfl⟩ := Nat.exists_eq_add_of_le (Nat.le_of_not_lt hja)
    exact absurd hkj (hapart hia hj hki)
  · obtain ⟨p, rfl⟩ := Nat.exists_eq_add_of_le (Nat.le_of_not_lt hia)
    exact absurd hki (hapart hja hi hkj)
  · obtain ⟨p, rfl⟩ := Nat.exists_eq_add_of_le (Nat.le_of_not_lt hia)
    obtain ⟨q, rfl⟩ := Nat.exists_eq_add_of_le (Nat.le_of_not_lt hja)
    rw [isLive_iff, slotValue_entry] at hi hj
    obtain ⟨key, k₁, hentry, hk₁, hindex, -⟩ := ht.live_entry hkeyed hi
    obtain ⟨key', k₂, hentry', hk₂, hindex', -⟩ := ht.live_entry hkeyed hj
    rw [slotKey_entry hentry, hk₁] at hki
    rw [slotKey_entry hentry', hk₂] at hkj
    cases hki
    cases hkj
    rw [Option.some.inj (hindex.symm.trans hindex')]

/-- Every key with a value has a slot. -/
theorem WellFormed.exists_slot (ht : t.WellFormed) (h : t.get key ≠ .nil) :
    ∃ i k, t.isLive i = true ∧ Key.ofValue? key = some k ∧
      Key.ofValue? (t.slotKey i) = some k := by
  have hentry : t.get key = t.getEntry key → ∃ i k, t.isLive i = true ∧
      Key.ofValue? key = some k ∧ Key.ofValue? (t.slotKey i) = some k := by
    intro hget
    cases hp : t.entryPosition? key with
    | none => exact absurd (hget.trans (getEntry_of_none hp)) h
    | some p =>
      obtain ⟨k, hk, hindex⟩ := exists_key_of_position hp
      obtain ⟨key', hentry, hk'⟩ := ht.entry_of_index hindex
      refine ⟨t.array.size + p, k, ?_, hk, ?_⟩
      · rwa [isLive_iff, slotValue_entry, ← getEntry_of_position hp, ← hget]
      · rw [slotKey_entry hentry, hk']
  cases hn : key.position? with
  | none => exact hentry (get_of_no_position hn)
  | some n =>
    by_cases hle : n ≤ t.array.size
    · obtain ⟨hpos, -, hkey⟩ := Value.position?_eq_some_iff.1 hn
      obtain ⟨k, hk⟩ := Key.exists_of_position? hn
      have hslot : t.slotKey (n - 1) = key := by
        rw [slotKey_of_lt (by omega), hkey, Nat.sub_add_cancel hpos]
      refine ⟨n - 1, k, ?_, hk, by rw [hslot, hk]⟩
      rw [get_of_position hn, if_pos hle] at h
      rwa [isLive_iff, slotValue_of_lt (by omega)]
    · exact hentry (by rw [get_of_position hn, if_neg hle])

end Live

/-! ## The next slot -/

section Next

theorem findFrom?_some {α : Type} {f : α → Bool} {a : Array α} {i j : Nat} {x : α}
    (h : findFrom? f a i = some (j, x)) :
    i ≤ j ∧ a[j]? = some x ∧ f x = true ∧
      ∀ m y, i ≤ m → m < j → a[m]? = some y → f y = false := by
  fun_induction findFrom? f a i with
  | case1 i hi hf =>
    cases h
    refine ⟨le_rfl, Array.getElem?_eq_getElem hi, hf, fun m y hm hm' => ?_⟩
    omega
  | case2 i hi hf ih =>
    obtain ⟨hle, hx, hfx, hbefore⟩ := ih h
    refine ⟨by omega, hx, hfx, fun m y hm hm' hy => ?_⟩
    rcases hm.eq_or_lt with rfl | hlt
    · rw [Array.getElem?_eq_getElem hi] at hy
      rw [← Option.some.inj hy]
      simpa using hf
    · exact hbefore m y hlt hm' hy
  | case3 => cases h

theorem findFrom?_none {α : Type} {f : α → Bool} {a : Array α} {i : Nat}
    (h : findFrom? f a i = none) : ∀ m y, i ≤ m → a[m]? = some y → f y = false := by
  fun_induction findFrom? f a i with
  | case1 => cases h
  | case2 i hi hf ih =>
    intro m y hm hy
    rcases hm.eq_or_lt with rfl | hlt
    · rw [Array.getElem?_eq_getElem hi] at hy
      rw [← Option.some.inj hy]
      simpa using hf
    · exact ih h m y hlt hy
  | case3 i hi =>
    intro m y hm hy
    have := (Array.getElem?_eq_some_iff.1 hy).1
    omega

variable {start t : Table} {key value last : Value} {k : Key} {i j p : Nat}

/-- What a traversal finds from a slot on: the first slot with a value, if there is one. -/
def FoundFrom (start t : Table) (j : Nat) : Option (Value × Value) → Prop
  | some pair => ∃ i, j ≤ i ∧ slotValue start.array.size t i ≠ .nil ∧
      (∀ m, j ≤ m → m < i → slotValue start.array.size t m = .nil) ∧
      pair = (start.slotKey i, slotValue start.array.size t i)
  | none => ∀ m, j ≤ m → slotValue start.array.size t m = .nil

theorem SameShape.firstEntry? (hs : SameShape start t) (p : Nat) :
    FoundFrom start t (start.array.size + p) (t.firstEntry? p) := by
  rw [Table.firstEntry?]
  cases h : findFrom? (fun pair => !pair.2.isNil) t.entries p with
  | none =>
    intro m hm
    obtain ⟨q, rfl⟩ := Nat.exists_eq_add_of_le (Nat.le_of_add_right_le hm)
    rw [slotValue_entry]
    by_contra hne
    obtain ⟨key, hentry⟩ := getElem?_of_valueAt_ne_nil hne
    have := findFrom?_none h q _ (by omega) hentry
    rw [Bool.not_eq_false', isNil_iff] at this
    exact hne this
  | some found =>
    obtain ⟨q, key, value⟩ := found
    obtain ⟨hle, hentry, hlive, hbefore⟩ := findFrom?_some h
    rw [Bool.not_eq_true', isNil_eq_false_iff] at hlive
    obtain ⟨old, hold⟩ := hs.entry_key hentry
    refine ⟨start.array.size + q, by omega, ?_, ?_, ?_⟩
    · rwa [slotValue_entry, valueAt_of_getElem? hentry]
    · intro m hm hm'
      obtain ⟨q', rfl⟩ := Nat.exists_eq_add_of_le (Nat.le_of_add_right_le hm)
      rw [slotValue_entry]
      by_contra hne
      obtain ⟨key', hentry'⟩ := getElem?_of_valueAt_ne_nil hne
      have := hbefore q' _ (by omega) (by omega) hentry'
      rw [Bool.not_eq_false', isNil_iff] at this
      exact hne this
    · rw [slotKey_entry hold, slotValue_entry, valueAt_of_getElem? hentry]

theorem SameShape.firstFrom? (hs : SameShape start t) (hi : i ≤ start.array.size) :
    FoundFrom start t i (t.firstFrom? i) := by
  have hsize := hs.size_le
  -- the slots of the array part that the search has passed hold nil
  have hnil : ∀ m, m < start.array.size →
      (∀ y, t.array[m]? = some y → (!y.isNil) = false) →
      slotValue start.array.size t m = .nil := by
    intro m hm h
    rw [slotValue_of_lt hm, Array.getD_eq_getD_getElem?]
    cases hy : t.array[m]? with
    | none => rfl
    | some y =>
      have := h y hy
      rw [Bool.not_eq_false', isNil_iff] at this
      rw [this]
      rfl
  rw [Table.firstFrom?]
  cases h : findFrom? (fun value => !value.isNil) t.array i with
  | some found =>
    obtain ⟨j, value⟩ := found
    obtain ⟨hle, hvalue, hlive, hbefore⟩ := findFrom?_some h
    have hj := (Array.getElem?_eq_some_iff.1 hvalue).1
    rw [Bool.not_eq_true', isNil_eq_false_iff] at hlive
    have hslot : slotValue start.array.size t j = value := by
      rw [slotValue_of_lt (by omega), Array.getD_eq_getD_getElem?, hvalue]
      rfl
    refine ⟨j, hle, by rwa [hslot], fun m hm hm' => ?_, ?_⟩
    · exact hnil m (by omega) fun y hy => hbefore m y hm hm' hy
    · rw [slotKey_of_lt (by omega), hslot]
  | none =>
    have hrest := hs.firstEntry? 0
    have hpassed : ∀ m, i ≤ m → m < start.array.size →
        slotValue start.array.size t m = .nil := fun m hm hm' =>
      hnil m hm' fun y hy => findFrom?_none h m y hm hy
    dsimp only
    cases hfound : t.firstEntry? 0 with
    | none =>
      rw [hfound] at hrest
      intro m hm
      by_cases hm' : m < start.array.size
      · exact hpassed m hm hm'
      · exact hrest m (by omega)
    | some pair =>
      rw [hfound] at hrest
      obtain ⟨q, hle, hlive, hbefore, hpair⟩ := hrest
      refine ⟨q, by omega, hlive, fun m hm hm' => ?_, hpair⟩
      by_cases hm'' : m < start.array.size
      · exact hpassed m hm hm''
      · exact hbefore m (by omega) hm'

/-- A key from which the traversal goes on at a slot: nil at the first one, and the key of a slot
that had a value at the one behind it. -/
def Resumes (start : Table) (last : Value) (j : Nat) : Prop :=
  (last = .nil ∧ j = 0) ∨ ∃ i, start.isLive i = true ∧ last = start.slotKey i ∧ j = i + 1

/-- Called on the key of a slot that had a value, `next` goes on behind the slot. -/
theorem SameShape.next_slot (hs : SameShape start t) (hstart : start.WellFormed)
    (hlive : start.isLive i = true) (hk : Key.ofValue? (start.slotKey i) = some k) :
    ∃ found, t.next (start.slotKey i) = .ok found ∧ FoundFrom start t (i + 1) found := by
  have hsize := hs.size_le
  by_cases hi : i < start.array.size
  · -- an integer of the array part, whose slot may have been cut off since
    have hn := hstart.position_slotKey hi
    have hnone : t.entryPosition? (start.slotKey i) = none := by
      rw [entryPosition?_eq_of_index hs.index_eq]
      exact hstart.entryPosition?_of_le hn (by omega)
    refine ⟨t.firstFrom? (i + 1), ?_, hs.firstFrom? (by omega)⟩
    rw [slotKey_of_lt hi] at hn hnone ⊢
    rw [Table.next, hn, hnone]
    · simp
    · exact fun h => by cases h
  · obtain ⟨p, rfl⟩ := Nat.exists_eq_add_of_le (Nat.le_of_not_lt hi)
    rw [isLive_iff, slotValue_entry] at hlive
    obtain ⟨key, hentry⟩ := getElem?_of_valueAt_ne_nil hlive
    rw [slotKey_entry hentry] at hk ⊢
    obtain ⟨hindex, -⟩ := hstart.indexed_entry hentry hlive hk
    have hposition : t.entryPosition? key = some p := by
      rw [entryPosition?_of_key hk, hs.index_eq, hindex]
    refine ⟨t.firstEntry? (p + 1), ?_, by simpa [Nat.add_assoc] using hs.firstEntry? (p + 1)⟩
    rw [Table.next, hposition]
    · cases hn : key.position? with
      | none => rfl
      | some n =>
        have := hs.wellFormed.behind_array hposition hn
        simp only
        rw [if_neg (by omega)]
    · rintro rfl
      cases hk

theorem WellFormed.exists_key_slot (ht : t.WellFormed) (hkeyed : t.Keyed)
    (hlive : t.isLive i = true) : ∃ k, Key.ofValue? (t.slotKey i) = some k := by
  by_cases hi : i < t.array.size
  · exact Key.exists_of_position? (ht.position_slotKey hi)
  · obtain ⟨p, rfl⟩ := Nat.exists_eq_add_of_le (Nat.le_of_not_lt hi)
    rw [isLive_iff, slotValue_entry] at hlive
    obtain ⟨key, k, hentry, hk, -⟩ := ht.live_entry hkeyed hlive
    exact ⟨k, by rw [slotKey_entry hentry, hk]⟩

/-- `next` never faults on a key that the table had at the start, and goes on behind its slot. -/
theorem SameShape.next (hs : SameShape start t) (hstart : start.WellFormed)
    (hkeyed : start.Keyed) (h : Resumes start last j) :
    ∃ found, t.next last = .ok found ∧ FoundFrom start t j found := by
  rcases h with ⟨rfl, rfl⟩ | ⟨i, hlive, rfl, rfl⟩
  · exact ⟨t.firstFrom? 0, rfl, hs.firstFrom? (Nat.zero_le _)⟩
  · obtain ⟨k, hk⟩ := hstart.exists_key_slot hkeyed hlive
    exact hs.next_slot hstart hlive hk

end Next

end ScriptMachine.Table
