import ScriptMachine.Proofs.Table.Compaction

/-!
# Storing keeps the invariant

A store goes to the array part, pushes it on and lets following integers move over, changes an
entry, or makes a new one.  Each of these keeps a table well formed, gives the key its value and
leaves all other keys theirs.
-/

namespace ScriptMachine.Table

/-! ## The array without the nils at its end -/

theorem dropTrailingNils_getD (a : Array Value) (i : Nat) :
    (dropTrailingNils a).getD i .nil = a.getD i .nil := by
  fun_induction dropTrailingNils a with
  | case1 a hpos hnil ih =>
    rw [ih, Array.getD_eq_getD_getElem?, Array.getD_eq_getD_getElem?, Array.getElem?_pop]
    split
    · rfl
    · rename_i hi
      rcases Nat.lt_or_ge i a.size with hlt | hge
      · obtain rfl : i = a.size - 1 := by omega
        rw [Array.getElem?_eq_getElem hlt, Option.getD_some, (isNil_iff _).1 hnil]
        rfl
      · rw [Array.getElem?_eq_none hge]
  | case2 => rfl
  | case3 => rfl

theorem size_dropTrailingNils_le (a : Array Value) : (dropTrailingNils a).size ≤ a.size := by
  fun_induction dropTrailingNils a with
  | case1 a hpos hnil ih => exact ih.trans (by simp)
  | case2 => exact le_rfl
  | case3 => exact le_rfl

theorem back?_dropTrailingNils (a : Array Value) : (dropTrailingNils a).back? ≠ some .nil := by
  fun_induction dropTrailingNils a with
  | case1 a hpos hnil ih => exact ih
  | case2 a hpos hnil =>
    rw [Array.back?, Array.getElem?_eq_getElem (by omega)]
    intro h
    exact hnil ((isNil_iff _).2 (Option.some.inj h))
  | case3 a hpos =>
    rw [Array.back?, Array.getElem?_eq_none (by omega)]
    simp

/-! ## Looking up in either part -/

section Get

variable {t : Table} {key other value : Value} {k : Key} {p n : Nat}

theorem get_of_no_position (h : key.position? = none) : t.get key = t.getEntry key := by
  rw [get, h]

theorem get_of_position (h : key.position? = some n) :
    t.get key = if n ≤ t.array.size then t.array.getD (n - 1) .nil else t.getEntry key := by
  rw [get, h]

theorem get_of_behind (h : ∀ n, key.position? = some n → t.array.size < n) :
    t.get key = t.getEntry key := by
  cases hn : key.position? with
  | none => exact get_of_no_position hn
  | some n => rw [get_of_position hn, if_neg (by have := h n hn; omega)]

/-- Where no entry answers, an integer's value is that of its slot, nil when it has none. -/
theorem get_of_unindexed (h : key.position? = some n) (hp : t.entryPosition? key = none) :
    t.get key = t.array.getD (n - 1) .nil := by
  rw [get_of_position h]
  split
  · rfl
  · have hpos := (Value.position?_eq_some_iff.1 h).1
    rw [getEntry_of_none hp, Array.getD_eq_getD_getElem?, Array.getElem?_eq_none (by omega)]
    rfl

theorem Sound.entryPosition?_of_le (ht : t.Sound) (h : key.position? = some n)
    (hn : n ≤ t.array.size) : t.entryPosition? key = none := by
  cases hp : t.entryPosition? key with
  | none => rfl
  | some p =>
    have := ht.behind_array hp h
    omega

theorem Sound.get_dropEntry (ht : t.Sound) (hp : t.index[k]? = some p) (other : Value) :
    (t.dropEntry k p).get other =
      if Key.ofValue? other = some k then .nil else t.get other := by
  have hentry := ht.getEntry_dropEntry hp other
  cases hn : other.position? with
  | none => rw [get_of_no_position hn, get_of_no_position hn, hentry]
  | some n =>
    rw [get_of_position hn, get_of_position hn, hentry, dropEntry_array]
    by_cases hle : n ≤ t.array.size
    · rw [if_pos hle, if_pos hle, if_neg]
      intro hother
      have hnone := ht.entryPosition?_of_le hn hle
      rw [entryPosition?_of_key hother, hp] at hnone
      cases hnone
    · rw [if_neg hle, if_neg hle]

end Get

/-! ## Storing in the array part -/

section SetArray

variable {t : Table} {key other : Value} {n : Nat}

theorem setArray_array_size_le (value : Value) :
    (t.setArray n value).array.size ≤ t.array.size := by
  refine (size_dropTrailingNils_le _).trans ?_
  simp

@[simp] theorem setArray_entryPosition? (value : Value) :
    (t.setArray n value).entryPosition? key = t.entryPosition? key := rfl

theorem WellFormed.setArray (ht : t.WellFormed) (n : Nat) (value : Value) :
    (t.setArray n value).WellFormed where
  array_size := (setArray_array_size_le value).trans ht.array_size
  array_back := back?_dropTrailingNils _
  entry_of_index := ht.entry_of_index
  index_of_entry := ht.index_of_entry
  behind_array := fun hp hn => (setArray_array_size_le value).trans_lt (ht.behind_array hp hn)
  live_eq := ht.live_eq
  no_successor := by
    intro key p hp hn
    rcases (setArray_array_size_le value).eq_or_lt with heq | hlt
    · rw [heq] at hn
      exact ht.no_successor hp hn
    · -- a slot that was cut off is not among the entries
      have := ht.behind_array hp hn
      omega

theorem Sound.get_setArray (ht : t.Sound) (hkey : key.position? = some n)
    (hn : n ≤ t.array.size) (value other : Value) :
    (t.setArray n value).get other = if other.position? = some n then value else t.get other := by
  cases hm : other.position? with
  | none => rw [get_of_no_position hm, get_of_no_position hm, if_neg (by simp)]; rfl
  | some m =>
    by_cases hle : m ≤ t.array.size
    · have hpos := (Value.position?_eq_some_iff.1 hkey).1
      have hpos' := (Value.position?_eq_some_iff.1 hm).1
      have hnone := ht.entryPosition?_of_le hm hle
      rw [get_of_unindexed hm (by simpa using hnone), get_of_unindexed hm hnone, Table.setArray,
        dropTrailingNils_getD, Array.getD_eq_getD_getElem?, Array.getElem?_setIfInBounds]
      by_cases hmn : m = n
      · rw [hmn, if_pos rfl, if_pos (by omega), if_pos rfl]
        rfl
      · rw [if_neg (by omega), if_neg (by simpa using hmn), Array.getD_eq_getD_getElem?]
    · have hsize := setArray_array_size_le (t := t) (n := n) value
      rw [get_of_position hm, get_of_position hm, if_neg (by omega), if_neg hle,
        if_neg (by rintro ⟨⟩; omega)]
      rfl

end SetArray

/-! ## Pushing the array part on -/

section Push

variable {t : Table} {key other value : Value} {k : Key} {p n : Nat}

theorem Sound.push_array (ht : t.Sound) (hvalue : value ≠ .nil) (hsize : t.array.size < 2 ^ 53)
    (hnone : ∀ key, key.position? = some (t.array.size + 1) → t.entryPosition? key = none) :
    Sound { t with array := t.array.push value } where
  array_size := by simpa using hsize
  array_back := by simpa using hvalue
  entry_of_index := ht.entry_of_index
  index_of_entry := ht.index_of_entry
  behind_array := by
    intro key p n hp hn
    have hlt := ht.behind_array hp hn
    have hne : n ≠ t.array.size + 1 := by
      rintro rfl
      exact absurd (hp.symm.trans (hnone key hn)) (by simp)
    simp only [Array.size_push]
    omega
  live_eq := ht.live_eq

theorem get_push_array (t : Table) (value other : Value) :
    ({ t with array := t.array.push value } : Table).get other =
      if other.position? = some (t.array.size + 1) then value else t.get other := by
  cases hn : other.position? with
  | none => rw [get_of_no_position hn, get_of_no_position hn, if_neg (by simp)]; rfl
  | some n =>
    have hpos := (Value.position?_eq_some_iff.1 hn).1
    rw [get_of_position hn, get_of_position hn]
    simp only [Array.size_push, Option.some.injEq, Array.getD_eq_getD_getElem?, Array.getElem?_push]
    by_cases heq : n = t.array.size + 1
    · simp [heq]
    · by_cases hle : n ≤ t.array.size
      · rw [if_pos (by omega), if_neg (by omega), if_neg heq, if_pos hle]
      · rw [if_neg (by omega), if_neg heq, if_neg hle]
        rfl

/-- Past 2^53 there is no next integer, so nothing is looked for behind a full array part. -/
theorem Sound.lt_of_successor (ht : t.Sound)
    (h : t.entryPosition? (.ofNat (t.array.size + 1)) = some p) : t.array.size < 2 ^ 53 := by
  rcases ht.array_size.lt_or_eq with hlt | heq
  · exact hlt
  · have htop : Value.ofNat (2 ^ 53 + 1) = .ofNat (2 ^ 53) :=
      congrArg Value.number Number.ofNat_past_top
    rw [heq, htop] at h
    have := ht.behind_array h (Value.position?_ofNat (by norm_num) le_rfl)
    omega

theorem nextPosition?_eq_some_iff : t.nextPosition? = some (k, p) ↔
    Key.ofValue? (.ofNat (t.array.size + 1)) = some k ∧ t.index[k]? = some p := by
  rw [nextPosition?, Option.bind_eq_some_iff]
  constructor
  · rintro ⟨key, hkey, h⟩
    obtain ⟨q, hq, hpair⟩ := Option.map_eq_some_iff.1 h
    cases hpair
    exact ⟨hkey, hq⟩
  · rintro ⟨hkey, hp⟩
    exact ⟨k, hkey, by rw [hp]; rfl⟩

theorem Sound.wellFormed_of_next (ht : t.Sound)
    (h : ∀ k p, t.nextPosition? = some (k, p) → t.valueAt p = .nil) : t.WellFormed where
  toSound := ht
  no_successor := by
    intro key p hp hn
    obtain ⟨k, hk, hindex⟩ := exists_key_of_position hp
    obtain ⟨-, -, rfl⟩ := Value.position?_eq_some_iff.1 hn
    exact h k p (nextPosition?_eq_some_iff.2 ⟨hk, hindex⟩)

/-- The integer behind the border moves over from the entries. -/
def moveNext (t : Table) (k : Key) (p : Nat) : Table :=
  let moved := t.dropEntry k p
  { moved with array := moved.array.push (t.valueAt p) }

theorem Sound.moveNext (ht : t.Sound) (h : t.nextPosition? = some (k, p))
    (hvalue : t.valueAt p ≠ .nil) :
    (t.moveNext k p).Sound ∧ ∀ other, (t.moveNext k p).get other = t.get other := by
  obtain ⟨hkey, hp⟩ := nextPosition?_eq_some_iff.1 h
  have hposition := entryPosition?_of_key hkey ▸ hp
  have hlt := ht.lt_of_successor hposition
  have hnext := Value.position?_ofNat (n := t.array.size + 1) (by omega) (by omega)
  refine ⟨(ht.dropEntry hp).push_array hvalue hlt ?_, ?_⟩
  · intro key hn
    rw [Value.eq_of_position? hn hnext, dropEntry_entryPosition?, if_pos hkey]
  · intro other
    rw [Table.moveNext, get_push_array, ht.get_dropEntry hp]
    split
    · rename_i hother
      rw [Value.eq_of_position? hother hnext, get_of_position hnext, if_neg (by omega),
        getEntry_of_position hposition]
    · rename_i hother
      rw [if_neg]
      intro hk
      exact hother ((Key.position?_congr hk hkey).trans hnext)

theorem Sound.migrateUpTo (count : Nat) :
    ∀ {t : Table}, t.Sound → t.index.size ≤ count →
      (migrateUpTo count t).WellFormed ∧ ∀ other, (migrateUpTo count t).get other = t.get other := by
  induction count with
  | zero =>
    intro t ht hcount
    refine ⟨ht.wellFormed_of_next ?_, fun _ => rfl⟩
    intro k p h
    have hsize := index_size_dropEntry (nextPosition?_eq_some_iff.1 h).2
    omega
  | succ count ih =>
    intro t ht hcount
    rw [Table.migrateUpTo]
    split
    · rename_i hnone
      refine ⟨ht.wellFormed_of_next ?_, fun _ => rfl⟩
      intro k p h
      rw [hnone] at h
      cases h
    · rename_i k p h
      dsimp only
      split
      · rename_i hnil
        refine ⟨ht.wellFormed_of_next ?_, fun _ => rfl⟩
        intro k' p' h'
        cases h.symm.trans h'
        exact (isNil_iff _).1 hnil
      · rename_i hnil
        -- the key has left the index, which leaves room for the rest of the fuel
        obtain ⟨hmoved, hget⟩ := ht.moveNext h fun h => hnil ((isNil_iff _).2 h)
        have hsize := index_size_dropEntry (nextPosition?_eq_some_iff.1 h).2
        obtain ⟨hwf, hget'⟩ := ih hmoved (by simp only [Table.moveNext]; omega)
        exact ⟨hwf, fun other => (hget' other).trans (hget other)⟩

/-- Before the array part grows, the entry of the key is dropped, if there is one. -/
theorem exists_push_eq (t : Table) (key value : Value) :
    ∃ cleared : Table,
      t.push key value = migrate { cleared with array := cleared.array.push value } ∧
      (t.entryPosition? key = none ∧ cleared = t ∨
        ∃ k p, Key.ofValue? key = some k ∧ t.index[k]? = some p ∧ cleared = t.dropEntry k p) := by
  rw [Table.push]
  refine ⟨_, rfl, ?_⟩
  split
  · rename_i k hk
    split
    · rename_i p hp
      exact .inr ⟨k, p, hk, hp, rfl⟩
    · rename_i hp
      exact .inl ⟨by rw [entryPosition?_of_key hk, hp], rfl⟩
  · rename_i hk
    exact .inl ⟨entryPosition?_of_keyless hk, rfl⟩

theorem WellFormed.push (ht : t.WellFormed) (hn : key.position? = some (t.array.size + 1))
    (hvalue : value ≠ .nil) :
    (t.push key value).WellFormed ∧ ∀ other, (t.push key value).get other =
      if other.position? = some (t.array.size + 1) then value else t.get other := by
  obtain ⟨-, hle, rfl⟩ := Value.position?_eq_some_iff.1 hn
  obtain ⟨cleared, hpush, hcleared⟩ := exists_push_eq t (.ofNat (t.array.size + 1)) value
  -- whether or not the key had an entry, none is left of it and nothing else has changed
  obtain ⟨hsound, harray, hnone, hget⟩ : cleared.Sound ∧ cleared.array = t.array ∧
      cleared.entryPosition? (.ofNat (t.array.size + 1)) = none ∧
      ∀ other, other.position? ≠ some (t.array.size + 1) → cleared.get other = t.get other := by
    rcases hcleared with ⟨hnone, rfl⟩ | ⟨k, p, hk, hp, rfl⟩
    · exact ⟨ht.toSound, rfl, hnone, fun _ _ => rfl⟩
    · refine ⟨ht.toSound.dropEntry hp, rfl, ?_, ?_⟩
      · rw [dropEntry_entryPosition?, if_pos hk]
      · intro other hother
        rw [ht.toSound.get_dropEntry hp, if_neg]
        intro hk'
        exact hother ((Key.position?_congr hk' hk).trans hn)
  have hpushed : Sound { cleared with array := cleared.array.push value } := by
    refine hsound.push_array hvalue (by rw [harray]; omega) ?_
    intro key hkey
    rw [harray] at hkey
    rw [Value.eq_of_position? hkey hn, hnone]
  obtain ⟨hwf, hmigrate⟩ := hpushed.migrateUpTo _ le_rfl
  rw [hpush]
  refine ⟨hwf, fun other => ?_⟩
  rw [migrate, hmigrate, get_push_array, harray]
  split
  · rfl
  · rename_i hother
    exact hget other hother

end Push

/-! ## Storing among the entries -/

section StoreEntry

variable {t : Table} {key other value : Value} {n : Nat}

theorem getEntry_eq_nil_of_none (h : t.entryPosition? key = none)
    (hbehind : ∀ n, key.position? = some n → t.array.size < n) : t.get key = .nil := by
  rw [get_of_behind hbehind, getEntry_of_none h]

theorem WellFormed.setEntry {k : Key} {p : Nat} (ht : t.WellFormed)
    (hp : t.index[k]? = some p) (hkey : Key.ofValue? key = some k)
    (hsucc : key.position? = some (t.array.size + 1) → value = .nil) :
    (t.setEntry p value).WellFormed where
  toSound := ht.toSound.setEntry hp value
  no_successor := by
    intro key' q hq hn
    rw [valueAt_setEntry (ht.lt_of_index hp)]
    obtain ⟨k', hk', hindex⟩ := exists_key_of_position hq
    split
    · rename_i hpq
      subst hpq
      obtain rfl := ht.index_injective hp hindex
      exact hsucc ((Key.position?_congr hkey hk').trans hn)
    · exact ht.no_successor hq hn

theorem WellFormed.append (ht : t.WellFormed) (hnew : t.entryPosition? key = none)
    (hvalue : value ≠ .nil) (hbehind : ∀ n, key.position? = some n → t.array.size + 1 < n) :
    (t.append key value).WellFormed where
  toSound := ht.toSound.append hnew hvalue fun n hn => by have := hbehind n hn; omega
  no_successor := by
    intro key' p hp hn
    rw [append_entryPosition?] at hp
    split at hp
    · rename_i h
      obtain ⟨k, hk, hk'⟩ := h
      have := hbehind _ ((Key.position?_congr hk hk').trans hn)
      simp at this
    · obtain ⟨k, hk, hindex⟩ := exists_key_of_position hp
      rw [append_valueAt, if_neg (ht.lt_of_index hindex).ne]
      exact ht.no_successor hp hn

theorem get_of_same_position {a b : Value} {k : Key} (ha : Key.ofValue? a = some k)
    (hb : Key.ofValue? b = some k) : t.get a = t.get b := by
  have hentry : t.getEntry a = t.getEntry b := by
    rw [getEntry, getEntry, entryPosition?_of_key ha, entryPosition?_of_key hb]
  rw [get, get, Key.position?_congr ha hb, hentry]

/-- Where only the entries have changed, so has only what is looked up among them. -/
theorem get_congr {t' : Table} (harray : t'.array = t.array) {key : Value}
    (hentry : t'.getEntry key = t.getEntry key) : t'.get key = t.get key := by
  rw [get, get, harray, hentry]

theorem WellFormed.storeEntry (ht : t.WellFormed)
    (hbehind : ∀ n, key.position? = some n → t.array.size < n)
    (hsucc : key.position? = some (t.array.size + 1) → value = .nil) :
    (t.storeEntry key value).WellFormed ∧ ∀ other, (t.storeEntry key value).get other =
      if ∃ k, Key.ofValue? key = some k ∧ Key.ofValue? other = some k then value
      else t.get other := by
  rw [Table.storeEntry]
  cases hp : t.entryPosition? key with
  | some p =>
    obtain ⟨k, hk, hindex⟩ := exists_key_of_position hp
    dsimp only
    refine ⟨ht.setEntry hindex hk hsucc, fun other => ?_⟩
    have hset := ht.toSound.getEntry_setEntry hindex value other
    by_cases hother : Key.ofValue? other = some k
    · rw [if_pos ⟨k, hk, hother⟩, ← get_of_same_position hk hother, get_of_behind,
        ht.toSound.getEntry_setEntry hindex, if_pos hk]
      exact hbehind
    · rw [if_neg (by rintro ⟨k', hk', h⟩; exact hother (hk ▸ hk' ▸ h))]
      exact get_congr setEntry_array (hset.trans (if_neg hother))
  | none =>
    dsimp only
    split
    · rename_i hnil
      obtain rfl := (isNil_iff _).1 hnil
      refine ⟨ht, fun other => ?_⟩
      split
      · rename_i h
        obtain ⟨k, hk, hother⟩ := h
        rw [← get_of_same_position hk hother, getEntry_eq_nil_of_none hp hbehind]
      · rfl
    · rename_i hvalue
      have hvalue : value ≠ .nil := fun h => hvalue ((isNil_iff _).2 h)
      -- compacted or not, the table is well formed and has the same values
      obtain ⟨base, hbase, hwf, harray, hnone, hget⟩ : ∃ base : Table,
          (if t.isSparse then t.compact else t) = base ∧ base.WellFormed ∧
          base.array = t.array ∧ base.entryPosition? key = none ∧
          ∀ other, base.getEntry other = t.getEntry other := by
        split
        · exact ⟨_, rfl, ht.compact, rfl, ht.compact_entryPosition?_none hp,
            ht.toSound.getEntry_compact⟩
        · exact ⟨_, rfl, ht, rfl, hp, fun _ => rfl⟩
      rw [hbase]
      refine ⟨hwf.append hnone hvalue ?_, fun other => ?_⟩
      · intro n hn
        have hlt := hbehind n hn
        have hne : n ≠ t.array.size + 1 := by
          rintro rfl
          exact hvalue (hsucc hn)
        rw [harray]
        omega
      · have happend := hwf.toSound.getEntry_append key value other
        split
        · rename_i h
          obtain ⟨k, hk, hother⟩ := h
          rw [if_pos ⟨k, hk, hother⟩] at happend
          rw [get_of_behind, happend]
          intro n hn
          rw [append_array, harray]
          exact hbehind n ((Key.position?_congr hk hother).trans hn)
        · rename_i h
          rw [if_neg h] at happend
          exact get_congr (append_array.trans harray) (happend.trans (hget other))

end StoreEntry

/-! ## Storing at any key -/

/-- A store keeps a table well formed and changes the value of its key alone. -/
theorem WellFormed.store {t : Table} (ht : t.WellFormed) (key value : Value) :
    (t.store key value).WellFormed ∧ ∀ other, (t.store key value).get other =
      if ∃ k, Key.ofValue? key = some k ∧ Key.ofValue? other = some k then value
      else t.get other := by
  rw [Table.store]
  cases hn : key.position? with
  | none => exact ht.storeEntry (by simp [hn]) (by simp [hn])
  | some n =>
    obtain ⟨k, hk⟩ := Key.exists_of_position? hn
    have hsame : ∀ other, (∃ k, Key.ofValue? key = some k ∧ Key.ofValue? other = some k) ↔
        other.position? = some n := by
      intro other
      constructor
      · rintro ⟨k', hk', hother⟩
        exact (Key.position?_congr hother hk').trans hn
      · intro hother
        exact ⟨k, hk, Value.eq_of_position? hn hother ▸ hk⟩
    simp only [hsame]
    split
    · rename_i hle
      exact ⟨ht.setArray n value, ht.toSound.get_setArray hn hle value⟩
    · rename_i hle
      split
      · rename_i hnext
        obtain ⟨rfl, hvalue⟩ := hnext
        rw [Bool.not_eq_true', isNil_eq_false_iff] at hvalue
        exact ht.push hn hvalue
      · rename_i hnext
        simp only [← hsame]
        refine ht.storeEntry ?_ ?_
        · rw [hn]
          rintro _ ⟨⟩
          omega
        · rw [hn]
          rintro ⟨⟩
          by_contra hvalue
          exact hnext ⟨rfl, by rw [Bool.not_eq_true', isNil_eq_false_iff]; exact hvalue⟩

end ScriptMachine.Table
