import ScriptMachine.Proofs.Table.Border
import ScriptMachine.Proofs.Table.Retrieval

/-!
# Array part, entries and index

After any history the three parts of a table fit each other.  The count of live entries is exact at
every store: what it loses are the values that have moved over to the array part and those that were
replaced, what it gains is the value that was stored, and nothing is taken from it that it does not
hold.  Compaction depends on this count, and it is what keeps the entries from growing with the
history: there are never more than twice as many as have been live at one time, small tables apart.
-/

namespace ScriptMachine.Table

variable {t t' : Table} {key other value : Value} {k : Key} {p n : Nat}

/-! ## The ways of a store -/

/-- What a store of a value at a key can make of a table. -/
inductive Stored (t : Table) (key value : Value) : Table → Prop where
  /-- Another value in the array part. -/
  | array {n : Nat} (hn : key.position? = some n) (hle : n ≤ t.array.size) :
    Stored t key value (t.setArray n value)
  /-- A value behind the border. -/
  | push (hn : key.position? = some (t.array.size + 1)) (hvalue : value ≠ .nil) :
    Stored t key value (t.push key value)
  /-- Another value in an entry. -/
  | entry {p : Nat} (hbehind : ∀ n, key.position? = some n → t.array.size < n)
    (hp : t.entryPosition? key = some p) : Stored t key value (t.setEntry p value)
  /-- Nothing, nil having been stored at a key without an entry. -/
  | absent (hbehind : ∀ n, key.position? = some n → t.array.size < n)
    (hp : t.entryPosition? key = none) (hvalue : value = .nil) : Stored t key value t
  /-- A new entry, perhaps after a compaction. -/
  | append {base : Table} (hbehind : ∀ n, key.position? = some n → t.array.size < n)
    (hp : t.entryPosition? key = none) (hvalue : value ≠ .nil)
    (hbase : base = if t.isSparse then t.compact else t) :
    Stored t key value (base.append key value)

theorem stored_storeEntry (hbehind : ∀ n, key.position? = some n → t.array.size < n)
    (value : Value) : Stored t key value (t.storeEntry key value) := by
  rw [storeEntry]
  split
  · rename_i p hp
    exact .entry hbehind hp
  · rename_i hp
    split
    · rename_i hnil
      exact .absent hbehind hp ((isNil_iff _).1 hnil)
    · rename_i hvalue
      exact .append hbehind hp (fun h => hvalue ((isNil_iff _).2 h)) rfl

/-- A store goes one of these ways. -/
theorem stored_store (t : Table) (key value : Value) : Stored t key value (t.store key value) := by
  rw [store]
  split
  · rename_i n hn
    split
    · rename_i hle
      exact .array hn hle
    · rename_i hle
      split
      · rename_i hnext
        obtain ⟨rfl, hvalue⟩ := hnext
        rw [Bool.not_eq_true', isNil_eq_false_iff] at hvalue
        exact .push hn hvalue
      · refine stored_storeEntry (fun m hm => ?_) value
        rw [hn] at hm
        cases hm
        exact Nat.lt_of_not_le hle
  · rename_i hn
    exact stored_storeEntry (fun m hm => by rw [hn] at hm; cases hm) value

/-! ## The keys of the entries -/

/-- Nil makes no entry. -/
theorem entryKeys_store_nil (t : Table) (key : Value) :
    (t.store key .nil).entryKeys = t.entryKeys := by
  have hstored := stored_store t key .nil
  generalize t.store key .nil = t' at hstored ⊢
  cases hstored with
  | array => rfl
  | push => exact entryKeys_push
  | entry => exact entryKeys_setEntry
  | absent => rfl
  | append _ _ hvalue => exact absurd rfl hvalue

/-- Every entry was made for a key that was given a value. -/
theorem exists_stored_of_mem_entryKeys (history : List Operation) :
    ∀ key ∈ (empty.run history).entryKeys,
      ∃ op ∈ history, ∃ value, op.stored? = some (key, value) ∧ value ≠ .nil := by
  induction history using List.reverseRecOn with
  | nil => exact fun key hkey => nomatch hkey
  | append_singleton history op ih =>
    intro other hother
    have hold : other ∈ (empty.run history).entryKeys →
        ∃ op' ∈ history ++ [op], ∃ value, op'.stored? = some (other, value) ∧ value ≠ .nil := by
      intro hmem
      obtain ⟨op', hop', hstored⟩ := ih other hmem
      exact ⟨op', List.mem_append_left _ hop', hstored⟩
    rw [run_snoc, after_eq] at hother
    split at hother
    · rename_i key value hstored
      rcases mem_entryKeys_of_store hother with hmem | rfl
      · exact hold hmem
      · by_cases hnil : value = .nil
        · rw [hnil, entryKeys_store_nil] at hother
          exact hold hother
        · exact ⟨op, by simp, value, hstored, hnil⟩
    · exact hold hother

theorem ne_nil_of_mem_entryKeys (history : List Operation) :
    ∀ key ∈ (empty.run history).entryKeys, key ≠ .nil := by
  intro key hkey
  obtain ⟨op, -, value, hstored, -⟩ := exists_stored_of_mem_entryKeys history key hkey
  exact stored_ne_nil hstored

/-! ## The parts fit each other -/

/-- The parts of a table fit each other. -/
structure Consistent (t : Table) : Prop where
  /-- The array part does not end in nil. -/
  array_back : t.array.back? ≠ some .nil
  /-- The entries with a value are counted. -/
  live_eq : t.live = liveCount t.entries
  /-- The index leads a key to an entry of that key. -/
  entry_of_index : ∀ {k : Key} {p : Nat}, t.index[k]? = some p →
    ∃ key value, t.entries[p]? = some (key, value) ∧ Key.ofValue? key = some k
  /-- An entry with a value and a key that equals itself is where the index leads. -/
  indexed : ∀ {p : Nat} {key value : Value}, t.entries[p]? = some (key, value) → value ≠ .nil →
    key.rawEq key = true → t.entryPosition? key = some p
  /-- There is one such entry for a key. -/
  unique : ∀ {p q : Nat} {key key' value value' : Value},
    t.entries[p]? = some (key, value) → value ≠ .nil →
    t.entries[q]? = some (key', value') → value' ≠ .nil → key.rawEq key' = true → p = q
  /-- Its key is no integer of the array part, nor the one behind it. -/
  apart : ∀ {p : Nat} {x : Float} {value : Value} {n : Nat},
    t.entries[p]? = some (.number x, value) → value ≠ .nil →
    Number.integer? x = some (n : Int) → 1 ≤ n → t.array.size + 1 < n

/-- No integer from one to the one behind the border has an entry with a value. -/
theorem WellFormed.successor_lt (ht : t.WellFormed) {x : Float}
    (hentry : t.entries[p]? = some (.number x, value)) (hvalue : value ≠ .nil)
    (hx : Number.integer? x = some (n : Int)) (hpos : 1 ≤ n) : t.array.size + 1 < n := by
  have hsize := ht.array_size
  rcases Nat.lt_or_ge (2 ^ 53) n with htop | hn
  · have hne : n ≠ 2 ^ 53 + 1 := by
      rintro rfl
      exact Number.integer?_ne_past_top x hx
    omega
  · have hposition : (Value.number x).position? = some n := by
      rw [Number.eq_of_integer? hpos hx (Number.integer?_ofNat hn)]
      exact Value.position?_ofNat hpos hn
    obtain ⟨k, hk⟩ := Key.exists_of_position? hposition
    have hindexed : t.entryPosition? (.number x) = some p := by
      rw [entryPosition?_of_key hk, ht.index_of_entry hentry hvalue hk]
    have hbehind := ht.behind_array hindexed hposition
    have hne : n ≠ t.array.size + 1 := by
      rintro rfl
      exact hvalue ((valueAt_of_getElem? hentry).symm.trans (ht.no_successor hindexed hposition))
    omega

theorem WellFormed.consistent (ht : t.WellFormed) (hkeys : ∀ key ∈ t.entryKeys, key ≠ .nil) :
    t.Consistent where
  array_back := ht.array_back
  live_eq := ht.live_eq
  entry_of_index := by
    intro k p hp
    obtain ⟨key, hentry, hkey⟩ := ht.entry_of_index hp
    exact ⟨key, _, hentry, hkey⟩
  indexed := by
    intro p key value hentry hvalue hself
    rcases (Key.rawEq_iff key key).1 hself with ⟨hnil, -⟩ | ⟨k, hk, -⟩
    · exact absurd hnil (hkeys key (mem_entryKeys_of_getElem? hentry))
    · rw [entryPosition?_of_key hk, ht.index_of_entry hentry hvalue hk]
  unique := by
    intro p q key key' value value' hentry hvalue hentry' hvalue' hraw
    rcases (Key.rawEq_iff key key').1 hraw with ⟨hnil, -⟩ | ⟨k, hk, hk'⟩
    · exact absurd hnil (hkeys key (mem_entryKeys_of_getElem? hentry))
    · have hp := ht.index_of_entry hentry hvalue hk
      have hq := ht.index_of_entry hentry' hvalue' hk'
      exact Option.some.inj (hp.symm.trans hq)
  apart := ht.successor_lt

/-! ## The count of live entries -/

@[simp] theorem append_live : (t.append key value).live = t.live + 1 := rfl

/-- A value that replaces another one is counted, and the other one is counted no more. -/
theorem live_setEntry_add (ht : t.live = liveCount t.entries) (hp : p < t.entries.size)
    (value : Value) :
    (t.setEntry p value).live + (if (t.valueAt p).isNil then 0 else 1) =
      t.live + if value.isNil then 0 else 1 := by
  have hpos : (t.valueAt p).isNil = false → 0 < t.live := by
    intro hold
    have hvalue : t.valueAt p = t.entries[p].2 := valueAt_of_getElem? (Array.getElem?_eq_getElem hp)
    rw [ht]
    exact Array.countP_pos_iff.2 ⟨_, Array.getElem_mem hp, by rw [← hvalue, hold]; rfl⟩
  unfold setEntry
  dsimp only
  cases hold : (t.valueAt p).isNil <;> cases value.isNil <;> simp
  have := hpos hold
  omega

/-- The array part does not become shorter while integers move over. -/
theorem array_size_le_migrateUpTo (count : Nat) :
    ∀ t : Table, t.array.size ≤ (migrateUpTo count t).array.size := by
  induction count with
  | zero => exact fun _ => le_rfl
  | succ count ih =>
    intro t
    rw [migrateUpTo]
    split
    · exact le_rfl
    · dsimp only
      split
      · exact le_rfl
      · refine le_trans ?_ (ih _)
        rw [Array.size_push, dropEntry_array]
        exact Nat.le_succ _

theorem array_size_lt_push (t : Table) (key value : Value) :
    t.array.size < (t.push key value).array.size := by
  obtain ⟨cleared, hpush, hcleared⟩ := exists_push_eq t key value
  have harray : cleared.array = t.array := by
    rcases hcleared with ⟨-, rfl⟩ | ⟨k, p, -, -, rfl⟩
    · rfl
    · exact dropEntry_array
  rw [hpush]
  refine lt_of_lt_of_le ?_ (array_size_le_migrateUpTo _ _)
  rw [Array.size_push, harray]
  exact Nat.lt_succ_self _

/-- A value behind the border is one place more that is filled: the integers that move over leave
the entries for the array part, and the key itself had no value among the entries. -/
theorem WellFormed.filled_push (ht : t.WellFormed)
    (hn : key.position? = some (t.array.size + 1)) (value : Value) :
    (t.push key value).filled = t.filled + 1 := by
  obtain ⟨cleared, hpush, hcleared⟩ := exists_push_eq t key value
  rw [hpush]
  rcases hcleared with ⟨-, rfl⟩ | ⟨k, p, hk, hp, rfl⟩
  · exact filled_migrate_push ht.live_eq value
  · have hnil := ht.no_successor (by rw [entryPosition?_of_key hk, hp]) hn
    rw [filled_migrate_push (ht.toSound.dropEntry hp).live_eq, filled, filled, dropEntry_array,
      live_dropEntry, if_pos hnil]

/-- What a store does to the count.  A store in the array part leaves it alone.  Any other one
counts the value that is stored, and no longer counts the old value of the key nor the values that
move over to the array part. -/
theorem WellFormed.live_store (ht : t.WellFormed) (key value : Value) :
    (∃ n, key.position? = some n ∧ n ≤ t.array.size ∧ (t.store key value).live = t.live) ∨
      t.array.size ≤ (t.store key value).array.size ∧
        (t.store key value).live + ((t.store key value).array.size - t.array.size) +
            (if (t.get key).isNil then 0 else 1) =
          t.live + if value.isNil then 0 else 1 := by
  have hstored := stored_store t key value
  generalize t.store key value = t' at hstored ⊢
  cases hstored with
  | array hn hle => exact .inl ⟨_, hn, hle, rfl⟩
  | push hn hvalue =>
    have hold : t.get key = .nil := by
      rw [get_of_position hn, if_neg (Nat.not_succ_le_self _), getEntry]
      split
      · rename_i p hp
        exact ht.no_successor hp hn
      · rfl
    have hsize := array_size_lt_push t key value
    have hfilled := ht.filled_push hn value
    rw [filled, filled] at hfilled
    refine .inr ⟨hsize.le, ?_⟩
    rw [hold, (isNil_eq_false_iff value).2 hvalue]
    simp only [Value.isNil, if_true, Bool.false_eq_true, if_false]
    omega
  | @entry p hbehind hp =>
    obtain ⟨k, -, hindex⟩ := exists_key_of_position hp
    refine .inr ⟨le_rfl, ?_⟩
    rw [get_of_behind hbehind, getEntry_of_position hp, setEntry_array, Nat.sub_self]
    exact live_setEntry_add ht.live_eq (ht.toSound.lt_of_index hindex) value
  | absent hbehind hp hvalue =>
    refine .inr ⟨le_rfl, ?_⟩
    rw [getEntry_eq_nil_of_none hp hbehind, hvalue, Nat.sub_self]
    rfl
  | @append base hbehind hp hvalue hbase =>
    obtain ⟨harray, hlive⟩ : base.array = t.array ∧ base.live = t.live := by
      rw [hbase]
      split <;> exact ⟨rfl, rfl⟩
    refine .inr ⟨by rw [append_array, harray], ?_⟩
    rw [getEntry_eq_nil_of_none hp hbehind, (isNil_eq_false_iff value).2 hvalue, append_array,
      harray, append_live, hlive, Nat.sub_self]
    rfl

/-! ## The size of the entries -/

theorem length_entryKeys (t : Table) : t.entryKeys.length = t.entries.size := by
  rw [entryKeys, List.length_map, Array.length_toList]

theorem Sound.size_entries_compact (ht : t.Sound) : t.compact.entries.size = t.live := by
  rw [ht.live_eq, liveCount, Array.countP_eq_size_filter]
  rfl

/-- A store that makes the entries more does so within twice the live ones. -/
theorem Sound.size_entries_store_le (ht : t.Sound) (key value : Value) :
    (t.store key value).entries.size ≤
      max t.entries.size (max 16 (2 * (t.store key value).live)) := by
  have hstored := stored_store t key value
  generalize t.store key value = t' at hstored ⊢
  cases hstored with
  | array => exact le_max_left _ _
  | push =>
    refine le_max_of_le_left (le_of_eq ?_)
    rw [← length_entryKeys, ← length_entryKeys, entryKeys_push]
  | entry =>
    refine le_max_of_le_left (le_of_eq ?_)
    rw [← length_entryKeys, ← length_entryKeys, entryKeys_setEntry]
  | absent => exact le_max_left _ _
  | append _ _ _ hbase =>
    rw [Table.append, Array.size_push, hbase]
    dsimp only
    split
    · have hlive : t.compact.live = t.live := rfl
      rw [ht.size_entries_compact, hlive]
      omega
    · -- the entries are few, or half of them are live
      rename_i hsparse
      rw [isSparse, Bool.and_eq_true, decide_eq_true_eq, decide_eq_true_eq] at hsparse
      omega

/-- However long a history is, the entries are within twice the live ones at some time of it. -/
theorem size_entries_run_le (history : List Operation) {bound : Nat}
    (h : ∀ past, past <+: history → (empty.run past).live ≤ bound) :
    (empty.run history).entries.size ≤ max 16 (2 * bound) := by
  induction history using List.reverseRecOn with
  | nil => exact Nat.zero_le _
  | append_singleton history op ih =>
    have hold := ih fun past hpast => h past (hpast.trans (List.prefix_append _ _))
    have hnow := h _ (List.prefix_refl _)
    rw [run_snoc, after_eq] at hnow ⊢
    split at hnow
    · rename_i key value _
      have hstore := (wellFormed_empty.run history).toSound.size_entries_store_le key value
      omega
    · exact hold

theorem exists_isGreatest_live (history : List Operation) :
    ∃ peak, IsGreatest {live | ∃ past, past <+: history ∧ (empty.run past).live = live} peak := by
  have hbound : BddAbove {live | ∃ past, past <+: history ∧ (empty.run past).live = live} := by
    refine ⟨history.length, ?_⟩
    rintro live ⟨past, hpast, rfl⟩
    exact (Nat.le_add_left _ _).trans ((filled_run_le past).trans hpast.length_le)
  exact ⟨_, Nat.sSup_mem ⟨_, [], List.nil_prefix, rfl⟩ hbound, fun live hlive => le_csSup hbound hlive⟩

/-! ## The representation -/

/-- After any history the parts of a table fit each other.  Whatever is set next, the count of the
live entries changes by the values that come and go: a set in the array part leaves it alone, and
any other one adds the new value, and takes off the old one and those that move over to the array
part, all of which it holds.  There are never more entries than the larger of sixteen and twice the
most that have been live between any two operations. -/
theorem representation_invariant (arraySize entryCount : Nat) (history : List Operation) :
    let start := empty.reserve arraySize entryCount
    let t := start.run history
    t.Consistent ∧
    (∀ key value t', t.set key value = .ok t' →
      (∃ n, key.position? = some n ∧ n ≤ t.array.size ∧ t'.live = t.live) ∨
        t.array.size ≤ t'.array.size ∧
          t'.live + (t'.array.size - t.array.size) + (if (t.get key).isNil then 0 else 1) =
            t.live + if value.isNil then 0 else 1) ∧
    ∃ peak, IsGreatest {live | ∃ past, past <+: history ∧ (start.run past).live = live} peak ∧
      t.entries.size ≤ max 16 (2 * peak) := by
  have ht := wellFormed_empty.run history
  obtain ⟨peak, hpeak⟩ := exists_isGreatest_live history
  refine ⟨ht.consistent (ne_nil_of_mem_entryKeys history), ?_, peak, hpeak,
    size_entries_run_le history fun past hpast => hpeak.2 ⟨past, hpast, rfl⟩⟩
  intro key value t' hset
  obtain ⟨-, rfl⟩ := eq_store_of_set hset
  exact ht.live_store key value

end ScriptMachine.Table
