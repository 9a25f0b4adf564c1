import ScriptMachine.Proofs.Table.Slots
import Mathlib.Order.ConditionallyCompleteLattice.Finset

/-!
# The border and the leading integers

The length of a table is a border: the table has a value there, unless the length is zero, and none
at the integer behind it.  A walk through the integers from one on need not come that far, for there
may be holes before the border; it comes there exactly when there are none.

An integer is looked up as a number that equals it.  Behind 2^53 not every integer is such a number,
and 2^53 + 1 is the first that is none: no table has a value there, however long it is.
-/

namespace ScriptMachine

/-- No number equals the integer behind 2^53. -/
theorem Number.integer?_ne_past_top (x : Float) :
    Number.integer? x ≠ some ((2 ^ 53 + 1 : Nat) : Int) := by
  intro h
  obtain ⟨m, e, hm, hx, hvalue⟩ := Number.parts_of_integer? (by norm_num) h
  have hlt : m < 2 ^ 53 := by
    rcases Number.parts_finite_shape hx with ⟨hlt, -⟩ | ⟨-, hlt, -⟩
    · omega
    · exact hlt
  rcases lt_or_ge 0 e with hpos | hneg
  · -- a mantissa times a power of two is even
    obtain ⟨k, hk⟩ : ∃ k, e.toNat = k + 1 := ⟨e.toNat - 1, by omega⟩
    rw [show (-e).toNat = 0 by omega, hk, pow_succ, ← mul_assoc] at hvalue
    omega
  · have hge := Nat.le_mul_of_pos_right (2 ^ 53 + 1) (Nat.two_pow_pos (-e).toNat)
    rw [show e.toNat = 0 by omega, pow_zero, mul_one] at hvalue
    omega

namespace Table

variable {t : Table} {key value : Value} {k : Key} {i m p : Nat}

/-- The table has a value at an integer. -/
def HasInteger (t : Table) (i : Nat) : Prop :=
  ∃ x, Number.integer? x = some (i : Int) ∧ t.get (.number x) ≠ .nil

/-- The table has a value at all integers from one to the given one. -/
def Leads (t : Table) (m : Nat) : Prop := ∀ i, 1 ≤ i → i ≤ m → t.HasInteger i

theorem hasInteger_iff (hpos : 1 ≤ i) (hi : i ≤ 2 ^ 53) :
    t.HasInteger i ↔ t.get (.ofNat i) ≠ .nil := by
  constructor
  · rintro ⟨x, hx, hget⟩
    rwa [Number.eq_of_integer? hpos hx (Number.integer?_ofNat hi)] at hget
  · exact fun hget => ⟨_, Number.integer?_ofNat hi, hget⟩

/-! ## The border -/

/-- The array part does not end in nil. -/
theorem WellFormed.get_length (ht : t.WellFormed) :
    t.length = 0 ∨ t.get (.ofNat t.length) ≠ .nil := by
  rcases Nat.eq_zero_or_pos t.length with hzero | hpos
  · exact .inl hzero
  · have hpos' : 0 < t.array.size := hpos
    have hn : (Value.ofNat t.length).position? = some t.array.size :=
      Value.position?_ofNat hpos ht.array_size
    have hback := ht.array_back
    rw [Array.back?, Array.getElem?_eq_getElem (by omega)] at hback
    rw [get_of_position hn, if_pos le_rfl, Array.getD_eq_getD_getElem?,
      Array.getElem?_eq_getElem (by omega)]
    exact .inr fun h => hback (congrArg some h)

/-- Nor does an entry have a value behind the border. -/
theorem WellFormed.not_hasInteger_successor (ht : t.WellFormed) :
    ¬ t.HasInteger (t.length + 1) := by
  have hsize : t.length ≤ 2 ^ 53 := ht.array_size
  rcases Nat.lt_or_eq_of_le hsize with hlt | htop
  · rw [hasInteger_iff (by omega) (by omega), not_not]
    have hn : (Value.ofNat (t.length + 1)).position? = some (t.array.size + 1) :=
      Value.position?_ofNat (by omega) (by omega)
    rw [get_of_position hn, if_neg (by omega), getEntry]
    split
    · rename_i p hp
      exact ht.no_successor hp hn
    · rfl
  · rintro ⟨x, hx, -⟩
    rw [htop] at hx
    exact Number.integer?_ne_past_top x hx

/-! ## The leading integers -/

theorem WellFormed.le_length_of_leads (ht : t.WellFormed) (h : t.Leads m) : m ≤ t.length := by
  by_contra hlt
  exact ht.not_hasInteger_successor (h (t.length + 1) (by omega) (by omega))

theorem WellFormed.exists_isGreatest_leads (ht : t.WellFormed) :
    ∃ m, IsGreatest {m | t.Leads m} m := by
  have hbound : BddAbove {m | t.Leads m} := ⟨t.length, fun m hm => ht.le_length_of_leads hm⟩
  have hzero : t.Leads 0 := fun i hpos hi => by omega
  exact ⟨_, Nat.sSup_mem ⟨0, hzero⟩ hbound, fun m hm => le_csSup hbound hm⟩

/-- What has a value at all integers up to one has a value there. -/
theorem Leads.get_ne_nil (h : t.Leads m) (ht : t.WellFormed) (hpos : 1 ≤ i) (hi : i ≤ m) :
    t.get (.ofNat i) ≠ .nil :=
  (hasInteger_iff hpos (hi.trans ((ht.le_length_of_leads h).trans ht.array_size))).1 (h i hpos hi)

/-- The integer behind the leading ones has no value. -/
theorem get_eq_nil_of_isGreatest (h : IsGreatest {m | t.Leads m} m) (hm : m < 2 ^ 53) :
    t.get (.ofNat (m + 1)) = .nil := by
  by_contra hne
  have hleads : t.Leads (m + 1) := by
    intro i hpos hi
    rcases Nat.lt_or_eq_of_le hi with hlt | rfl
    · exact h.1 i hpos (by omega)
    · exact (hasInteger_iff hpos (by omega)).2 hne
  have := h.2 hleads
  omega

/-- The leading integers reach the border exactly when there is no hole before it. -/
theorem WellFormed.eq_length_iff (ht : t.WellFormed) (h : IsGreatest {m | t.Leads m} m) :
    m = t.length ↔ ∀ i, 1 ≤ i → i ≤ t.length → t.get (.ofNat i) ≠ .nil := by
  have hle := ht.le_length_of_leads h.1
  constructor
  · rintro rfl i hpos hi
    exact h.1.get_ne_nil ht hpos hi
  · intro hall
    have hsize := ht.array_size
    refine le_antisymm hle (h.2 fun i hpos hi => ?_)
    exact (hasInteger_iff hpos (hi.trans hsize)).2 (hall i hpos hi)

/-! ## The length after a history -/

/-- The slots of the array part and the live entries of a table. -/
def filled (t : Table) : Nat := t.array.size + t.live

theorem live_setEntry_le (value : Value) : (t.setEntry p value).live ≤ t.live + 1 := by
  unfold setEntry
  dsimp only
  split
  · exact le_rfl
  · split <;> omega

theorem live_dropEntry (k : Key) (p : Nat) :
    (t.dropEntry k p).live = if t.valueAt p = .nil then t.live else t.live - 1 := by
  have hlive : (t.dropEntry k p).live = if (t.valueAt p).isNil then t.live else t.live - 1 := by
    unfold dropEntry setEntry
    dsimp only
    cases (t.valueAt p).isNil <;> rfl
  simpa only [isNil_iff] using hlive

/-- An integer that moves over from the entries is one live entry less. -/
theorem filled_moveNext (ht : t.live = liveCount t.entries) (hvalue : t.valueAt p ≠ .nil) :
    (t.moveNext k p).filled = t.filled ∧
      (t.moveNext k p).live = liveCount (t.moveNext k p).entries := by
  obtain ⟨key, hentry⟩ := getElem?_of_valueAt_ne_nil hvalue
  have hp := (Array.getElem?_eq_some_iff.1 hentry).1
  have hpos : 0 < t.live := by
    rw [ht]
    refine Array.countP_pos_iff.2 ⟨_, Array.mem_of_getElem? hentry, ?_⟩
    simp [(isNil_eq_false_iff _).2 hvalue]
  refine ⟨?_, live_setEntry hp ht⟩
  have hlive := live_dropEntry (t := t) k p
  rw [if_neg hvalue] at hlive
  rw [filled, moveNext, Array.size_push, dropEntry_array, hlive, filled]
  omega

theorem filled_migrateUpTo (count : Nat) :
    ∀ {t : Table}, t.live = liveCount t.entries → (migrateUpTo count t).filled = t.filled := by
  induction count with
  | zero => exact fun _ => rfl
  | succ count ih =>
    intro t ht
    rw [migrateUpTo]
    split
    · rfl
    · rename_i k p h
      dsimp only
      split
      · rfl
      · rename_i hnil
        obtain ⟨hfilled, hlive⟩ := filled_moveNext (k := k) (p := p) ht
          fun h => hnil ((isNil_iff _).2 h)
        exact (ih hlive).trans hfilled

/-- However many integers move over, the array part and the live entries have one place more. -/
theorem filled_migrate_push (ht : t.live = liveCount t.entries) (value : Value) :
    (migrate { t with array := t.array.push value }).filled = t.filled + 1 := by
  rw [migrate, filled_migrateUpTo]
  · rw [filled, filled, Array.size_push]
    dsimp only
    omega
  · exact ht

theorem Sound.filled_push_le (ht : t.Sound) (key value : Value) :
    (t.push key value).filled ≤ t.filled + 1 := by
  obtain ⟨cleared, hpush, hcleared⟩ := exists_push_eq t key value
  rw [hpush]
  rcases hcleared with ⟨-, rfl⟩ | ⟨k, p, -, hp, rfl⟩
  · exact (filled_migrate_push ht.live_eq value).le
  · rw [filled_migrate_push (ht.dropEntry hp).live_eq, filled, filled, dropEntry_array,
      live_dropEntry]
    split <;> omega

theorem filled_storeEntry_le (key value : Value) :
    (t.storeEntry key value).filled ≤ t.filled + 1 := by
  rw [storeEntry]
  split
  · rename_i p hp
    have := live_setEntry_le (t := t) (p := p) value
    rw [filled, filled, setEntry_array]
    omega
  · split
    · exact Nat.le_succ _
    · split <;> exact le_of_eq (by rw [filled, filled, append_array]; rfl)

/-- A store fills at most one place more. -/
theorem Sound.filled_store_le (ht : t.Sound) (key value : Value) :
    (t.store key value).filled ≤ t.filled + 1 := by
  rw [store]
  split
  · rename_i i hi
    split
    · have := setArray_array_size_le (t := t) (n := i) value
      rw [filled, filled]
      exact Nat.le_succ_of_le (Nat.add_le_add_right this _)
    · split
      · exact ht.filled_push_le key value
      · exact filled_storeEntry_le key value
  · exact filled_storeEntry_le key value

theorem filled_run_le (history : List Operation) :
    (empty.run history).filled ≤ history.length := by
  induction history using List.reverseRecOn with
  | nil => exact le_rfl
  | append_singleton history op ih =>
    rw [run_snoc, after_eq, List.length_append, List.length_singleton]
    split
    · have := (wellFormed_empty.run history).toSound.filled_store_le
      exact (this _ _).trans (by omega)
    · omega

/-- A table is no longer than its history. -/
theorem length_run_le (history : List Operation) :
    (empty.run history).length ≤ history.length :=
  (Nat.le_add_right _ _).trans (filled_run_le history)

end Table

end ScriptMachine
