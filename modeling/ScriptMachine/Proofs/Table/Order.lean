import ScriptMachine.Proofs.Table.Representation
import ScriptMachine.Proofs.Table.Traversal

/-!
# The order of insertion

Behind the array part a traversal visits the keys in the order in which they came.  A set never
changes that order.  It may take keys out of it, which are cleared or move over to the array part,
and it may put a key at the end; compaction leaves the order alone.  So of the keys other than the
one that is set, those that are visited before and after the set are visited in the same order, and
a key that is new among the entries is visited last.
-/

namespace ScriptMachine

/-! ## Sublists -/

section Lists

variable {α : Type} {q : α → Bool} {f : α → α}

/-- A change after which an element is not kept leaves the others in order. -/
theorem filter_modify_sublist {l : List α} {p : Nat} (h : ∀ x, l[p]? = some x → q (f x) = false) :
    ((l.modify p f).filter q).Sublist (l.filter q) := by
  induction l generalizing p with
  | nil => rw [List.modify_nil]
  | cons x l ih =>
    cases p with
    | zero =>
      have hx : q (f x) = false := h x rfl
      rw [List.modify_zero_cons, List.filter_cons, hx]
      exact (List.sublist_cons_self x l).filter q
    | succ p =>
      have hl := ih fun y hy => h y hy
      rw [List.modify_succ_cons, List.filter_cons, List.filter_cons]
      split
      · exact hl.cons_cons x
      · exact hl

/-- A sublist of keys no two of which are equal is what is left of them by choosing its members. -/
theorem filter_any_of_sublist {l l' : List Value} (h : l.Sublist l')
    (hself : ∀ a ∈ l', a.rawEq a = true) (hl' : l'.Pairwise fun a b => a.rawEq b = false) :
    (l'.filter fun a => l.any (·.rawEq a)) = l := by
  induction h with
  | slnil => rfl
  | @cons l l' a hsub ih =>
    rw [List.forall_mem_cons] at hself
    rw [List.pairwise_cons] at hl'
    have hnone : ¬ (l.any (·.rawEq a)) = true := by
      rw [List.any_eq_true]
      rintro ⟨b, hb, hraw⟩
      have hne := hl'.1 b (hsub.subset hb)
      rw [Key.rawEq_symm hraw] at hne
      cases hne
    rw [List.filter_cons, if_neg hnone]
    exact ih hself.2 hl'.2
  | @cons_cons l l' a hsub ih =>
    rw [List.forall_mem_cons] at hself
    rw [List.pairwise_cons] at hl'
    rw [List.filter_cons, List.any_cons, hself.1, Bool.true_or, if_pos rfl]
    refine congrArg (a :: ·) (Eq.trans (List.filter_congr fun b hb => ?_) (ih hself.2 hl'.2))
    rw [List.any_cons, hl'.1 b hb, Bool.false_or]

/-- Where the keys that are left of others, a key apart, are in order among these, the keys that
both have in common are in the same order. -/
theorem common_order {key : Value} {before after : List Value}
    (hself : ∀ a ∈ before, a.rawEq a = true)
    (hbefore : before.Pairwise fun a b => a.rawEq b = false)
    (hsub : (after.filter fun a => !a.rawEq key && before.any (·.rawEq a)).Sublist before) :
    (before.filter fun a => !a.rawEq key && after.any (·.rawEq a)) =
      after.filter fun a => !a.rawEq key && before.any (·.rawEq a) := by
  refine Eq.trans (List.filter_congr fun a ha => ?_) (filter_any_of_sublist hsub hself hbefore)
  rw [Bool.eq_iff_iff, Bool.and_eq_true, Bool.not_eq_true', List.any_eq_true, List.any_eq_true]
  constructor
  · rintro ⟨hkey, b, hb, hraw⟩
    refine ⟨b, List.mem_filter.2 ⟨hb, ?_⟩, hraw⟩
    rw [Bool.and_eq_true, Bool.not_eq_true', ← Bool.not_eq_true, List.any_eq_true]
    refine ⟨fun hkey' => ?_, a, ha, Key.rawEq_symm hraw⟩
    rw [Key.rawEq_trans (Key.rawEq_symm hraw) hkey'] at hkey
    cases hkey
  · rintro ⟨b, hb, hraw⟩
    obtain ⟨hb, hkept⟩ := List.mem_filter.1 hb
    rw [Bool.and_eq_true, Bool.not_eq_true', ← Bool.not_eq_true] at hkept
    refine ⟨?_, b, hb, hraw⟩
    rw [← Bool.not_eq_true]
    exact fun hkey => hkept.1 (Key.rawEq_trans hraw hkey)

end Lists

namespace Table

variable {t t' : Table} {key other value last : Value} {k : Key} {i j p : Nat}

/-! ## Traversals to their end -/

/-- The keys that `next` returns one after the other, called first on the given key and then on the
one returned last, until there is none or it faults. -/
inductive Visits (t : Table) : Value → List Value → Prop where
  /-- Nothing more is returned. -/
  | finished {last : Value} (h : ∀ pair, t.next last ≠ .ok (some pair)) : Visits t last []
  /-- A key is returned. -/
  | visit {last key value : Value} {others : List Value} (h : t.next last = .ok (some (key, value)))
    (hothers : Visits t key others) : Visits t last (key :: others)

/-- The keys that a traversal visits behind the array part. -/
def VisitsBehind (t : Table) (back : List Value) : Prop :=
  ∃ front, Visits t .nil (front ++ back) ∧
    (∀ key ∈ front, ∃ n, key.position? = some n ∧ n ≤ t.length) ∧
    ∀ key ∈ back, ∀ n, key.position? = some n → t.length < n

theorem Visits.unique {keys keys' : List Value} (h : Visits t last keys)
    (h' : Visits t last keys') : keys = keys' := by
  induction h generalizing keys' with
  | finished h =>
    cases h' with
    | finished => rfl
    | visit hnext => exact absurd hnext (h _)
  | visit hnext _ ih =>
    cases h' with
    | finished h => exact absurd hnext (h _)
    | visit hnext' hothers =>
      rw [hnext] at hnext'
      cases hnext'
      rw [ih hothers]

/-- A traversal has one part behind the array part. -/
theorem VisitsBehind.unique {back back' : List Value} (h : VisitsBehind t back)
    (h' : VisitsBehind t back') : back = back' := by
  -- a key between the ends of the two fronts would belong to both parts
  have hends : ∀ {front middle back : List Value},
      (∀ key ∈ front ++ middle, ∃ n, key.position? = some n ∧ n ≤ t.length) →
      (∀ key ∈ middle ++ back, ∀ n, key.position? = some n → t.length < n) → middle = [] := by
    intro front middle back hfront hback
    refine List.eq_nil_iff_forall_not_mem.2 fun key hkey => ?_
    obtain ⟨n, hn, hle⟩ := hfront key (List.mem_append_right _ hkey)
    have hlt := hback key (List.mem_append_left _ hkey) n hn
    omega
  obtain ⟨front, hvisits, hfront, hback⟩ := h
  obtain ⟨front', hvisits', hfront', hback'⟩ := h'
  rcases List.append_eq_append_iff.1 (hvisits.unique hvisits') with
    ⟨middle, rfl, rfl⟩ | ⟨middle, rfl, rfl⟩
  · rw [hends hfront' hback, List.nil_append]
  · rw [hends hfront hback', List.nil_append]

/-! ## The keys of the entries in order -/

/-- The keys of the entries with a value, in order of insertion. -/
def liveKeys (t : Table) : List Value :=
  (t.entries.toList.filter fun pair => !pair.2.isNil).map Prod.fst

theorem mem_liveKeys_iff :
    key ∈ t.liveKeys ↔ ∃ (p : Nat) (value : Value), t.entries[p]? = some (key, value) ∧
      value ≠ .nil := by
  rw [liveKeys, List.mem_map]
  constructor
  · rintro ⟨pair, hpair, rfl⟩
    obtain ⟨hmem, hvalue⟩ := List.mem_filter.1 hpair
    obtain ⟨p, hp⟩ := Array.mem_iff_getElem?.1 (Array.mem_toList_iff.1 hmem)
    exact ⟨p, pair.2, hp, (isNil_eq_false_iff _).1 (by rwa [Bool.not_eq_true'] at hvalue)⟩
  · rintro ⟨p, value, hp, hvalue⟩
    refine ⟨(key, value), List.mem_filter.2 ⟨?_, ?_⟩, rfl⟩
    · exact Array.mem_toList_iff.2 (Array.mem_of_getElem? hp)
    · rw [(isNil_eq_false_iff value).2 hvalue]
      rfl

/-- The keys of the array part with a value, in order. -/
def arrayKeys (t : Table) : List Value :=
  ((List.range t.array.size).filter t.isLive).map t.slotKey

/-- The keys in order are those of the array part, and then those of the entries. -/
theorem keys_eq (t : Table) : t.keys = t.arrayKeys ++ t.liveKeys := by
  have hentries : t.entries.toList =
      (List.range t.entries.size).map fun p => t.entries.getD p (.nil, .nil) := by
    refine List.ext_getElem (by simp) fun p hp _ => ?_
    rw [List.getElem_map, List.getElem_range, Array.getElem_toList, Array.getD_eq_getD_getElem?,
      Array.getElem?_eq_getElem (by simpa using hp)]
    rfl
  rw [keys, arrayKeys, liveKeys, hentries, List.range_add, List.filter_append, List.map_append,
    List.filter_map, List.filter_map, List.map_map, List.map_map]
  have hkey : t.slotKey ∘ (t.array.size + ·) =
      Prod.fst ∘ fun p => t.entries.getD p (.nil, .nil) := by
    funext p
    rw [Function.comp, Function.comp, slotKey, if_neg (by omega), Nat.add_sub_cancel_left]
  have hlive : t.isLive ∘ (t.array.size + ·) =
      (fun pair : Value × Value => !pair.2.isNil) ∘ fun p => t.entries.getD p (.nil, .nil) := by
    funext p
    rw [Function.comp, Function.comp, isLive, slotValue_entry]
    rfl
  rw [hkey, hlive]

theorem Sound.behind_of_mem_liveKeys (ht : t.Sound) (h : key ∈ t.liveKeys) {n : Nat}
    (hn : key.position? = some n) : t.length < n := by
  obtain ⟨p, value, hentry, hvalue⟩ := mem_liveKeys_iff.1 h
  obtain ⟨k, hk⟩ := Key.exists_of_position? hn
  exact ht.behind_array (by rw [entryPosition?_of_key hk, ht.index_of_entry hentry hvalue hk]) hn

theorem Keyed.rawEq_self (hkeyed : t.Keyed) (h : key ∈ t.liveKeys) : key.rawEq key = true := by
  obtain ⟨p, value, hentry, -⟩ := mem_liveKeys_iff.1 h
  obtain ⟨k, hk⟩ := hkeyed key (mem_entryKeys_of_getElem? hentry)
  exact (Key.rawEq_iff key key).2 (.inr ⟨k, hk, hk⟩)

theorem WellFormed.liveKeys_distinct (ht : t.WellFormed) (hkeyed : t.Keyed) :
    t.liveKeys.Pairwise fun a b => a.rawEq b = false := by
  have hkeys := ht.keys_distinct hkeyed
  rw [keys_eq] at hkeys
  exact (List.pairwise_append.1 hkeys).2.1

/-! ## The part behind the array part -/

/-- A traversal of the table comes to its end: all keys but the last lead on to the next, and none
is nil, which would begin anew. -/
structure Traversable (t : Table) : Prop where
  /-- The index can lead to all entries but the last. -/
  keyed : ∀ key ∈ t.entryKeys.dropLast, ∃ k, Key.ofValue? key = some k
  /-- No entry stands at nil. -/
  ne_nil : ∀ key ∈ t.entryKeys, key ≠ .nil

/-- Where the key of a slot with a value does not lead on, the slot is the last. -/
theorem Traversable.last_of_keyless (h : t.Traversable) (ht : t.WellFormed)
    (hlive : t.isLive i = true) (hk : Key.ofValue? (t.slotKey i) = none) :
    t.slotKey i ≠ .nil ∧ t.array.size + t.entries.size ≤ i + 1 := by
  have hi : ¬ i < t.array.size := fun hi => by
    obtain ⟨k, hk'⟩ := Key.exists_of_position? (ht.position_slotKey hi)
    rw [hk] at hk'
    cases hk'
  obtain ⟨p, rfl⟩ := Nat.exists_eq_add_of_le (Nat.le_of_not_lt hi)
  rw [isLive_iff, slotValue_entry] at hlive
  obtain ⟨key, hentry⟩ := getElem?_of_valueAt_ne_nil hlive
  rw [slotKey_entry hentry] at hk ⊢
  refine ⟨h.ne_nil key (mem_entryKeys_of_getElem? hentry), ?_⟩
  by_contra hlt
  have hkey : t.entryKeys[p]? = some key := by
    rw [entryKeys, List.getElem?_map, Array.getElem?_toList, hentry]
    rfl
  have hmem : key ∈ t.entryKeys.dropLast := by
    refine List.mem_of_getElem? (i := p) ?_
    rw [List.getElem?_dropLast, length_entryKeys, if_pos (by omega), hkey]
  obtain ⟨k, hk'⟩ := h.keyed key hmem
  rw [hk] at hk'
  cases hk'

theorem liveFrom_eq_nil (h : t.array.size + t.entries.size ≤ j) : t.liveFrom j = [] := by
  rw [liveFrom, Nat.sub_eq_zero_of_le h]
  rfl

/-- A traversal visits the slots with a value in order. -/
theorem WellFormed.visits_liveFrom (ht : t.WellFormed) (htraversable : t.Traversable) {last : Value}
    {j : Nat} {found : Option (Value × Value)} (hnext : t.next last = .ok found)
    (hfound : FoundFrom t t j found) : Visits t last ((t.liveFrom j).map t.slotKey) := by
  induction hleft : t.array.size + t.entries.size - j using Nat.strong_induction_on
    generalizing last j found with
  | _ left ih =>
    cases found with
    | none =>
      have hnone : t.liveFrom j = [] := by
        rw [liveFrom, List.filter_eq_nil_iff]
        intro m hm
        rw [isLive_iff]
        exact not_not.2 (hfound m (List.mem_range'_1.1 hm).1)
      rw [hnone]
      refine .finished fun pair hpair => ?_
      rw [hnext] at hpair
      cases hpair
    | some pair =>
      obtain ⟨i, hij, hvalue, hbefore, rfl⟩ := hfound
      have hlive := isLive_iff.2 hvalue
      have hlt := lt_of_isLive hlive
      rw [liveFrom_found hij hlive fun m hjm hmi => by simp [isLive, hbefore m hjm hmi, Value.isNil],
        List.map_cons]
      refine .visit hnext ?_
      cases hk : Key.ofValue? (t.slotKey i) with
      | some k =>
        obtain ⟨found, hnext', hfound'⟩ := ht.sameShape_self.next_slot ht hlive hk
        exact ih _ (by omega) hnext' hfound' rfl
      | none =>
        -- the last key of all, and one that the index cannot lead to
        obtain ⟨hne, hlast⟩ := htraversable.last_of_keyless ht hlive hk
        rw [liveFrom_eq_nil hlast]
        refine .finished fun pair hpair => ?_
        rw [next_of_keyless hk hne] at hpair
        cases hpair

/-- Behind the array part a traversal visits the keys of the entries in order of insertion. -/
theorem WellFormed.visitsBehind (ht : t.WellFormed) (htraversable : t.Traversable) :
    VisitsBehind t t.liveKeys := by
  refine ⟨t.arrayKeys, ?_, ?_, fun key hkey n hn => ht.toSound.behind_of_mem_liveKeys hkey hn⟩
  · have hfirst : t.next .nil = .ok (t.firstFrom? 0) := rfl
    rw [← keys_eq, keys, List.range_eq_range']
    exact ht.visits_liveFrom htraversable hfirst (ht.sameShape_self.firstFrom? (Nat.zero_le _))
  · intro key hkey
    obtain ⟨i, hi, rfl⟩ := List.mem_map.1 hkey
    have hi := List.mem_range.1 (List.mem_filter.1 hi).1
    exact ⟨i + 1, ht.position_slotKey hi, hi⟩

/-! ## What a store does to the order -/

/-- Another value in an entry takes its key out, or leaves it where it is; all other keys stay. -/
theorem liveKeys_setEntry_sublist {q : Value → Bool}
    (h : ∀ other old, t.entries[p]? = some (other, old) → value = .nil ∨ q other = false) :
    ((t.setEntry p value).liveKeys.filter q).Sublist (t.liveKeys.filter q) := by
  rw [liveKeys, liveKeys, List.filter_map, List.filter_map, List.filter_filter, List.filter_filter,
    setEntry, Array.toList_modify]
  refine (filter_modify_sublist fun pair hpair => ?_).map Prod.fst
  rw [Array.getElem?_toList] at hpair
  rcases h pair.1 pair.2 hpair with rfl | hq
  · exact Bool.and_false _
  · rw [Function.comp, hq, Bool.false_and]

theorem liveKeys_dropEntry_sublist (t : Table) (k : Key) (p : Nat) :
    (t.dropEntry k p).liveKeys.Sublist t.liveKeys := by
  have hset := liveKeys_setEntry_sublist (t := t) (p := p) (q := fun _ => true) fun _ _ _ =>
    .inl (rfl : Value.nil = .nil)
  rwa [List.filter_true, List.filter_true] at hset

/-- Integers that move over leave the other keys in order. -/
theorem liveKeys_migrateUpTo_sublist (count : Nat) :
    ∀ t : Table, (migrateUpTo count t).liveKeys.Sublist t.liveKeys := by
  induction count with
  | zero => exact fun t => List.Sublist.refl _
  | succ count ih =>
    intro t
    rw [migrateUpTo]
    split
    · exact List.Sublist.refl _
    · rename_i k p _
      dsimp only
      split
      · exact List.Sublist.refl _
      · exact (ih _).trans (liveKeys_dropEntry_sublist t k p)

theorem liveKeys_push_sublist (t : Table) (key value : Value) :
    (t.push key value).liveKeys.Sublist t.liveKeys := by
  obtain ⟨cleared, hpush, hcleared⟩ := exists_push_eq t key value
  rw [hpush, migrate]
  refine (liveKeys_migrateUpTo_sublist _ _).trans ?_
  rcases hcleared with ⟨-, rfl⟩ | ⟨k, p, -, -, rfl⟩
  · exact List.Sublist.refl _
  · exact liveKeys_dropEntry_sublist t k p

/-- Compaction throws out what is not in the order anyway. -/
theorem liveKeys_if_compact (t : Table) :
    (if t.isSparse then t.compact else t).liveKeys = t.liveKeys := by
  split
  · rw [liveKeys, liveKeys, compact]
    dsimp only
    rw [Array.toList_filter, List.filter_filter]
    simp only [Bool.and_self]
  · rfl

theorem liveKeys_append (hvalue : value ≠ .nil) :
    (t.append key value).liveKeys = t.liveKeys ++ [key] := by
  rw [liveKeys, liveKeys, append]
  dsimp only
  rw [Array.toList_push, List.filter_append, List.map_append,
    List.filter_cons_of_pos (by rw [(isNil_eq_false_iff value).2 hvalue]; rfl)]
  rfl

/-- A store makes no entry, and leaves the keys other than its own in order, or it makes one, which
comes last. -/
theorem Sound.order_of_stored (ht : t.Sound) (h : Stored t key value t') :
    (t'.entryKeys = t.entryKeys ∧ (t'.liveKeys.filter fun a => !a.rawEq key).Sublist t.liveKeys) ∨
      (∃ kept, t'.entryKeys = kept ++ [key] ∧ ∀ other ∈ kept, other ∈ t.entryKeys) ∧
        t'.liveKeys = t.liveKeys ++ [key] := by
  cases h with
  | array => exact .inl ⟨rfl, List.filter_sublist⟩
  | push =>
    exact .inl ⟨entryKeys_push, List.filter_sublist.trans (liveKeys_push_sublist t key value)⟩
  | @entry p _ hp =>
    obtain ⟨k, hk, hindex⟩ := exists_key_of_position hp
    refine .inl ⟨entryKeys_setEntry, (liveKeys_setEntry_sublist ?_).trans List.filter_sublist⟩
    intro other old hentry
    obtain ⟨_, hentry', hk'⟩ := ht.entry_of_index hindex
    rw [hentry'] at hentry
    cases hentry
    rw [(Key.rawEq_iff other key).2 (.inr ⟨k, hk', hk⟩)]
    exact .inr rfl
  | absent => exact .inl ⟨rfl, List.filter_sublist⟩
  | @append base _ _ hvalue hbase =>
    refine .inr ⟨⟨base.entryKeys, entryKeys_append, fun other hother => ?_⟩, ?_⟩
    · rw [hbase] at hother
      split at hother
      · exact mem_entryKeys_of_compact hother
      · exact hother
    · rw [liveKeys_append hvalue, hbase, liveKeys_if_compact]

/-- The keys other than the one that is stored keep their order. -/
theorem WellFormed.common_order (ht : t.WellFormed) (hkeyed : t.Keyed) (key value : Value) :
    (t.liveKeys.filter fun a => !a.rawEq key && (t.store key value).liveKeys.any (·.rawEq a)) =
      (t.store key value).liveKeys.filter fun a => !a.rawEq key && t.liveKeys.any (·.rawEq a) := by
  refine ScriptMachine.common_order (fun a => hkeyed.rawEq_self) (ht.liveKeys_distinct hkeyed) ?_
  rcases ht.toSound.order_of_stored (stored_store t key value) with ⟨-, hothers⟩ | ⟨-, hlive⟩
  · have hboth : (fun a => !a.rawEq key && t.liveKeys.any (·.rawEq a)) =
        fun a => t.liveKeys.any (·.rawEq a) && !a.rawEq key := funext fun a => Bool.and_comm _ _
    rw [hboth, ← List.filter_filter]
    exact List.filter_sublist.trans hothers
  · -- the new key is not among the others
    have hnew : (!key.rawEq key && t.liveKeys.any (·.rawEq key)) = false := by
      rw [Bool.and_eq_false_imp, Bool.not_eq_true', List.any_eq_false]
      intro hself other _ hraw
      rw [Key.rawEq_trans (Key.rawEq_symm hraw) hraw] at hself
      cases hself
    rw [hlive, List.filter_append, List.filter_cons, hnew]
    rw [if_neg Bool.false_ne_true, List.filter_nil, List.append_nil]
    exact List.filter_sublist

/-- A key that had no entry, and has none in the array part now, comes last. -/
theorem Sound.liveKeys_store (ht : t.Sound) (hnew : t.entryPosition? key = none)
    (hvalue : value ≠ .nil)
    (hbehind : ∀ n, key.position? = some n → (t.store key value).length < n) :
    (t.store key value).liveKeys = t.liveKeys ++ [key] := by
  have hstored := stored_store t key value
  generalize t.store key value = t' at hstored hbehind ⊢
  cases hstored with
  | @array n hn hle =>
    -- a slot with a value is not cut off
    have hget := ht.get_setArray hn hle value key
    rw [if_pos hn, getEntry_eq_nil_of_none (t := t.setArray n value) hnew hbehind] at hget
    exact absurd hget.symm hvalue
  | push hn =>
    have hsize := array_size_lt_push t key value
    have hlt := hbehind _ hn
    rw [length] at hlt
    omega
  | entry _ hp =>
    rw [hnew] at hp
    cases hp
  | absent _ _ hnil => exact absurd hnil hvalue
  | append _ _ _ hbase => rw [liveKeys_append hvalue, hbase, liveKeys_if_compact]

/-- A key that was never given a value has no entry. -/
theorem entryPosition?_of_spares {history : List Operation} (h : Spares key history) :
    (empty.run history).entryPosition? key = none := by
  cases hp : (empty.run history).entryPosition? key with
  | none => rfl
  | some p =>
    obtain ⟨k, hk, hindex⟩ := exists_key_of_position hp
    obtain ⟨key', hentry, hk'⟩ := (wellFormed_empty.run history).entry_of_index hindex
    obtain ⟨op, hop, value, hstored, hvalue⟩ :=
      exists_stored_of_mem_entryKeys history key' (mem_entryKeys_of_getElem? hentry)
    have hraw := (Key.rawEq_iff key' key).2 (.inr ⟨k, hk', hk⟩)
    exact absurd (h op hop key' value hstored hraw) hvalue

/-! ## Traversals before and after a store -/

theorem Keyed.ne_nil (hkeyed : t.Keyed) : ∀ key ∈ t.entryKeys, key ≠ .nil := by
  rintro _ hkey rfl
  obtain ⟨k, hk⟩ := hkeyed _ hkey
  cases hk

theorem Keyed.traversable (hkeyed : t.Keyed) : t.Traversable where
  keyed := fun key hkey => hkeyed key (List.mem_of_mem_dropLast hkey)
  ne_nil := hkeyed.ne_nil

/-- A store makes at most the last entry one that the index cannot lead to. -/
theorem Keyed.traversable_store (hkeyed : t.Keyed) (ht : t.Sound) (hkey : key ≠ .nil)
    (value : Value) : (t.store key value).Traversable := by
  rcases ht.order_of_stored (stored_store t key value) with
    ⟨hentryKeys, -⟩ | ⟨⟨kept, hentryKeys, hkept⟩, -⟩
  · refine Keyed.traversable fun other hother => hkeyed other ?_
    rwa [← hentryKeys]
  · refine ⟨fun other hother => ?_, fun other hother => ?_⟩
    · rw [hentryKeys, List.dropLast_concat] at hother
      exact hkeyed other (hkept other hother)
    · rw [hentryKeys, List.mem_append, List.mem_singleton] at hother
      rcases hother with hother | rfl
      · exact hkeyed.ne_nil other (hkept other hother)
      · exact hkey

/-- Insertion order is stable.  In a table reached without vectors that have a NaN component, and
in what a set makes of it, a traversal comes to its end.  Of the keys other than the one that is
set, those that it visits behind the array part both before and after are visited in the same order
before and after; and a key that was never given a value, and is not in the array part once it is
given one, is visited last. -/
theorem insertion_order_stable (history : List Operation)
    (hkeys : ∀ op ∈ history, ∀ key value, op.stored? = some (key, value) →
      key.hasNaNComponent = false)
    {key value : Value} {t' : Table} (hset : (empty.run history).set key value = .ok t') :
    let t := empty.run history
    (∃ back, VisitsBehind t back) ∧ (∃ back', VisitsBehind t' back') ∧
    ∀ back back', VisitsBehind t back → VisitsBehind t' back' →
      (back.filter fun a => !a.rawEq key && back'.any (·.rawEq a)) =
        (back'.filter fun a => !a.rawEq key && back.any (·.rawEq a)) ∧
      (Spares key history → value ≠ .nil →
        (∀ n, key.position? = some n → t'.length < n) → back'.getLast? = some key) := by
  obtain ⟨hkey, rfl⟩ := eq_store_of_set hset
  have hne : key ≠ .nil := fun h => by rw [h] at hkey; cases hkey
  have ht := wellFormed_empty.run history
  have hkeyed := keyed_empty.run hkeys
  have hbefore := ht.visitsBehind hkeyed.traversable
  have hafter := (ht.store key value).1.visitsBehind (hkeyed.traversable_store ht.toSound hne value)
  refine ⟨⟨_, hbefore⟩, ⟨_, hafter⟩, fun back back' hback hback' => ?_⟩
  rw [hback.unique hbefore, hback'.unique hafter]
  refine ⟨ht.common_order hkeyed key value, fun hnew hvalue hbehind => ?_⟩
  rw [ht.toSound.liveKeys_store (entryPosition?_of_spares hnew) hvalue hbehind,
    List.getLast?_concat]

/-- `false` is new behind `true` and an integer that is not in the array part: it comes last, and
the two stay as they were. -/
theorem insertion_order_of_new_key :
    let t := empty.run [.set (.boolean true) (.boolean true), .setInt 2 (.boolean true)]
    ∃ t', t.set (.boolean false) (.boolean true) = .ok t' ∧
    ∃ back back', VisitsBehind t back ∧ VisitsBehind t' back' ∧
      (back.filter fun a => !a.rawEq (.boolean false) && back'.any (·.rawEq a)) =
        (back'.filter fun a => !a.rawEq (.boolean false) && back.any (·.rawEq a)) ∧
      back'.getLast? = some (.boolean false) := by
  intro t
  have hstored : ∀ op ∈ [Operation.set (.boolean true) (.boolean true), .setInt 2 (.boolean true)],
      ∀ key value, op.stored? = some (key, value) → key = .boolean true ∨ key = .ofInt 2 := by
    intro op hop key value h
    rw [List.mem_pair] at hop
    rcases hop with rfl | rfl
    · cases h
      exact .inl rfl
    · cases h
      exact .inr rfl
  have hset : t.set (.boolean false) (.boolean true) =
    .ok (t.store (.boolean false) (.boolean true)) := rfl
  obtain ⟨⟨back, hback⟩, ⟨back', hback'⟩, horder⟩ := insertion_order_stable _
    (fun op hop key value h => by rcases hstored op hop key value h with rfl | rfl <;> rfl) hset
  obtain ⟨hcommon, hlast⟩ := horder back back' hback hback'
  refine ⟨_, hset, back, back', hback, hback', hcommon, hlast ?_ (by decide) fun n h => nomatch h⟩
  intro op hop key value h hraw
  rcases hstored op hop key value h with rfl | rfl
  · cases hraw
  · cases hraw

end Table

end ScriptMachine
