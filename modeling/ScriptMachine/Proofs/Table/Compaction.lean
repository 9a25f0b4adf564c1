import ScriptMachine.Proofs.Table.Invariant

/-!
# Compaction keeps the map

Compaction throws the tombstones away and indexes what is left anew.  No two entries with a value
have the same key, so the new index leads to every one of them, and the value of every key stays
what it was.
-/

namespace ScriptMachine.Table

variable {t : Table} {key other value : Value} {k : Key} {p : Nat}

theorem indexOf_snoc (l : List (Value × Value)) (e : Value × Value) :
    indexOf (l ++ [e]) =
      match Key.ofValue? e.1 with
      | some key => (indexOf l).insert key l.length
      | none => indexOf l := by
  rw [indexOf, List.zipIdx_append, List.foldl_append, Nat.zero_add]
  rfl

theorem entry_of_indexOf {l : List (Value × Value)} (h : (indexOf l)[k]? = some p) :
    ∃ e, l[p]? = some e ∧ Key.ofValue? e.1 = some k := by
  induction l using List.reverseRecOn with
  | nil => simp [indexOf] at h
  | append_singleton l e ih =>
    have hold : (indexOf l)[k]? = some p →
        ∃ e', (l ++ [e])[p]? = some e' ∧ Key.ofValue? e'.1 = some k := fun h => by
      obtain ⟨e', he', hkey⟩ := ih h
      exact ⟨e', by rw [List.getElem?_append_left (List.getElem?_eq_some_iff.1 he').1, he'], hkey⟩
    rw [indexOf_snoc] at h
    split at h
    · rename_i k' hk'
      rw [Std.HashMap.getElem?_insert] at h
      split at h
      · rename_i hkk
        obtain rfl := beq_iff_eq.1 hkk
        obtain rfl := Option.some.inj h
        exact ⟨e, by simp, hk'⟩
      · exact hold h
    · exact hold h

/-- Entries no two of which have the same key. -/
def DistinctKeys (l : List (Value × Value)) : Prop :=
  l.Pairwise fun e e' => ∀ k, Key.ofValue? e.1 = some k → Key.ofValue? e'.1 ≠ some k

theorem indexOf_of_entry {l : List (Value × Value)} (hl : DistinctKeys l) {e : Value × Value}
    (he : l[p]? = some e) (hk : Key.ofValue? e.1 = some k) : (indexOf l)[k]? = some p := by
  induction l using List.reverseRecOn with
  | nil => simp at he
  | append_singleton l e' ih =>
    obtain ⟨hl, -, hlast⟩ := List.pairwise_append.1 hl
    rw [List.getElem?_append] at he
    rw [indexOf_snoc]
    split at he
    · have hold := ih hl he
      split
      · rename_i k' hk'
        rw [Std.HashMap.getElem?_insert, if_neg]
        · exact hold
        · intro hkk
          obtain rfl := beq_iff_eq.1 hkk
          exact hlast e (List.mem_of_getElem? he) e' (by simp) k' hk hk'
      · exact hold
    · obtain ⟨hp, rfl⟩ : p = l.length ∧ e' = e := by
        have := (List.getElem?_eq_some_iff.1 he).1
        simp at this
        have hp : p = l.length := by omega
        subst hp
        exact ⟨rfl, by simpa using he⟩
      rw [hk, hp]
      simp

theorem Sound.distinctKeys (ht : t.Sound) :
    DistinctKeys (t.entries.filter fun pair => !pair.2.isNil).toList := by
  rw [DistinctKeys, Array.toList_filter, List.pairwise_filter, List.pairwise_iff_getElem]
  intro i j hi hj hij hlive hlive' k hk hk'
  have hentry : ∀ (q : Nat) (hq : q < t.entries.toList.length),
      t.entries[q]? = some (t.entries.toList[q].1, t.entries.toList[q].2) := fun q hq => by
    simp at hq
    simp [hq]
  have hindex := ht.index_of_entry (hentry i hi) (by simpa [isNil_eq_false_iff] using hlive) hk
  have hindex' := ht.index_of_entry (hentry j hj) (by simpa [isNil_eq_false_iff] using hlive') hk'
  rw [hindex] at hindex'
  have := Option.some.inj hindex'
  omega

@[simp] theorem compact_array : t.compact.array = t.array := rfl

/-- The entries of a compacted table are those that have a value. -/
theorem exists_compact_entry_iff : (∃ p : Nat, t.compact.entries[p]? = some (key, value)) ↔
    value ≠ .nil ∧ ∃ p : Nat, t.entries[p]? = some (key, value) := by
  rw [← Array.mem_iff_getElem?, ← Array.mem_iff_getElem?, compact, Array.mem_filter,
    Bool.not_eq_true', isNil_eq_false_iff]
  exact and_comm

theorem compact_index : t.compact.index = indexOf t.compact.entries.toList := rfl

theorem Sound.entry_of_compact_index (ht : t.Sound) (h : t.compact.index[k]? = some p) :
    ∃ key, t.compact.entries[p]? = some (key, t.compact.valueAt p) ∧ Key.ofValue? key = some k ∧
      ∃ q, t.index[k]? = some q ∧ t.valueAt q = t.compact.valueAt p ∧ t.valueAt q ≠ .nil := by
  obtain ⟨⟨key, value⟩, hentry, hkey⟩ := entry_of_indexOf (compact_index ▸ h)
  rw [Array.getElem?_toList] at hentry
  obtain ⟨hvalue, q, hq⟩ := exists_compact_entry_iff.1 ⟨p, hentry⟩
  have hat := valueAt_of_getElem? hentry
  have hat' := valueAt_of_getElem? hq
  exact ⟨key, by rw [hat, hentry], hkey, q, ht.index_of_entry hq hvalue hkey, by rw [hat, hat'],
    by rwa [hat']⟩

theorem Sound.compact (ht : t.Sound) : t.compact.Sound where
  array_size := ht.array_size
  array_back := ht.array_back
  entry_of_index := by
    intro k p hp
    obtain ⟨key, hentry, hkey, -⟩ := ht.entry_of_compact_index hp
    exact ⟨key, hentry, hkey⟩
  index_of_entry := by
    intro p key value k hentry _ hkey
    have hlist : t.compact.entries.toList[p]? = some (key, value) := by
      rw [Array.getElem?_toList, hentry]
    exact indexOf_of_entry ht.distinctKeys hlist hkey
  behind_array := by
    intro key p n hp hn
    obtain ⟨k, hk, hindex⟩ := exists_key_of_position hp
    obtain ⟨-, -, -, q, hq, -⟩ := ht.entry_of_compact_index hindex
    exact ht.behind_array (by rwa [entryPosition?_of_key hk]) hn
  live_eq := by
    have hall : t.compact.entries.countP (fun pair => !pair.2.isNil) = t.compact.entries.size := by
      rw [Array.countP_eq_size]
      intro pair hpair
      exact (Array.mem_filter.1 hpair).2
    rw [liveCount, hall, Table.compact, ← Array.countP_eq_size_filter]
    exact ht.live_eq

/-- Compaction keeps the value of every key. -/
theorem Sound.getEntry_compact (ht : t.Sound) (key : Value) :
    t.compact.getEntry key = t.getEntry key := by
  cases hkey : Key.ofValue? key with
  | none =>
    rw [getEntry_of_none (entryPosition?_of_keyless hkey),
      getEntry_of_none (entryPosition?_of_keyless hkey)]
  | some k =>
    have hiff : ∀ value, value ≠ .nil →
        (t.compact.getEntry key = value ↔ t.getEntry key = value) := by
      intro value hvalue
      rw [ht.compact.getEntry_eq_iff hkey hvalue, ht.getEntry_eq_iff hkey hvalue]
      constructor
      · rintro ⟨p, other, hentry, hother⟩
        obtain ⟨-, q, hq⟩ := exists_compact_entry_iff.1 ⟨p, hentry⟩
        exact ⟨q, other, hq, hother⟩
      · rintro ⟨q, other, hentry, hother⟩
        obtain ⟨p, hp⟩ := exists_compact_entry_iff.2 ⟨hvalue, q, hentry⟩
        exact ⟨p, other, hp, hother⟩
    by_cases hnil : t.getEntry key = .nil
    · by_contra hne
      rw [hnil] at hne
      exact hne (((hiff _ hne).1 rfl).symm.trans hnil)
    · exact (hiff _ hnil).2 rfl

/-- No key is indexed in a compacted table that was not indexed before. -/
theorem Sound.compact_entryPosition?_none (ht : t.Sound) (h : t.entryPosition? key = none) :
    t.compact.entryPosition? key = none := by
  cases hp : t.compact.entryPosition? key with
  | none => rfl
  | some p =>
    obtain ⟨k, hk, hindex⟩ := exists_key_of_position hp
    obtain ⟨-, -, -, q, hq, -⟩ := ht.entry_of_compact_index hindex
    rw [entryPosition?_of_key hk, hq] at h
    cases h

theorem WellFormed.compact (ht : t.WellFormed) : t.compact.WellFormed where
  toSound := ht.toSound.compact
  no_successor := by
    intro key p hp hn
    obtain ⟨k, hk, hindex⟩ := exists_key_of_position hp
    obtain ⟨-, -, -, q, hq, -, hne⟩ := ht.entry_of_compact_index hindex
    exact absurd (ht.no_successor (by rwa [entryPosition?_of_key hk]) hn) hne

end ScriptMachine.Table
