import ScriptMachine.Proofs.Table.Slots

/-!
# Traversal under assignment

Between two steps of a traversal the fields that have a value may be assigned to and cleared.  The
traversal still meets every key once, in the order in which it would have met them on the untouched
table, except those that were cleared before their turn came.
-/

namespace ScriptMachine.Table

/-! ## Traversals -/

/-- What happens during a traversal. -/
inductive Event where
  /-- `next` has returned a key. -/
  | visited (key : Value)
  /-- A field that had a value has been assigned to. -/
  | assigned (key value : Value)

/-- The key that an event visits. -/
def Event.visited? : Event → Option Value
  | .visited key => some key
  | .assigned .. => none

/-- The keys that `next` has returned, in order. -/
def visitedKeys (log : List Event) : List Value := log.filterMap Event.visited?

/-- The key that `next` is called on: the one returned last, nil at first. -/
def lastVisited (log : List Event) : Value := (visitedKeys log).getLast?.getD .nil

/-- A traversal in progress: the table as it is now, and what has happened since the start. -/
inductive Traverses (start : Table) : Table → List Event → Prop where
  /-- Nothing has happened yet. -/
  | begin : Traverses start start []
  /-- A field that has a value is assigned to, nil clearing it. -/
  | assign {t t' : Table} {log : List Event} {key value : Value} : Traverses start t log →
      t.get key ≠ .nil → t.set key value = .ok t' →
      Traverses start t' (log ++ [.assigned key value])
  /-- `next` returns a pair. -/
  | visit {t : Table} {log : List Event} {key value : Value} : Traverses start t log →
      t.next (lastVisited log) = .ok (some (key, value)) →
      Traverses start t (log ++ [.visited key])

/-- Whether a key was cleared while all the keys visited so far came before it. -/
def ClearedBeforeTurn (start : Table) (log : List Event) (key : Value) : Prop :=
  ∃ before after cleared, log = before ++ .assigned cleared .nil :: after ∧
    cleared.rawEq key = true ∧ ∀ seen ∈ visitedKeys before, [seen, key].Sublist start.keys

/-! ## The slots visited so far -/

/-- A slot was cleared while all the slots visited so far came before it. -/
def ClearedSlot (start : Table) (log : List Event) (i : Nat) : Prop :=
  ∃ before after cleared, log = before ++ .assigned cleared .nil :: after ∧
    cleared.rawEq (start.slotKey i) = true ∧
    ∀ seen ∈ visitedKeys before, ∃ m < i, start.isLive m = true ∧ seen = start.slotKey m

theorem ClearedSlot.snoc {start : Table} {log : List Event} {i : Nat}
    (h : ClearedSlot start log i) (event : Event) : ClearedSlot start (log ++ [event]) i := by
  obtain ⟨before, after, cleared, rfl, hraw, hseen⟩ := h
  exact ⟨before, after ++ [event], cleared, by simp, hraw, hseen⟩

/-- How far a traversal has come: the slots visited are in order and before the one it goes on
from, and whatever it has passed or will not find any more was visited or cleared in time. -/
structure Progress (start t : Table) (log : List Event) (seen : List Nat) (j : Nat) : Prop where
  /-- Only fields with a value were assigned to. -/
  shape : SameShape start t
  /-- The keys visited are those of the slots. -/
  visited_eq : visitedKeys log = seen.map start.slotKey
  /-- The slots are in order, and had a value at the start. -/
  sorted : seen.Sublist ((List.range j).filter start.isLive)
  /-- The next call goes on from a slot. -/
  resumes : Resumes start (lastVisited log) j
  /-- No slot is passed over without having been cleared. -/
  passed : ∀ i, start.isLive i = true → i < j ∨ slotValue start.array.size t i = .nil →
    i ∈ seen ∨ ClearedSlot start log i

section Steps

variable {start t t' : Table} {log : List Event} {seen : List Nat} {i j : Nat} {key value : Value}

@[simp] theorem visitedKeys_visited :
    visitedKeys (log ++ [.visited key]) = visitedKeys log ++ [key] := by
  simp [visitedKeys, Event.visited?]

@[simp] theorem visitedKeys_assigned :
    visitedKeys (log ++ [.assigned key value]) = visitedKeys log := by
  simp [visitedKeys, Event.visited?]

theorem Progress.begin (hstart : start.WellFormed) : Progress start start [] [] 0 where
  shape := hstart.sameShape_self
  visited_eq := rfl
  sorted := List.nil_sublist _
  resumes := .inl ⟨rfl, rfl⟩
  passed := by
    rintro i hlive (h | h)
    · omega
    · exact absurd h (isLive_iff.1 hlive)

theorem Progress.assign (h : Progress start t log seen j) (hstart : start.WellFormed)
    (hkeyed : start.Keyed) (hcur : t.get key ≠ .nil) (hset : t.set key value = .ok t') :
    Progress start t' (log ++ [.assigned key value]) seen j := by
  obtain ⟨-, rfl⟩ := eq_store_of_set hset
  have hshape := h.shape.store hcur value
  refine ⟨hshape, by rw [visitedKeys_assigned, h.visited_eq], h.sorted,
    by rw [lastVisited, visitedKeys_assigned]; exact h.resumes, ?_⟩
  intro i hlive hi
  have hold : i < j ∨ slotValue start.array.size t i = .nil →
      i ∈ seen ∨ ClearedSlot start (log ++ [.assigned key value]) i := fun hi =>
    (h.passed i hlive hi).imp_right fun hc => hc.snoc _
  rcases Nat.lt_or_ge i j with hij | hij
  · exact hold (.inl hij)
  have hnil := hi.resolve_left (by omega)
  rw [← hshape.get_slotKey hstart hkeyed hlive, (h.shape.wellFormed.store key value).2] at hnil
  split at hnil
  · -- the turn of this slot has not come: what was visited is before `j`
    rename_i hsame
    subst hnil
    refine .inr ⟨log, [], key, by simp, (Key.rawEq_iff _ _).2 (.inr hsame), ?_⟩
    intro s hs
    rw [h.visited_eq] at hs
    obtain ⟨m, hm, rfl⟩ := List.mem_map.1 hs
    have hmem := List.mem_filter.1 (h.sorted.subset hm)
    exact ⟨m, (List.mem_range.1 hmem.1).trans_le hij, hmem.2, rfl⟩
  · rw [h.shape.get_slotKey hstart hkeyed hlive] at hnil
    exact hold (.inr hnil)

theorem live_range_succ (hlive : start.isLive i = true) :
    (List.range (i + 1)).filter start.isLive = (List.range i).filter start.isLive ++ [i] := by
  rw [List.range_succ, List.filter_append, List.filter_cons, if_pos hlive, List.filter_nil]

theorem Progress.visit (h : Progress start t log seen j) (hstart : start.WellFormed)
    (hkeyed : start.Keyed) (hnext : t.next (lastVisited log) = .ok (some (key, value))) :
    ∃ i, j ≤ i ∧ start.isLive i = true ∧ key = start.slotKey i ∧ t.get key = value ∧
      value ≠ .nil ∧ Progress start t (log ++ [.visited key]) (seen ++ [i]) (i + 1) := by
  obtain ⟨found, hfound, hfrom⟩ := h.shape.next hstart hkeyed h.resumes
  rw [hnext] at hfound
  cases hfound
  obtain ⟨i, hij, hvalue, hbefore, hpair⟩ := hfrom
  cases hpair
  have hlive := h.shape.isLive_of_value hstart hkeyed hvalue
  refine ⟨i, hij, hlive, rfl, h.shape.get_slotKey hstart hkeyed hlive, hvalue, h.shape,
    by simp [h.visited_eq], ?_, .inr ⟨i, hlive, by simp [lastVisited], rfl⟩, ?_⟩
  · rw [live_range_succ hlive]
    exact (h.sorted.trans ((List.range_sublist.2 hij).filter _)).append (List.Sublist.refl _)
  · intro m hm hpassed
    have hold : m < j ∨ slotValue start.array.size t m = .nil →
        m ∈ seen ++ [i] ∨ ClearedSlot start (log ++ [.visited (start.slotKey i)]) m := fun hm' =>
      (h.passed m hm hm').imp (List.mem_append_left _) fun hc => hc.snoc _
    rcases hpassed with hlt | hnil
    · rcases Nat.lt_or_ge m j with hmj | hmj
      · exact hold (.inl hmj)
      · rcases Nat.lt_succ_iff_lt_or_eq.1 hlt with hmi | rfl
        · exact hold (.inr (hbefore m hmj hmi))
        · exact .inl (by simp)
    · exact hold (.inr hnil)

/-- Every traversal makes progress in the slots of the table that it started from. -/
theorem Traverses.progress (h : Traverses start t log) (hstart : start.WellFormed)
    (hkeyed : start.Keyed) : ∃ seen j, Progress start t log seen j := by
  induction h with
  | begin => exact ⟨[], 0, .begin hstart⟩
  | assign _ hcur hset ih =>
    obtain ⟨seen, j, ih⟩ := ih
    exact ⟨seen, j, ih.assign hstart hkeyed hcur hset⟩
  | visit _ hnext ih =>
    obtain ⟨seen, j, ih⟩ := ih
    obtain ⟨i, -, -, -, -, -, hprogress⟩ := ih.visit hstart hkeyed hnext
    exact ⟨_, _, hprogress⟩

end Steps

/-! ## The keys of a table in order -/

section Keys

variable {start t : Table} {log : List Event} {key value : Value} {i j m : Nat}

theorem lt_of_isLive (h : t.isLive i = true) : i < t.array.size + t.entries.size := by
  by_contra hge
  obtain ⟨p, rfl⟩ := Nat.exists_eq_add_of_le (Nat.le_of_not_lt hge)
  rw [isLive_iff, Nat.add_assoc, slotValue_entry, valueAt, Array.getD_eq_getD_getElem?,
    Array.getElem?_eq_none (by omega)] at h
  exact h rfl

theorem mem_keys_iff : key ∈ t.keys ↔ ∃ i, t.isLive i = true ∧ t.slotKey i = key := by
  simp only [keys, List.mem_map, List.mem_filter, List.mem_range]
  constructor
  · rintro ⟨i, ⟨-, hlive⟩, hkey⟩
    exact ⟨i, hlive, hkey⟩
  · rintro ⟨i, hlive, hkey⟩
    exact ⟨i, ⟨lt_of_isLive hlive, hlive⟩, hkey⟩

theorem WellFormed.get_live (ht : t.WellFormed) (hkeyed : t.Keyed) (h : t.isLive i = true) :
    t.get (t.slotKey i) ≠ .nil := by
  rw [ht.sameShape_self.get_slotKey ht hkeyed h]
  exact isLive_iff.1 h

/-- The keys in order are those that have a value, each once up to raw equality. -/
theorem WellFormed.get_ne_nil_iff (ht : t.WellFormed) (hkeyed : t.Keyed) :
    t.get key ≠ .nil ↔ ∃ k ∈ t.keys, k.rawEq key = true := by
  constructor
  · intro h
    obtain ⟨i, k, hlive, hk, hslot⟩ := ht.exists_slot h
    exact ⟨t.slotKey i, mem_keys_iff.2 ⟨i, hlive, rfl⟩,
      (Key.rawEq_iff _ _).2 (.inr ⟨k, hslot, hk⟩)⟩
  · rintro ⟨_, hmem, hraw⟩
    obtain ⟨i, hlive, rfl⟩ := mem_keys_iff.1 hmem
    have hget := ht.get_live hkeyed hlive
    rcases (Key.rawEq_iff _ _).1 hraw with ⟨hnil, -⟩ | ⟨k, hk, hk'⟩
    · obtain ⟨-, k, -, hk, -⟩ := ht.exists_slot hget
      rw [hnil] at hk
      cases hk
    · rwa [← get_of_same_position hk hk']

theorem WellFormed.keys_distinct (ht : t.WellFormed) (hkeyed : t.Keyed) :
    t.keys.Pairwise fun a b => a.rawEq b = false := by
  rw [keys, List.pairwise_map, List.pairwise_filter]
  refine List.pairwise_lt_range.imp fun {i j} hij hi hj => ?_
  rw [← Bool.not_eq_true, Key.rawEq_iff]
  rintro (⟨hnil, -⟩ | ⟨k, hk, hk'⟩)
  · obtain ⟨-, k, -, hk, -⟩ := ht.exists_slot (ht.get_live hkeyed hi)
    rw [hnil] at hk
    cases hk
  · have := ht.slot_injective hkeyed hi hj hk hk'
    omega

theorem pair_sublist_keys (hm : start.isLive m = true) (hi : start.isLive i = true)
    (hmi : m < i) : [start.slotKey m, start.slotKey i].Sublist start.keys := by
  have hmem : m ∈ (List.range i).filter start.isLive :=
    List.mem_filter.2 ⟨List.mem_range.2 hmi, hm⟩
  have hpair : [m, i].Sublist ((List.range (i + 1)).filter start.isLive) := by
    rw [live_range_succ hi]
    exact (List.singleton_sublist.2 hmem).append (List.Sublist.refl [i])
  have hrange : (List.range (i + 1)).Sublist (List.range (start.array.size + start.entries.size)) :=
    List.range_sublist.2 (lt_of_isLive hi)
  exact (hpair.trans (hrange.filter _)).map start.slotKey

theorem ClearedSlot.beforeTurn (h : ClearedSlot start log i) (hi : start.isLive i = true) :
    ClearedBeforeTurn start log (start.slotKey i) := by
  obtain ⟨before, after, cleared, hlog, hraw, hseen⟩ := h
  refine ⟨before, after, cleared, hlog, hraw, fun s hs => ?_⟩
  obtain ⟨m, hmi, hm, rfl⟩ := hseen s hs
  exact pair_sublist_keys hm hi hmi

theorem Progress.visited_sublist {seen : List Nat} (h : Progress start t log seen j) :
    (visitedKeys log).Sublist start.keys := by
  have hj : j ≤ start.array.size + start.entries.size := by
    rcases h.resumes with ⟨-, rfl⟩ | ⟨i, hi, -, rfl⟩
    · omega
    · exact lt_of_isLive hi
  rw [h.visited_eq]
  exact (h.sorted.trans ((List.range_sublist.2 hj).filter _)).map start.slotKey

/-- The keys in order begin with the integers of the array part, in increasing order. -/
theorem WellFormed.keys_front_back (ht : t.WellFormed) (hkeyed : t.Keyed) :
    ∃ front back, t.keys = front ++ back ∧
      (front.Pairwise fun a b => ∃ m n, a.position? = some m ∧ b.position? = some n ∧ m < n) ∧
      (∀ key ∈ front, ∃ n, key.position? = some n ∧ n ≤ t.length) ∧
      ∀ key ∈ back, ∀ n, key.position? = some n → t.length < n := by
  rw [keys, List.range_add, List.filter_append, List.map_append]
  refine ⟨_, _, rfl, ?_, ?_, ?_⟩
  · rw [List.pairwise_map]
    refine (List.pairwise_lt_range.filter _).imp_of_mem fun {a b} ha hb hab => ?_
    have ha := List.mem_range.1 (List.mem_filter.1 ha).1
    have hb := List.mem_range.1 (List.mem_filter.1 hb).1
    exact ⟨a + 1, b + 1, ht.position_slotKey ha, ht.position_slotKey hb, by omega⟩
  · intro key hkey
    obtain ⟨i, hi, rfl⟩ := List.mem_map.1 hkey
    have hi := List.mem_range.1 (List.mem_filter.1 hi).1
    exact ⟨i + 1, ht.position_slotKey hi, hi⟩
  · intro key hkey n hn
    obtain ⟨i, hi, rfl⟩ := List.mem_map.1 hkey
    obtain ⟨hi, hlive⟩ := List.mem_filter.1 hi
    obtain ⟨p, -, rfl⟩ := List.mem_map.1 hi
    rw [isLive_iff, slotValue_entry] at hlive
    obtain ⟨key, k, hentry, hk, hindex, -⟩ := ht.live_entry hkeyed hlive
    rw [slotKey_entry hentry] at hn
    exact ht.behind_array (by rw [entryPosition?_of_key hk, hindex]) hn

end Keys

/-! ## The undisturbed traversal -/

section Undisturbed

variable {t : Table} {i j : Nat}

/-- The slots with a value from a slot on. -/
def liveFrom (t : Table) (j : Nat) : List Nat :=
  (List.range' j (t.array.size + t.entries.size - j)).filter t.isLive

theorem liveFrom_found (hij : j ≤ i) (hlive : t.isLive i = true)
    (hbefore : ∀ m, j ≤ m → m < i → t.isLive m = false) :
    t.liveFrom j = i :: t.liveFrom (i + 1) := by
  have hlt := lt_of_isLive hlive
  have hsplit : List.range' j (t.array.size + t.entries.size - j) =
      List.range' j (i - j) ++ i :: List.range' (i + 1) (t.array.size + t.entries.size - (i + 1)) := by
    rw [← List.range'_succ, show t.array.size + t.entries.size - (i + 1) + 1 =
      t.array.size + t.entries.size - i by omega]
    have happend := @List.range'_append j (i - j) (t.array.size + t.entries.size - i) 1
    rw [one_mul, show j + (i - j) = i by omega, show i - j + (t.array.size + t.entries.size - i) =
      t.array.size + t.entries.size - j by omega] at happend
    exact happend.symm
  have hskip : (List.range' j (i - j)).filter t.isLive = [] := by
    rw [List.filter_eq_nil_iff]
    intro m hm
    obtain ⟨hjm, hmi⟩ := List.mem_range'_1.1 hm
    rw [hbefore m hjm (by omega)]
    simp
  rw [liveFrom, hsplit, List.filter_append, hskip, List.nil_append, List.filter_cons, if_pos hlive]
  rfl

theorem WellFormed.pairsFrom_eq (ht : t.WellFormed) (hkeyed : t.Keyed) (limit : Nat) :
    ∀ {last j}, Resumes t last j → t.pairsFrom limit last =
      .ok (((t.liveFrom j).map fun i => (t.slotKey i, t.get (t.slotKey i))).take limit) := by
  induction limit with
  | zero => intro last j _; rfl
  | succ limit ih =>
    intro last j h
    obtain ⟨found, hfound, hfrom⟩ := ht.sameShape_self.next ht hkeyed h
    rw [pairsFrom, hfound]
    cases found with
    | none =>
      have hnone : t.liveFrom j = [] := by
        rw [liveFrom, List.filter_eq_nil_iff]
        intro m hm
        rw [isLive_iff]
        exact not_not.2 (hfrom m (List.mem_range'_1.1 hm).1)
      rw [hnone]
      rfl
    | some pair =>
      obtain ⟨i, hij, hvalue, hbefore, rfl⟩ := hfrom
      have hlive := isLive_iff.2 hvalue
      rw [liveFrom_found hij hlive fun m hjm hmi => by simp [isLive, hbefore m hjm hmi, Value.isNil],
        List.map_cons, List.take_succ_cons, ht.sameShape_self.get_slotKey ht hkeyed hlive]
      have hrest := ih (.inr ⟨i, hlive, rfl, rfl⟩ : Resumes t (t.slotKey i) (i + 1))
      simp only [bind, Except.bind, hrest]
      rfl

/-- An undisturbed traversal visits the keys that have a value, in order. -/
theorem WellFormed.pairsFrom_nil (ht : t.WellFormed) (hkeyed : t.Keyed) (limit : Nat) :
    t.pairsFrom limit .nil = .ok ((t.keys.map fun key => (key, t.get key)).take limit) := by
  rw [ht.pairsFrom_eq hkeyed limit (.inl ⟨rfl, rfl⟩), liveFrom, Nat.sub_zero, ← List.range_eq_range',
    keys, List.map_map]
  rfl

end Undisturbed

/-! ## What a traversal visits -/

/-- A traversal under assignment, of a table reached without vectors that have a NaN component:
`next` never faults; a pair it returns has the key's current value; the keys returned are among
those that had a value at the start, in the order of an undisturbed traversal and none twice, so
that the traversal ends; integers of the array part come first and increase; and where it ends,
every key that had a value at the start was returned or cleared before its turn. -/
theorem traversal_under_assignment (history : List Operation)
    (hkeys : ∀ op ∈ history, ∀ key value, op.stored? = some (key, value) →
      key.hasNaNComponent = false)
    {t : Table} {log : List Event} (h : Traverses (empty.run history) t log) :
    let start := empty.run history
    (∃ found, t.next (lastVisited log) = .ok found) ∧
    (∀ key value, t.next (lastVisited log) = .ok (some (key, value)) →
      value ≠ .nil ∧ t.get key = value) ∧
    (visitedKeys log).Sublist start.keys ∧
    (visitedKeys log).length ≤ start.keys.length ∧
    ((visitedKeys log).Pairwise fun a b => a.rawEq b = false) ∧
    (∀ key ∈ visitedKeys log, start.get key ≠ .nil) ∧
    (∃ front back, visitedKeys log = front ++ back ∧
      (front.Pairwise fun a b => ∃ m n, a.position? = some m ∧ b.position? = some n ∧ m < n) ∧
      (∀ key ∈ front, ∃ n, key.position? = some n ∧ n ≤ start.length) ∧
      ∀ key ∈ back, ∀ n, key.position? = some n → start.length < n) ∧
    (∀ limit, start.pairsFrom limit .nil =
      .ok ((start.keys.map fun key => (key, start.get key)).take limit)) ∧
    (∀ key, start.get key ≠ .nil ↔ ∃ k ∈ start.keys, k.rawEq key = true) ∧
    (t.next (lastVisited log) = .ok none →
      ∀ key ∈ start.keys, key ∈ visitedKeys log ∨ ClearedBeforeTurn start log key) := by
  have hstart := wellFormed_empty.run history
  have hkeyed := keyed_empty.run hkeys
  obtain ⟨seen, j, hprogress⟩ := h.progress hstart hkeyed
  obtain ⟨found, hfound, hfrom⟩ := hprogress.shape.next hstart hkeyed hprogress.resumes
  have hsublist := hprogress.visited_sublist
  refine ⟨⟨found, hfound⟩, ?_, hsublist, hsublist.length_le,
    (hstart.keys_distinct hkeyed).sublist hsublist, ?_, ?_, hstart.pairsFrom_nil hkeyed,
    fun key => hstart.get_ne_nil_iff hkeyed, ?_⟩
  · intro key value hnext
    obtain ⟨i, -, -, -, hget, hvalue, -⟩ := hprogress.visit hstart hkeyed hnext
    exact ⟨hvalue, hget⟩
  · intro key hkey
    obtain ⟨i, hlive, rfl⟩ := mem_keys_iff.1 (hsublist.subset hkey)
    exact hstart.get_live hkeyed hlive
  · obtain ⟨front, back, hsplit, hpairwise, hfront, hback⟩ := hstart.keys_front_back hkeyed
    rw [hsplit] at hsublist
    obtain ⟨front', back', hvisited, hf, hb⟩ := List.sublist_append_iff.1 hsublist
    exact ⟨front', back', hvisited, hpairwise.sublist hf, fun key hkey => hfront key (hf.subset hkey),
      fun key hkey => hback key (hb.subset hkey)⟩
  · intro hend key hkey
    rw [hend] at hfound
    cases hfound
    obtain ⟨i, hlive, rfl⟩ := mem_keys_iff.1 hkey
    have hpassed := hprogress.passed i hlive (by
      rcases Nat.lt_or_ge i j with hij | hij
      · exact .inl hij
      · exact .inr (hfrom i hij))
    rw [hprogress.visited_eq]
    exact hpassed.imp (fun hmem => List.mem_map_of_mem hmem) fun hc => hc.beforeTurn hlive

theorem store_successor (a : Array Value) (ha : a.size < 2 ^ 53) {value : Value}
    (hvalue : value ≠ .nil) :
    ({ array := a } : Table).store (.ofNat (a.size + 1)) value = { array := a.push value } := by
  have hn := Value.position?_ofNat (n := a.size + 1) (by omega) (by omega)
  obtain ⟨k, hk⟩ := Key.exists_of_position? hn
  have hlive := (isNil_eq_false_iff value).2 hvalue
  simp [store, hn, hlive, push, hk, migrate, migrateUpTo]

/-- Clearing a slot before its turn cuts it off, and the traversal ends without it. -/
theorem traversal_past_cleared_slot :
    let start := empty.run [.setInt 1 (.boolean true), .setInt 2 (.boolean false)]
    let log := [.assigned (.ofInt 2) .nil, .visited (.ofInt 1)]
    ∃ t, Traverses start t log ∧ t.next (lastVisited log) = .ok none ∧
      ∀ key ∈ start.keys, key ∈ visitedKeys log ∨ ClearedBeforeTurn start log key := by
  intro start log
  have hstart : start = { array := #[.boolean true, .boolean false] } := by
    have h₁ := store_successor #[] (by decide) (by decide : Value.boolean true ≠ .nil)
    have h₂ := store_successor #[.boolean true] (by decide) (by decide : Value.boolean false ≠ .nil)
    exact (congrArg (fun t => Table.store t (.ofInt 2) (.boolean false)) h₁).trans h₂
  have h2 : (Value.ofInt 2).position? = some 2 := Value.position?_ofNat (by decide) (by decide)
  have h1 : (Value.ofInt 1).position? = some 1 := Value.position?_ofNat (by decide) (by decide)
  have hset : start.set (.ofInt 2) .nil = .ok { array := #[.boolean true] } := by
    rw [hstart, set_of_key (by decide), store, h2]
    simp [setArray, dropTrailingNils, Value.isNil]
  have hget : start.get (.ofInt 2) ≠ .nil := by
    rw [hstart, get_of_position h2]
    decide
  have hvisit : ({ array := #[.boolean true] } : Table).next .nil =
      .ok (some (.ofInt 1, .boolean true)) := by
    simp [next, firstFrom?, findFrom?, Value.isNil]
    rfl
  have hend : ({ array := #[.boolean true] } : Table).next (.ofInt 1) = .ok none := by
    rw [next, h1]
    · simp [firstFrom?, firstEntry?, findFrom?]
    · exact fun h => by cases h
  have htraverses := (Traverses.begin.assign hget hset).visit hvisit
  refine ⟨_, htraverses, hend, (traversal_under_assignment _ ?_ htraverses).2.2.2.2.2.2.2.2.2 hend⟩
  intro op hop key value h
  obtain rfl | rfl : op = .setInt 1 (.boolean true) ∨ op = .setInt 2 (.boolean false) := by
    simpa using hop
  · cases h
    rfl
  · cases h
    rfl
end ScriptMachine.Table
