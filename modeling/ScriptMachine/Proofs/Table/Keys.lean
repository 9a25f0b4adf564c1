import ScriptMachine.Proofs.Number.Integers

/-!
# Keys and raw equality

What a table is indexed by decides raw equality: two values are raw-equal exactly when they have
the same key, nil apart, which has none and equals itself.  Values with one key name the same
position of the array part, and a position is named by one value only.
-/

namespace ScriptMachine

namespace Key

theorem ofValue?_vector {v : Vector4} {k : Key} :
    ofValue? (.vector v) = some k ↔
      ∃ x y z w, bits32? v.x = some x ∧ bits32? v.y = some y ∧ bits32? v.z = some z ∧
        bits32? v.w = some w ∧ k = .vector x y z w := by
  rw [ofValue?]
  constructor
  · intro h
    split at h
    · rename_i x y z w hx hy hz hw
      exact ⟨x, y, z, w, hx, hy, hz, hw, (Option.some.inj h).symm⟩
    · cases h
  · rintro ⟨x, y, z, w, hx, hy, hz, hw, rfl⟩
    rw [hx, hy, hz, hw]

theorem vector_rawEq_iff (v u : Vector4) :
    v.rawEq u = true ↔ ∃ k, ofValue? (.vector v) = some k ∧ ofValue? (.vector u) = some k := by
  simp only [Vector4.rawEq, Bool.and_eq_true, Number.beq_iff_bits32?, ofValue?_vector]
  constructor
  · rintro ⟨⟨⟨⟨x, hx, hx'⟩, y, hy, hy'⟩, z, hz, hz'⟩, w, hw, hw'⟩
    exact ⟨_, ⟨x, y, z, w, hx, hy, hz, hw, rfl⟩, x, y, z, w, hx', hy', hz', hw', rfl⟩
  · rintro ⟨_, ⟨x, y, z, w, hx, hy, hz, hw, rfl⟩, x', y', z', w', hx', hy', hz', hw', h⟩
    cases h
    exact ⟨⟨⟨⟨x, hx, hx'⟩, y, hy, hy'⟩, z, hz, hz'⟩, w, hw, hw'⟩

/-- The kind of the values that have a key. -/
def kind : Key → Kind
  | .boolean _ => .boolean
  | .number _ => .number
  | .string _ => .string
  | .vector .. => .vector
  | .table _ => .table
  | .function _ => .function

theorem kind_of_value {v : Value} {k : Key} (h : ofValue? v = some k) : k.kind = v.kind := by
  cases v with
  | nil => cases h
  | number n =>
    obtain ⟨b, -, rfl⟩ := Option.map_eq_some_iff.1 h
    rfl
  | vector v =>
    obtain ⟨x, y, z, w, -, -, -, -, rfl⟩ := ofValue?_vector.1 h
    rfl
  | _ => cases h; rfl

theorem kind_of_rawEq {a b : Value} (h : a.rawEq b = true) : a.kind = b.kind := by
  cases a <;> cases b <;> first | rfl | cases h

/-- Raw equality is having the same key, nil apart. -/
theorem rawEq_iff (a b : Value) :
    a.rawEq b = true ↔
      (a = .nil ∧ b = .nil) ∨ ∃ k, ofValue? a = some k ∧ ofValue? b = some k := by
  by_cases hkind : a.kind = b.kind
  · cases a <;> cases b <;> simp only [Value.kind, reduceCtorEq] at hkind
    case nil.nil => simp [Value.rawEq]
    case number.number x y =>
      rw [Value.rawEq, Number.beq_iff_bits?]
      cases hx : bits? x <;> cases hy : bits? y <;> simp [ofValue?, hx, hy, eq_comm]
    case vector.vector v u => simp [Value.rawEq, vector_rawEq_iff]
    all_goals
      simp only [Value.rawEq, beq_iff_eq, ofValue?, reduceCtorEq, false_and, false_or,
        Option.some.injEq, exists_eq_left']
      constructor
      · rintro rfl
        rfl
      · intro h
        cases h
        rfl
  · refine iff_of_false (fun h => hkind (kind_of_rawEq h)) ?_
    rintro (⟨rfl, rfl⟩ | ⟨k, ha, hb⟩)
    · exact hkind rfl
    · exact hkind ((kind_of_value ha).symm.trans (kind_of_value hb))

theorem rawEq_symm {a b : Value} (h : a.rawEq b = true) : b.rawEq a = true := by
  rcases (rawEq_iff a b).1 h with ⟨ha, hb⟩ | ⟨k, ha, hb⟩
  · exact (rawEq_iff b a).2 (.inl ⟨hb, ha⟩)
  · exact (rawEq_iff b a).2 (.inr ⟨k, hb, ha⟩)

theorem rawEq_trans {a b c : Value} (h : a.rawEq b = true) (h' : b.rawEq c = true) :
    a.rawEq c = true := by
  rcases (rawEq_iff a b).1 h with ⟨rfl, rfl⟩ | ⟨k, ha, hb⟩
  · exact h'
  · rcases (rawEq_iff b c).1 h' with ⟨rfl, -⟩ | ⟨k', hb', hc⟩
    · cases hb
    · rw [hb] at hb'
      cases hb'
      exact (rawEq_iff a c).2 (.inr ⟨k, ha, hc⟩)

/-! ## Positions -/

theorem bits?_ne_none {x : Float} {n : Int} (h : Number.integer? x = some n) : bits? x ≠ none := by
  have hnan : ¬ x.isNaN = true := fun hnan =>
    Number.parts_ne_nan_of_integer? h (Float.Model.UnpackedFloat.isNaN_iff.1 hnan)
  rw [bits?, if_neg hnan]
  split <;> simp

theorem index?_of_zero {x : Float} (h : (x == 0) = true) : Number.index? x = none := by
  obtain ⟨s, hs⟩ := (Number.beq_zero_iff _).1 h
  have hparts : Number.parts x = .zero s := hs
  rw [Number.index?, Number.integer?, hparts]
  rfl

/-- Numbers that are equal name the same position. -/
theorem index?_congr {x y : Float} {b : UInt64} (hx : bits? x = some b) (hy : bits? y = some b) :
    Number.index? x = Number.index? y := by
  have heq : (x == y) = true := (Number.beq_iff_bits? x y).2 ⟨b, hx, hy⟩
  obtain ⟨-, h | ⟨hx0, hy0⟩⟩ := (Number.beq_unpacked_iff _ _).1 heq
  · rw [Number.parts_injective h]
  · rw [index?_of_zero ((Number.beq_zero_iff _).2 hx0), index?_of_zero ((Number.beq_zero_iff _).2 hy0)]

/-- Values with the same key name the same position. -/
theorem position?_congr {a b : Value} {k : Key} (ha : ofValue? a = some k)
    (hb : ofValue? b = some k) : a.position? = b.position? := by
  have hkind : a.kind = b.kind := (kind_of_value ha).symm.trans (kind_of_value hb)
  cases a <;> cases b <;> simp only [Value.kind, reduceCtorEq] at hkind
  case number.number x y =>
    obtain ⟨c, hx, rfl⟩ := Option.map_eq_some_iff.1 ha
    obtain ⟨c', hy, hc⟩ := Option.map_eq_some_iff.1 hb
    cases hc
    exact index?_congr hx hy
  all_goals rfl

end Key

theorem Value.position?_eq_some_iff {v : Value} {n : Nat} :
    v.position? = some n ↔ 1 ≤ n ∧ n ≤ 2 ^ 53 ∧ v = .ofNat n := by
  cases v with
  | number x => simp [Value.position?, Number.index?_eq_some_iff, Value.ofNat]
  | _ => simp [Value.position?, Value.ofNat]

theorem Value.position?_ofNat {n : Nat} (hpos : 1 ≤ n) (hn : n ≤ 2 ^ 53) :
    (Value.ofNat n).position? = some n :=
  position?_eq_some_iff.2 ⟨hpos, hn, rfl⟩

/-- A position is named by one value only. -/
theorem Value.eq_of_position? {a b : Value} {n : Nat} (ha : a.position? = some n)
    (hb : b.position? = some n) : a = b :=
  (position?_eq_some_iff.1 ha).2.2.trans (position?_eq_some_iff.1 hb).2.2.symm

theorem Key.exists_of_position? {v : Value} {n : Nat} (h : v.position? = some n) :
    ∃ k, ofValue? v = some k := by
  obtain ⟨-, hn, rfl⟩ := Value.position?_eq_some_iff.1 h
  have hbits := bits?_ne_none (Number.integer?_ofNat hn)
  obtain ⟨b, hb⟩ := Option.ne_none_iff_exists'.1 hbits
  exact ⟨.number b, by rw [Value.ofNat, ofValue?, hb]; rfl⟩

end ScriptMachine
