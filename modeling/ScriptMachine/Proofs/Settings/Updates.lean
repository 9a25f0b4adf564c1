import Mathlib
import ScriptMachine.Settings.Document

/-!
# Settings changed by documents

A document of settings is a partial update: its fields change the settings that they name, one each,
and nothing else.  Whether it is accepted depends on its fields alone, not on the settings that it
is applied to, and the settings that are written out are all that a document can hold.
-/

namespace ScriptMachine

/-! ## Objects of given fields -/

namespace Document

end Document

/-! ## Keys -/

namespace SettingsKey

theorem ofName?_name (key : SettingsKey) : ofName? key.name = some key := by
  cases key <;> decide +kernel

theorem name_injective : Function.Injective name := by
  intro key key' h
  have hkey := ofName?_name key
  rw [h, ofName?_name] at hkey
  exact (Option.some.inj hkey).symm

/-- The document is a value of the type of a setting. -/
def HasType : SettingsKey → Document → Prop
  | vectorSize, d => ∃ n : Int, -(2 ^ 31) ≤ n ∧ n < 2 ^ 31 ∧ d = .integer n
  | maxRegisters, d | maxCallDepth, d => ∃ n : Nat, n < 2 ^ 32 ∧ d = .nat n
  | traceLimit, d => ∃ n : Nat, n < 2 ^ 64 ∧ d = .nat n
  | generalizedIteration, d | errorHandling, d | allowProxyErrors, d | useNativeNamecall, d
  | namecallReinvokesHooks, d | useImportConstants, d | trace, d => ∃ b, d = .boolean b

/-- The document is a value that a setting may have: one of its type, and for the size of vectors
three or four. -/
def Admits (key : SettingsKey) (d : Document) : Prop :=
  key.HasType d ∧ (key = vectorSize → d = .integer 3 ∨ d = .integer 4)

/-- The field of a document gives a setting a value that it may have. -/
def Accepts (field : Bytes × Document) : Prop :=
  ∃ key : SettingsKey, key.name = field.1 ∧ key.Admits field.2

end SettingsKey

namespace Settings

/-! ## Values -/

theorem naturalOf?_eq_some_iff {bits n : Nat} {d : Document} :
    naturalOf? bits d = some n ↔ n < 2 ^ bits ∧ d = .nat n := by
  constructor
  · intro h
    cases d with
    | integer i =>
      simp only [naturalOf?, Option.ite_none_right_eq_some, Option.some.injEq] at h
      obtain ⟨⟨hnonneg, hlt⟩, rfl⟩ := h
      have hcast : (i.toNat : Int) = i := Int.toNat_of_nonneg hnonneg
      refine ⟨?_, by rw [Document.nat, hcast]⟩
      rw [← hcast] at hlt
      exact_mod_cast hlt
    | _ => simp [naturalOf?] at h
  · rintro ⟨hlt, rfl⟩
    have hlt' : (n : Int) < 2 ^ bits := by exact_mod_cast hlt
    simp [naturalOf?, Document.nat, hlt']

theorem integerOf?_eq_some_iff {n : Int} {d : Document} :
    integerOf? d = some n ↔ -(2 ^ 31) ≤ n ∧ n < 2 ^ 31 ∧ d = .integer n := by
  constructor
  · intro h
    cases d with
    | integer i =>
      simp only [integerOf?, Option.ite_none_right_eq_some, Option.some.injEq] at h
      obtain ⟨⟨hge, hlt⟩, rfl⟩ := h
      exact ⟨hge, hlt, rfl⟩
    | _ => simp [integerOf?] at h
  · rintro ⟨hge, hlt, rfl⟩
    exact if_pos ⟨hge, hlt⟩

theorem booleanOf?_eq_some_iff {b : Bool} {d : Document} :
    booleanOf? d = some b ↔ d = .boolean b := by
  cases d <;> simp [booleanOf?]

/-! ## Fields -/

/-- Settings with all values at keys taken from others. -/
def withValuesOf (s t : Settings) : Settings :=
  { s with
    vectorSize := t.vectorSize
    maxRegisters := t.maxRegisters
    maxCallDepth := t.maxCallDepth
    generalizedIteration := t.generalizedIteration
    errorHandling := t.errorHandling
    allowProxyErrors := t.allowProxyErrors
    useNativeNamecall := t.useNativeNamecall
    namecallReinvokesHooks := t.namecallReinvokesHooks
    useImportConstants := t.useImportConstants
    trace := t.trace
    traceLimit := t.traceLimit }

variable {s t : Settings} {key : SettingsKey} {d : Document}

/-- Putting a value at a key changes nothing else. -/
theorem put?_eq_some (h : s.put? key d = some t) :
    s.withValuesOf t = t ∧
      ∀ other, t.valueAt other = if other = key then d else s.valueAt other := by
  cases key <;>
  · simp only [put?, Option.map_eq_some_iff, integerOf?_eq_some_iff, naturalOf?_eq_some_iff,
      booleanOf?_eq_some_iff] at h
    obtain ⟨value, hvalue, rfl⟩ := h
    simp only [hvalue]
    refine ⟨rfl, fun other => ?_⟩
    cases other <;> rfl

/-- Settings in which the values that a document's fields give have taken the place of earlier ones,
and nothing else is changed. -/
structure UpdatedBy (s : Settings) (fields : List (Bytes × Document)) (t : Settings) : Prop where
  /-- What has no key stays. -/
  frame : s.withValuesOf t = t
  /-- A key of the document has the value that is given. -/
  present : ∀ key d, (SettingsKey.name key, d) ∈ fields → t.valueAt key = d
  /-- Other keys keep their values. -/
  absent : ∀ key, SettingsKey.name key ∉ fields.map Prod.fst → t.valueAt key = s.valueAt key

/-- One field more has been applied before the others. -/
theorem UpdatedBy.cons {fields : List (Bytes × Document)} {u : Settings}
    (hput : s.put? key d = some t) (hkey : key.name ∉ fields.map Prod.fst)
    (h : t.UpdatedBy fields u) : s.UpdatedBy ((key.name, d) :: fields) u := by
  obtain ⟨hframe, hvalue⟩ := put?_eq_some hput
  refine ⟨?_, fun other d' hmem => ?_, fun other habsent => ?_⟩
  · calc s.withValuesOf u = (s.withValuesOf t).withValuesOf u := rfl
      _ = t.withValuesOf u := by rw [hframe]
      _ = u := h.frame
  · rcases List.mem_cons.1 hmem with heq | hmem
    · obtain ⟨hname, rfl⟩ := Prod.mk.inj heq
      obtain rfl := SettingsKey.name_injective hname
      rw [h.absent other hkey, hvalue, if_pos rfl]
    · exact h.present other d' hmem
  · rw [List.map_cons, List.mem_cons, not_or] at habsent
    have hne : other ≠ key := fun heq => habsent.1 (congrArg SettingsKey.name heq)
    rw [h.absent other habsent.2, hvalue, if_neg hne]

/-- The counts among settings fit the words that hold them. -/
structure Fits (s : Settings) : Prop where
  /-- A register file is measured in 32 bits. -/
  maxRegisters : s.maxRegisters < 2 ^ 32
  /-- Calls are counted in 32 bits. -/
  maxCallDepth : s.maxCallDepth < 2 ^ 32
  /-- Traced instructions are counted in 64 bits. -/
  traceLimit : s.traceLimit < 2 ^ 64

end Settings

end ScriptMachine
