import Mathlib.Data.Set.Finite.Basic
import Mathlib.Order.OrderIsoNat
import Mathlib.Order.Preorder.Finite
import ScriptMachine.Bytecode.Coverage
import ScriptMachine.Bytecode.Link

/-!
# The end of a walk over prototypes

A report on coverage walks over the children of prototypes, which a module may give as it likes as
long as they are among its prototypes.  The walk has no end exactly when it comes to a prototype
below itself, and it comes to a child only when all children before it, with all that is below
them, have line information: at the first prototype without, the walk is over.
-/

namespace ScriptMachine

open Relation

namespace Module

variable {m : Module}

/-! ## Where a walk goes -/

/-- The tree below a prototype is finite, and all its prototypes have line information. -/
inductive Whole (m : Module) : Nat → Prop
  | node {index : Nat} (lines : (m.prototype index).lines.isSome)
    (children : ∀ child ∈ (m.prototype index).children, m.Whole child) : m.Whole index

/-- A walk over the trees below some prototypes, one after the other, comes to the tree below one of
them. -/
inductive ComesTo (m : Module) (index : Nat) : List Nat → Prop
  | here (others : List Nat) : m.ComesTo index (index :: others)
  | later {other : Nat} {others : List Nat} (whole : m.Whole other)
    (rest : m.ComesTo index others) : m.ComesTo index (other :: others)

/-- A walk goes from a prototype to one of its children. -/
structure Enters (m : Module) (index child : Nat) : Prop where
  /-- The walk is not over at the prototype. -/
  lines : (m.prototype index).lines.isSome
  /-- It comes to the child. -/
  comes : m.ComesTo child (m.prototype index).children

/-- A walk from a prototype comes to one below itself. -/
def Revisits (m : Module) (index : Nat) : Prop :=
  ∃ inner, ReflTransGen m.Enters index inner ∧ TransGen m.Enters inner inner

theorem whole_iff {index : Nat} :
    m.Whole index ↔ (m.prototype index).lines.isSome ∧
      ∀ child ∈ (m.prototype index).children, m.Whole child :=
  ⟨fun ⟨lines, children⟩ => ⟨lines, children⟩, fun h => .node h.1 h.2⟩

/-- Only prototypes of the module have line information. -/
theorem lt_size_of_lines {index : Nat} (h : (m.prototype index).lines.isSome) :
    index < m.prototypes.size := by
  by_contra hsize
  have hempty : m.prototype index = .empty := by
    simp [prototype, Array.getD_eq_getD_getElem?, Array.getElem?_eq_none (not_lt.1 hsize)]
  rw [hempty] at h
  cases h

theorem ComesTo.mem {index : Nat} {indices : List Nat} (h : m.ComesTo index indices) :
    index ∈ indices := by
  induction h with
  | here => exact List.mem_cons_self
  | later _ _ ih => exact List.mem_cons_of_mem _ ih

/-- A walk cannot go on without end over a tree that is whole. -/
theorem Whole.acc {index : Nat} (h : m.Whole index) : Acc (flip m.Enters) index := by
  induction h with
  | node _ _ ih => exact ⟨_, fun child hchild => ih child hchild.comes.mem⟩

/-! ## A walk that comes to an end -/

/-- What an outcome of the walk over the trees below some prototypes says about them. -/
structure Explored (m : Module) (indices : List Nat)
    (outcome : Except CoverageError (List (Prototype × Nat))) : Prop where
  /-- All of them have been reported on if their trees are whole, and only then. -/
  whole : outcome.isOk ↔ ∀ index ∈ indices, m.Whole index
  /-- Wherever the walk has come to, it has found an end. -/
  ends : ∀ index, m.ComesTo index indices → Acc (flip m.Enters) index

/-- A walk that ends at its first prototype, which is not whole. -/
theorem Explored.error {index : Nat} {others : List Nat} {e : CoverageError}
    (hwhole : ¬ m.Whole index) (hends : Acc (flip m.Enters) index) :
    m.Explored (index :: others) (.error e) := by
  refine ⟨⟨fun h => (by cases h), fun h => absurd (h index List.mem_cons_self) hwhole⟩, ?_⟩
  intro inner hcomes
  cases hcomes with
  | here => exact hends
  | later whole => exact absurd whole hwhole

/-- A walk that goes on behind its first prototype, which is whole. -/
theorem Explored.cons {index : Nat} {others : List Nat}
    {outcome outcome' : Except CoverageError (List (Prototype × Nat))}
    (hwhole : m.Whole index) (hends : Acc (flip m.Enters) index)
    (h : m.Explored others outcome) (hsame : outcome'.isOk = outcome.isOk) :
    m.Explored (index :: others) outcome' := by
  refine ⟨?_, ?_⟩
  · rw [hsame, h.whole, List.forall_mem_cons]
    exact (and_iff_right hwhole).symm
  · intro inner hcomes
    cases hcomes with
    | here => exact hends
    | later _ rest => exact h.ends inner rest

/-- When the walk over the children of a prototype has an end, so has the one over its tree. -/
theorem Explored.acc {index : Nat} {outcome : Except CoverageError (List (Prototype × Nat))}
    (h : m.Explored (m.prototype index).children outcome) : Acc (flip m.Enters) index :=
  ⟨index, fun child hchild => h.ends child hchild.comes⟩

/-- A walk that ends has found out which trees are whole, and an end wherever it has come to. -/
theorem explored_of_forest {indices : List Nat} {depth : Nat}
    {outcome : Except CoverageError (List (Prototype × Nat))}
    (h : m.forest indices depth = some outcome) : m.Explored indices outcome := by
  -- by induction on how the walk has come to its end
  refine forest.partial_correctness m (fun indices _ outcome => m.Explored indices outcome) ?_
    indices depth outcome h
  intro walk ih indices depth outcome h
  cases indices with
  | nil =>
    cases h
    exact ⟨by simp [Except.isOk, Except.toBool], fun _ hcomes => nomatch hcomes⟩
  | cons index others =>
    simp only at h
    by_cases hlines : (m.prototype index).lines.isNone
    · have hnone : ¬ (m.prototype index).lines.isSome := by simpa using hlines
      rw [if_pos hlines] at h
      cases h
      exact .error (fun hwhole => hnone (whole_iff.1 hwhole).1)
        ⟨index, fun _ hchild => absurd hchild.lines hnone⟩
    · have hsome : (m.prototype index).lines.isSome := by
        simpa [Option.isSome_iff_ne_none] using hlines
      rw [if_neg hlines] at h
      obtain ⟨below | below, hbelow, h⟩ := Option.bind_eq_some_iff.1 h
      · have hchildren := ih _ _ _ hbelow
        cases h
        refine .error (fun hwhole => ?_) hchildren.acc
        cases hchildren.whole.2 (whole_iff.1 hwhole).2
      · have hchildren := ih _ _ _ hbelow
        have hwhole : m.Whole index := .node hsome (hchildren.whole.1 rfl)
        obtain ⟨beside | beside, hbeside, h⟩ := Option.bind_eq_some_iff.1 h
        · cases h
          exact .cons hwhole hchildren.acc (ih _ _ _ hbeside) rfl
        · cases h
          exact .cons hwhole hchildren.acc (ih _ _ _ hbeside) rfl

/-- A walk has an end if the one over the children of each prototype that it comes to has one. -/
theorem forest_ends {indices : List Nat}
    (h : ∀ index, m.ComesTo index indices → (m.prototype index).lines.isSome →
      ∀ depth, (m.forest (m.prototype index).children depth).isSome) (depth : Nat) :
    (m.forest indices depth).isSome := by
  induction indices with
  | nil =>
    rw [forest]
    rfl
  | cons index others ih =>
    rw [forest]
    by_cases hlines : (m.prototype index).lines.isNone
    · simp only [if_pos hlines]
      rfl
    · have hsome : (m.prototype index).lines.isSome := by
        simpa [Option.isSome_iff_ne_none] using hlines
      simp only [if_neg hlines]
      obtain ⟨outcome, hbelow⟩ :=
        Option.isSome_iff_exists.1 (h index (.here others) hsome (depth + 1))
      rw [hbelow]
      cases outcome with
      | error e => rfl
      | ok below =>
        have hwhole : m.Whole index := .node hsome ((explored_of_forest hbelow).whole.1 rfl)
        obtain ⟨outcome, hbeside⟩ := Option.isSome_iff_exists.1
          (ih fun inner hcomes => h inner (.later hwhole hcomes))
        simp only [hbeside, Option.bind_eq_bind, Option.bind_some]
        cases outcome <;> rfl

/-- The walk over the children of a prototype has an end if there is no way for it to go on without
end. -/
theorem forest_ends_of_acc {index : Nat} (h : Acc (flip m.Enters) index)
    (hlines : (m.prototype index).lines.isSome) (depth : Nat) :
    (m.forest (m.prototype index).children depth).isSome := by
  induction h generalizing depth with
  | intro index _ ih =>
    refine forest_ends (fun child hcomes hchild depth => ?_) depth
    exact ih child ⟨hlines, hcomes⟩ hchild depth

/-- A walk over one tree has an end exactly if it cannot go on without end. -/
theorem forest_singleton_ends_iff {index : Nat} (depth : Nat) :
    (m.forest [index] depth).isSome ↔ Acc (flip m.Enters) index := by
  constructor
  · intro h
    obtain ⟨outcome, h⟩ := Option.isSome_iff_exists.1 h
    exact (explored_of_forest h).ends index (.here [])
  · intro h
    refine forest_ends (fun inner hcomes hlines => ?_) depth
    cases hcomes with
    | here => exact forest_ends_of_acc h hlines
    | later _ rest => cases rest

/-! ## Going on without end -/

/-- What has no way to go on without end does not come to itself again. -/
theorem not_revisits_of_acc {index : Nat} (h : Acc (flip m.Enters) index) :
    ¬ m.Revisits index := by
  induction h with
  | intro index _ ih =>
    rintro ⟨inner, hreach, hcycle⟩
    obtain rfl | ⟨child, hchild, hrest⟩ := hreach.cases_head
    · obtain ⟨child, hchild, hback⟩ := TransGen.head'_iff.1 hcycle
      exact ih child hchild ⟨index, hback, hcycle⟩
    · exact ih child hchild ⟨inner, hrest, hcycle⟩

/-- There are finitely many prototypes, so that a walk that goes on without end comes to one of them
again. -/
theorem acc_iff_not_revisits {index : Nat} : Acc (flip m.Enters) index ↔ ¬ m.Revisits index := by
  refine ⟨not_revisits_of_acc, fun h => ?_⟩
  by_contra hacc
  obtain ⟨path, hzero, hpath⟩ := not_acc_iff_exists_descending_chain.1 hacc
  have hgoes : ∀ start length, ReflTransGen m.Enters (path start) (path (start + length)) := by
    intro start length
    induction length with
    | zero => exact .refl
    | succ length ih => exact ih.tail (hpath _)
  have hrange : ∀ n, path n ∈ {index | index < m.prototypes.size} :=
    fun n => lt_size_of_lines (hpath n).lines
  obtain ⟨a, b, hlt, hsame⟩ :=
    Set.Finite.exists_lt_map_eq_of_forall_mem hrange (Set.finite_lt_nat _)
  obtain ⟨length, rfl⟩ := Nat.exists_eq_add_of_lt hlt
  refine h ⟨path a, ?_, ?_⟩
  · have hreach := hgoes 0 a
    rwa [hzero, Nat.zero_add] at hreach
  · have hcycle := TransGen.tail' (hgoes a length) (hpath (a + length))
    rwa [← hsame] at hcycle

/-! ## Reports -/

theorem tree_ends_iff (root : Option Nat) :
    (m.tree root).isSome ↔ ¬ m.Revisits (root.getD m.main) := by
  unfold tree
  by_cases hrange : root.getD m.main < m.prototypes.size
  · simp only [if_pos hrange]
    rw [forest_singleton_ends_iff, acc_iff_not_revisits]
  · simp only [if_neg hrange, Option.isSome_some, true_iff]
    rw [← acc_iff_not_revisits]
    exact ⟨_, fun _ hchild => absurd (lt_size_of_lines hchild.lines) hrange⟩

/-- The report on a prototype, and its greatest line, are there exactly if the walk does not come to
a prototype below itself: either the lines with their counts, or the reason why there are none. -/
theorem coverage_ends_iff (m : Module) (root : Option Nat) :
    ((m.coverage root).isSome ↔ ¬ m.Revisits (root.getD m.main)) ∧
      ((m.maxLine root).isSome ↔ ¬ m.Revisits (root.getD m.main)) := by
  unfold coverage maxLine
  rw [Option.isSome_map, Option.isSome_map, tree_ends_iff]
  exact ⟨Iff.rfl, Iff.rfl⟩

/-- There are reports on all of a tree exactly if it is whole. -/
theorem tree_ok_iff (root : Option Nat) :
    (∃ below, m.tree root = some (.ok below)) ↔ m.Whole (root.getD m.main) := by
  constructor
  · rintro ⟨below, h⟩
    unfold tree at h
    by_cases hrange : root.getD m.main < m.prototypes.size
    · simp only [if_pos hrange] at h
      exact (explored_of_forest h).whole.1 rfl _ List.mem_cons_self
    · simp only [if_neg hrange] at h
      cases h
  · intro hwhole
    have hrange := lt_size_of_lines (whole_iff.1 hwhole).1
    obtain ⟨outcome, h⟩ :=
      Option.isSome_iff_exists.1 ((forest_singleton_ends_iff 0).2 hwhole.acc)
    have hok := (explored_of_forest h).whole.2 (List.forall_mem_singleton.2 hwhole)
    cases outcome with
    | error e => cases hok
    | ok below => exact ⟨below, by simp only [tree, if_pos hrange, h]⟩

/-- If every prototype stands behind its children, every walk has an end. -/
theorem tree_ends_of_children_lt
    (h : ∀ index, ∀ child ∈ (m.prototype index).children, child < index) (root : Option Nat) :
    (m.tree root).isSome := by
  rw [tree_ends_iff]
  rintro ⟨inner, -, hcycle⟩
  have hlt : ∀ {a b}, TransGen m.Enters a b → b < a := by
    intro a b hpath
    induction hpath with
    | single hchild => exact h _ _ hchild.comes.mem
    | tail _ hchild ih => exact (h _ _ hchild.comes.mem).trans ih
  exact lt_irrefl inner (hlt hcycle)

/-! ## A walk without end -/

/-- A module whose only prototype has line information and is its own child. -/
def selfChildModule : Bytes :=
  [6, 1, 0, 1, 1, 0, 0, 0, 0, 0, 1, 0x16, 0, 1, 0, 0, 1, 0, 0, 0, 1, 0, 0, 1, 0, 0, 0, 0, 0]

/-- The module can be loaded, and neither the report on it nor its greatest line comes to an end. -/
theorem no_coverage_of_selfChildModule :
    ∃ m heap, ({} : LoadOptions).load selfChildModule {} = .ok (m, heap) ∧
      m.coverage none = none ∧ m.maxLine none = none := by
  have hcheck : (({} : LoadOptions).load selfChildModule {}).toOption.any (fun loaded =>
      (loaded.1.prototype loaded.1.main).lines.isSome &&
        decide ((loaded.1.prototype loaded.1.main).children = [loaded.1.main])) = true := by
    decide +kernel
  rcases hload : ({} : LoadOptions).load selfChildModule {} with reason | ⟨m, heap⟩
  · rw [hload] at hcheck
    cases hcheck
  rw [hload] at hcheck
  simp only [Except.toOption, Option.any_some, Bool.and_eq_true, decide_eq_true_eq] at hcheck
  obtain ⟨hlines, hchildren⟩ := hcheck
  have henters : m.Enters m.main m.main := ⟨hlines, hchildren ▸ .here []⟩
  have htree : m.tree none = none := by
    rw [← Option.not_isSome_iff_eq_none, tree_ends_iff, not_not]
    exact ⟨m.main, .refl, .single henters⟩
  refine ⟨m, heap, rfl, ?_, ?_⟩
  · rw [coverage, htree]
    rfl
  · rw [maxLine, htree]
    rfl

end Module

end ScriptMachine
