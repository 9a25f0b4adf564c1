import Mathlib
import ScriptMachine.Proofs.Bytecode.Validity
import ScriptMachine.Proofs.Bytecode.Walks

/-!
# Paths through a tree of prototypes

A path says which child to go to, again and again.  A prototype that is a child of several others,
or several times of one, stands at the end of several paths.  A walk over a tree comes to the end of
every path, once for each path and in the order of paths: a path before all that go on behind it,
and what is behind a child before what is behind a later one.
-/

namespace ScriptMachine

open Relation

namespace Module

variable {m : Module}

/-! ## Paths -/

/-- The prototype at the end of a path, given by positions among children. -/
def follow (m : Module) : Nat → List Nat → Option Nat
  | index, [] => some index
  | index, k :: path =>
    match (m.prototype index).children[k]? with
    | some child => m.follow child path
    | none => none

/-- The prototype at the end of a path that begins with one of several prototypes. -/
def followAmong (m : Module) (indices : List Nat) : List Nat → Option Nat
  | [] => none
  | k :: path =>
    match indices[k]? with
    | some index => m.follow index path
    | none => none

/-- A prototype has another one among its children. -/
def HasChild (m : Module) (index child : Nat) : Prop := child ∈ (m.prototype index).children

/-- A prototype is another one, or below it. -/
abbrev Reaches (m : Module) : Nat → Nat → Prop := ReflTransGen m.HasChild

/-- No prototype of the tree below one of them is below itself. -/
def AcyclicFrom (m : Module) (root : Nat) : Prop :=
  ∀ inner, m.Reaches root inner → ¬ TransGen m.HasChild inner inner

theorem followAmong_succ (index k : Nat) (others path : List Nat) :
    m.followAmong (index :: others) ((k + 1) :: path) = m.followAmong others (k :: path) := rfl

/-- What is at the end of a path is below where it begins. -/
theorem reaches_of_follow {index inner : Nat} {path : List Nat}
    (h : m.follow index path = some inner) : m.Reaches index inner := by
  induction path generalizing index with
  | nil =>
    cases h
    exact .refl
  | cons k path ih =>
    rw [follow] at h
    split at h
    · rename_i child hchild
      exact .head (List.mem_of_getElem? hchild) (ih h)
    · cases h

/-- What is below a prototype is at the end of a path. -/
theorem exists_follow_of_reaches {index inner : Nat} (h : m.Reaches index inner) :
    ∃ path, m.follow index path = some inner := by
  induction h using ReflTransGen.head_induction_on with
  | refl => exact ⟨[], rfl⟩
  | head hchild _ ih =>
    obtain ⟨path, hpath⟩ := ih
    obtain ⟨k, hk⟩ := List.getElem?_of_mem hchild
    refine ⟨k :: path, ?_⟩
    rw [follow, hk]
    exact hpath

/-! ## Trees without line information -/

/-- All prototypes of a whole tree have line information. -/
theorem Whole.lines {index inner : Nat} (h : m.Whole index) (hreach : m.Reaches index inner) :
    (m.prototype inner).lines.isSome := by
  induction hreach using ReflTransGen.head_induction_on with
  | refl => exact (whole_iff.1 h).1
  | head hchild _ ih => exact ih ((whole_iff.1 h).2 _ hchild)

/-- A walk that fails has come to a prototype without line information. -/
theorem exists_noLines_of_forest {indices : List Nat} {depth : Nat} {e : CoverageError}
    (h : m.forest indices depth = some (.error e)) :
    ∃ index ∈ indices, ∃ inner, m.Reaches index inner ∧ (m.prototype inner).lines = none ∧
      e = .noLines (m.prototype inner).index (m.prototype inner).name := by
  -- by induction on how the walk has come to its end
  refine forest.partial_correctness m (fun indices _ outcome => ∀ e, outcome = .error e →
    ∃ index ∈ indices, ∃ inner, m.Reaches index inner ∧ (m.prototype inner).lines = none ∧
      e = .noLines (m.prototype inner).index (m.prototype inner).name) ?_ indices depth _ h e rfl
  clear h
  intro walk ih indices depth outcome h e he
  subst he
  cases indices with
  | nil => cases h
  | cons index others =>
    simp only at h
    by_cases hlines : (m.prototype index).lines.isNone
    · rw [if_pos hlines] at h
      cases h
      exact ⟨index, List.mem_cons_self, index, .refl, Option.isNone_iff_eq_none.1 hlines, rfl⟩
    · rw [if_neg hlines] at h
      obtain ⟨below | below, hbelow, h⟩ := Option.bind_eq_some_iff.1 h
      · cases h
        obtain ⟨child, hchild, inner, hreach, hinner⟩ := ih _ _ _ hbelow e rfl
        exact ⟨index, List.mem_cons_self, inner, .head hchild hreach, hinner⟩
      · obtain ⟨beside | beside, hbeside, h⟩ := Option.bind_eq_some_iff.1 h
        · cases h
          obtain ⟨other, hother, hinner⟩ := ih _ _ _ hbeside e rfl
          exact ⟨other, List.mem_cons_of_mem _ hother, hinner⟩
        · cases h

/-! ## Walks in order -/

/-- The entries of a walk are the ends of all paths, in the order of paths.  The walk may begin with
several prototypes at some depth. -/
structure Lists (m : Module) (indices : List Nat) (depth : Nat) (paths : List (List Nat))
    (entries : List (Prototype × Nat)) : Prop where
  /-- The paths are in order, each of them once. -/
  ordered : paths.Pairwise (· < ·)
  /-- All that lead to a prototype are there. -/
  complete : ∀ path, path ∈ paths ↔ (m.followAmong indices path).isSome
  /-- The entries are their ends. -/
  ends : List.Forall₂ (fun path (entry : Prototype × Nat) => ∃ index,
    m.followAmong indices path = some index ∧ entry.1 = m.prototype index ∧
      entry.2 + 1 = depth + path.length) paths entries

/-- A walk over no prototypes lists nothing. -/
theorem Lists.nil (depth : Nat) : m.Lists [] depth [] [] where
  ordered := .nil
  complete path := by
    cases path with
    | nil => simp [followAmong]
    | cons k path => simp [followAmong]
  ends := .nil

/-- A path that goes to the next one of several prototypes. -/
def next : List Nat → List Nat
  | [] => []
  | k :: path => (k + 1) :: path

theorem next_lt_next {path path' : List Nat} (h : path < path') : next path < next path' := by
  cases path with
  | nil =>
    cases path' with
    | nil => exact absurd h (List.not_lt_nil _)
    | cons k' path' => exact List.nil_lt_cons _ _
  | cons k path =>
    cases path' with
    | nil => exact absurd h (List.not_lt_nil _)
    | cons k' path' =>
      rw [next, next, List.cons_lt_cons_iff]
      rcases List.cons_lt_cons_iff.1 h with hlt | ⟨rfl, hlt⟩
      · exact .inl (Nat.succ_lt_succ hlt)
      · exact .inr ⟨rfl, hlt⟩

namespace Lists

variable {indices others : List Nat} {index depth : Nat} {paths inner outer : List (List Nat)}
  {entries below beside : List (Prototype × Nat)}

theorem ne_nil (h : m.Lists indices depth paths entries) {path : List Nat} (hpath : path ∈ paths) :
    path ≠ [] := by
  rintro rfl
  have hsome := (h.complete []).1 hpath
  cases hsome

/-- The paths to a first prototype and on to what is below it, and those to others, are in order. -/
theorem ordered_cons (hbelow : m.Lists (m.prototype index).children (depth + 1) inner below)
    (hbeside : m.Lists others depth outer beside) :
    ([0] :: inner.map (0 :: ·) ++ outer.map next).Pairwise (· < ·) := by
  refine List.pairwise_append.2 ⟨List.pairwise_cons.2 ⟨?_, ?_⟩, ?_, ?_⟩
  · intro path hpath
    obtain ⟨path, hinner, rfl⟩ := List.mem_map.1 hpath
    obtain ⟨k, path, rfl⟩ := List.exists_cons_of_ne_nil (hbelow.ne_nil hinner)
    exact List.cons_lt_cons_iff.2 (.inr ⟨rfl, List.nil_lt_cons _ _⟩)
  · exact List.pairwise_map.2
      (hbelow.ordered.imp fun hlt => List.cons_lt_cons_iff.2 (.inr ⟨rfl, hlt⟩))
  · exact List.pairwise_map.2 (hbeside.ordered.imp next_lt_next)
  · intro path hpath path' hpath'
    obtain ⟨path', houter, rfl⟩ := List.mem_map.1 hpath'
    obtain ⟨k, path', rfl⟩ := List.exists_cons_of_ne_nil (hbeside.ne_nil houter)
    have hzero : ∃ rest, path = 0 :: rest := by
      rcases List.mem_cons.1 hpath with rfl | hpath
      · exact ⟨[], rfl⟩
      · obtain ⟨rest, -, rfl⟩ := List.mem_map.1 hpath
        exact ⟨rest, rfl⟩
    obtain ⟨rest, rfl⟩ := hzero
    exact List.cons_lt_cons_iff.2 (.inl (Nat.succ_pos k))

theorem mem_map_next_iff {k : Nat} {path : List Nat} :
    (k + 1) :: path ∈ outer.map next ↔ k :: path ∈ outer := by
  constructor
  · intro h
    obtain ⟨path', houter, heq⟩ := List.mem_map.1 h
    cases path' with
    | nil => cases heq
    | cons k' path' =>
      cases heq
      exact houter
  · exact fun h => List.mem_map.2 ⟨k :: path, h, rfl⟩

/-- A walk lists a prototype, then what is below it, then the others with what is below them. -/
theorem cons (hbelow : m.Lists (m.prototype index).children (depth + 1) inner below)
    (hbeside : m.Lists others depth outer beside) :
    m.Lists (index :: others) depth ([0] :: inner.map (0 :: ·) ++ outer.map next)
      ((m.prototype index, depth) :: below ++ beside) where
  ordered := hbelow.ordered_cons hbeside
  complete path := by
    rw [List.mem_append, List.mem_cons]
    match path with
    | [] =>
      have hnext : [] ∉ outer.map next := by
        intro h
        obtain ⟨path, houter, heq⟩ := List.mem_map.1 h
        obtain ⟨k, path, rfl⟩ := List.exists_cons_of_ne_nil (hbeside.ne_nil houter)
        cases heq
      simp [followAmong, hnext]
    | [0] => simp [followAmong, follow]
    | 0 :: k :: path =>
      have hinner : 0 :: k :: path ∈ inner.map (0 :: ·) ↔ k :: path ∈ inner := by simp
      have hnext : 0 :: k :: path ∉ outer.map next := by
        intro h
        obtain ⟨path', houter, heq⟩ := List.mem_map.1 h
        obtain ⟨k', path', rfl⟩ := List.exists_cons_of_ne_nil (hbeside.ne_nil houter)
        cases heq
      have hfollow : m.followAmong (index :: others) (0 :: k :: path) =
          m.followAmong (m.prototype index).children (k :: path) := rfl
      rw [hinner, hbelow.complete, hfollow]
      simp [hnext]
    | (k + 1) :: path =>
      rw [mem_map_next_iff, hbeside.complete, followAmong_succ]
      simp
  ends := by
    refine List.rel_append (.cons ⟨index, rfl, rfl, rfl⟩ ?_) ?_
    · rw [List.forall₂_map_left_iff]
      refine hbelow.ends.imp ?_
      rintro path entry ⟨inner, hinner, hentry, hdepth⟩
      cases path with
      | nil => cases hinner
      | cons k path =>
        refine ⟨inner, hinner, hentry, ?_⟩
        rw [hdepth, List.length_cons (a := 0)]
        omega
    · rw [List.forall₂_map_left_iff]
      refine hbeside.ends.imp ?_
      rintro path entry ⟨inner, hinner, hentry, hdepth⟩
      cases path with
      | nil => cases hinner
      | cons k path => exact ⟨inner, hinner, hentry, hdepth⟩

end Lists

/-- A walk that succeeds lists all paths in order. -/
theorem lists_of_forest {indices : List Nat} {depth : Nat} {entries : List (Prototype × Nat)}
    (h : m.forest indices depth = some (.ok entries)) :
    ∃ paths, m.Lists indices depth paths entries := by
  -- by induction on how the walk has come to its end
  refine forest.partial_correctness m (fun indices depth outcome => ∀ entries,
    outcome = .ok entries → ∃ paths, m.Lists indices depth paths entries)
    ?_ indices depth _ h entries rfl
  clear h
  intro walk ih indices depth outcome h entries hentries
  subst hentries
  cases indices with
  | nil =>
    cases h
    exact ⟨[], .nil depth⟩
  | cons index others =>
    simp only at h
    by_cases hlines : (m.prototype index).lines.isNone
    · rw [if_pos hlines] at h
      cases h
    · rw [if_neg hlines] at h
      obtain ⟨below | below, hbelow, h⟩ := Option.bind_eq_some_iff.1 h
      · cases h
      · obtain ⟨beside | beside, hbeside, h⟩ := Option.bind_eq_some_iff.1 h
        · cases h
        · cases h
          obtain ⟨inner, hinner⟩ := ih _ _ _ hbelow below rfl
          obtain ⟨outer, houter⟩ := ih _ _ _ hbeside beside rfl
          exact ⟨_, hinner.cons houter⟩

/-! ## One tree -/

/-- The entries are the ends of all paths from a prototype, in the order of paths. -/
structure Visits (m : Module) (root : Nat) (paths : List (List Nat))
    (entries : List (Prototype × Nat)) : Prop where
  /-- The paths are in order, each of them once. -/
  ordered : paths.Pairwise (· < ·)
  /-- All that lead to a prototype are there. -/
  complete : ∀ path, path ∈ paths ↔ (m.follow root path).isSome
  /-- The entries are their ends, each as deep as its path is long. -/
  ends : List.Forall₂ (fun path entry => ∃ index,
    m.follow root path = some index ∧ entry = (m.prototype index, path.length)) paths entries

/-- A walk that begins with one prototype visits its tree. -/
theorem Lists.visits {root : Nat} {paths : List (List Nat)} {entries : List (Prototype × Nat)}
    (h : m.Lists [root] 0 paths entries) : ∃ paths, m.Visits root paths entries := by
  have hzero : ∀ path ∈ paths, 0 :: path.tail = path := by
    intro path hpath
    obtain ⟨k, path, rfl⟩ := List.exists_cons_of_ne_nil (h.ne_nil hpath)
    cases k with
    | zero => rfl
    | succ k =>
      have hsome := (h.complete _).1 hpath
      cases hsome
  obtain ⟨paths, rfl⟩ : ∃ tails : List (List Nat), paths = tails.map (0 :: ·) := by
    refine ⟨paths.map List.tail, ?_⟩
    rw [List.map_map]
    exact ((List.map_congr_left hzero).trans (List.map_id' paths)).symm
  refine ⟨paths, ?_, fun path => ?_, ?_⟩
  · refine (List.pairwise_map.1 h.ordered).imp fun {path path'} hlt => ?_
    rcases List.cons_lt_cons_iff.1 hlt with hlt | ⟨-, hlt⟩
    · exact absurd hlt (Nat.lt_irrefl 0)
    · exact hlt
  · have hcomplete := h.complete (0 :: path)
    simpa [followAmong] using hcomplete
  · refine (List.forall₂_map_left_iff.1 h.ends).imp ?_
    rintro path ⟨p, depth⟩ ⟨index, hindex, rfl, hdepth⟩
    refine ⟨index, hindex, Prod.ext rfl ?_⟩
    rw [List.length_cons] at hdepth
    exact Nat.succ.inj (hdepth.trans (Nat.zero_add _))

/-- Every entry of a tree is of a prototype that is reached. -/
theorem Visits.reaches {root : Nat} {paths : List (List Nat)} {entries : List (Prototype × Nat)}
    (h : m.Visits root paths entries) :
    ∀ entry ∈ entries, ∃ index, m.Reaches root index ∧ entry.1 = m.prototype index := by
  refine forall_of_forall₂ (h.ends.imp ?_)
  rintro path _ ⟨index, hindex, rfl⟩
  exact ⟨index, reaches_of_follow hindex, rfl⟩

theorem not_revisits_of_acyclic {root : Nat} (h : m.AcyclicFrom root) : ¬ m.Revisits root := by
  rintro ⟨inner, hreach, hcycle⟩
  have hle : m.Enters ≤ m.HasChild := fun _ _ hchild => hchild.comes.mem
  exact h inner (ReflTransGen.mono hle _ _ hreach) (TransGen.mono hle _ _ hcycle)

/-- A walk fails if the prototype that it begins with is not there, or if a prototype below it has
no line information. -/
def Unreportable (m : Module) (root : Nat) : Prop :=
  m.prototypes.size ≤ root ∨ ∃ index, m.Reaches root index ∧ (m.prototype index).lines = none

/-- A walk over a tree without cycles fails exactly if it should, and otherwise visits the tree. -/
theorem tree_of_acyclic {root : Option Nat} (h : m.AcyclicFrom (root.getD m.main)) :
    ((∃ e, m.tree root = some (.error e)) ↔ m.Unreportable (root.getD m.main)) ∧
      (¬ m.Unreportable (root.getD m.main) → ∃ paths entries,
        m.tree root = some (.ok entries) ∧ m.Visits (root.getD m.main) paths entries) := by
  obtain ⟨outcome, htree⟩ := Option.isSome_iff_exists.1
    ((tree_ends_iff root).2 (not_revisits_of_acyclic h))
  cases outcome with
  | error e =>
    have hbad : m.Unreportable (root.getD m.main) := by
      unfold tree at htree
      by_cases hrange : root.getD m.main < m.prototypes.size
      · simp only [if_pos hrange] at htree
        obtain ⟨index, hindex, inner, hreach, hlines, -⟩ := exists_noLines_of_forest htree
        cases List.mem_singleton.1 hindex
        exact .inr ⟨inner, hreach, hlines⟩
      · exact .inl (Nat.not_lt.1 hrange)
    exact ⟨⟨fun _ => hbad, fun _ => ⟨e, htree⟩⟩, fun hgood => absurd hbad hgood⟩
  | ok entries =>
    have hwhole := (tree_ok_iff root).1 ⟨entries, htree⟩
    have hgood : ¬ m.Unreportable (root.getD m.main) := by
      rintro (hrange | ⟨index, hreach, hlines⟩)
      · exact Nat.not_lt.2 hrange (lt_size_of_lines (hwhole.lines .refl))
      · have hsome := hwhole.lines hreach
        rw [hlines] at hsome
        cases hsome
    refine ⟨⟨?_, fun hbad => absurd hbad hgood⟩, fun _ => ?_⟩
    · rintro ⟨e, he⟩
      rw [htree] at he
      cases he
    · have hrange := lt_size_of_lines (hwhole.lines .refl)
      have hforest := htree
      simp only [tree, if_pos hrange] at hforest
      obtain ⟨paths, hlists⟩ := lists_of_forest hforest
      obtain ⟨paths, hvisits⟩ := hlists.visits
      exact ⟨paths, entries, htree, hvisits⟩

end Module

end ScriptMachine
