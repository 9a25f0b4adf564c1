import Mathlib
import ScriptMachine.Proofs.Bytecode.Paths
import ScriptMachine.Proofs.Bytecode.Respelling

/-!
# What a coverage report says

The report on a tree of prototypes has an entry for the end of every path, and an entry has a count
for every line with coverage instructions, which is the greatest among them.  The instructions are
told by what they were before a breakpoint was set over them.  The greatest line is over all slots,
those without coverage instructions and those of auxiliary words too.
-/

namespace ScriptMachine

/-! ## Counts by line -/

section Hits

variable {line l : Int} {n c : Nat} {hits : List (Int × Nat)}

theorem mem_of_mem_insertHits {entry : Int × Nat} (h : entry ∈ insertHits line n hits) :
    entry.1 = line ∨ entry ∈ hits := by
  induction hits with
  | nil =>
    rw [insertHits, List.mem_singleton] at h
    exact .inl (congrArg Prod.fst h)
  | cons first others ih =>
    rw [insertHits] at h
    split at h
    · rcases List.mem_cons.1 h with rfl | h
      · exact .inl rfl
      · exact .inr h
    · split at h
      · rcases List.mem_cons.1 h with rfl | h
        · exact .inl rfl
        · exact .inr (List.mem_cons_of_mem _ h)
      · rcases List.mem_cons.1 h with rfl | h
        · exact .inr List.mem_cons_self
        · exact (ih h).imp_right (List.mem_cons_of_mem _)

theorem pairwise_insertHits (h : hits.Pairwise (·.1 < ·.1)) :
    (insertHits line n hits).Pairwise (·.1 < ·.1) := by
  induction hits with
  | nil => exact List.pairwise_singleton _ _
  | cons first others ih =>
    obtain ⟨hfirst, hothers⟩ := List.pairwise_cons.1 h
    rw [insertHits]
    split
    · rename_i hlt
      refine List.pairwise_cons.2 ⟨fun entry hentry => ?_, h⟩
      rcases List.mem_cons.1 hentry with rfl | hentry
      · exact hlt
      · exact hlt.trans (hfirst entry hentry)
    · rename_i hle
      split
      · rename_i heq
        exact List.pairwise_cons.2 ⟨fun entry hentry => heq ▸ hfirst entry hentry, hothers⟩
      · rename_i hne
        refine List.pairwise_cons.2 ⟨fun entry hentry => ?_, ih hothers⟩
        rcases mem_of_mem_insertHits hentry with hline | hentry
        · rw [hline]
          omega
        · exact hfirst entry hentry

/-- Other lines keep their counts. -/
theorem mem_insertHits_of_ne (hne : l ≠ line) :
    (l, c) ∈ insertHits line n hits ↔ (l, c) ∈ hits := by
  induction hits with
  | nil => simp [insertHits, hne]
  | cons first others ih =>
    rw [insertHits]
    split
    · simp [hne]
    · split
      · rename_i heq
        have hfirst : (l, c) ≠ first := by
          rintro rfl
          exact hne heq.symm
        simp [hne, hfirst]
      · rw [List.mem_cons, List.mem_cons, ih]

/-- The line has the greater one of its count and the new one. -/
theorem mem_insertHits_self (h : hits.Pairwise (·.1 < ·.1)) :
    (line, c) ∈ insertHits line n hits ↔
      (∃ c', (line, c') ∈ hits ∧ c = max c' n) ∨ (∀ c', (line, c') ∉ hits) ∧ c = n := by
  induction hits with
  | nil => simp [insertHits]
  | cons first others ih =>
    obtain ⟨hfirst, hothers⟩ := List.pairwise_cons.1 h
    obtain ⟨line', n'⟩ := first
    have hlater : ∀ c', line ≤ line' → (line, c') ∉ others :=
      fun c' hle hmem => absurd (hfirst _ hmem) (Int.not_lt.2 hle)
    rw [insertHits]
    split
    · rename_i hlt
      have hnone : ∀ c', (line, c') ∉ (line', n') :: others := by
        intro c' hmem
        rcases List.mem_cons.1 hmem with heq | hmem
        · exact absurd (congrArg Prod.fst heq) (Int.ne_of_lt hlt)
        · exact hlater c' (Int.le_of_lt hlt) hmem
      simp only [List.mem_cons (a := (line, c)) (b := (line, n)), hnone]
      simp
    · split
      · rename_i heq
        obtain rfl : line = line' := heq
        simp [hlater _ (Int.le_refl _)]
      · rename_i hne
        have hfirst : ∀ c', (line, c') ≠ (line', n') := fun c' heq => hne (congrArg Prod.fst heq)
        simp only [List.mem_cons, hfirst, false_or]
        exact ih hothers

/-- The counts are the greatest ones of some points, each with its line and its count. -/
structure Tallies (hits : List (Int × Nat)) (points : Set (Int × Nat)) : Prop where
  /-- There is one count for each line, by increasing line. -/
  increasing : hits.Pairwise (·.1 < ·.1)
  /-- It is the greatest on the line. -/
  greatest : ∀ line n, (line, n) ∈ hits ↔ IsGreatest {n | (line, n) ∈ points} n
  /-- There is one for each line with points. -/
  lines : ∀ line n, (line, n) ∈ points → ∃ most, (line, most) ∈ hits

theorem tallies_nil : Tallies [] ∅ where
  increasing := .nil
  greatest _ _ := ⟨nofun, fun h => h.1.elim⟩
  lines _ _ h := h.elim

theorem Tallies.insert {points : Set (Int × Nat)} (h : Tallies hits points) (line : Int) (n : Nat) :
    Tallies (insertHits line n hits) (insert (line, n) points) where
  increasing := pairwise_insertHits h.increasing
  greatest l c := by
    by_cases hne : l = line
    · subst hne
      have hset : {n' | (l, n') ∈ Insert.insert (l, n) points} =
          Insert.insert n {n' | (l, n') ∈ points} := by
        ext n'
        simp
      rw [mem_insertHits_self h.increasing, hset]
      have hmost : ∀ c', (l, c') ∈ hits →
          IsGreatest (Insert.insert n {n' | (l, n') ∈ points}) (max c' n) := by
        intro c' hc'
        rw [max_comm]
        exact ((h.greatest l c').1 hc').insert n
      constructor
      · rintro (⟨c', hc', rfl⟩ | ⟨hnone, rfl⟩)
        · exact hmost c' hc'
        · refine ⟨Set.mem_insert c _, ?_⟩
          rintro n' (rfl | hn')
          · exact le_rfl
          · obtain ⟨most, hmem⟩ := h.lines l n' hn'
            exact absurd hmem (hnone most)
      · intro hc
        by_cases hsome : ∃ c', (l, c') ∈ hits
        · obtain ⟨c', hc'⟩ := hsome
          exact .inl ⟨c', hc', hc.unique (hmost c' hc')⟩
        · refine .inr ⟨not_exists.1 hsome, ?_⟩
          rcases hc.1 with rfl | hmem
          · rfl
          · exact absurd (h.lines l c hmem) hsome
    · rw [mem_insertHits_of_ne hne, h.greatest]
      have hset : {n' | (l, n') ∈ Insert.insert (line, n) points} = {n' | (l, n') ∈ points} := by
        ext n'
        simp [hne]
      rw [hset]
  lines l c hmem := by
    by_cases hne : l = line
    · subst hne
      by_cases hsome : ∃ c', (l, c') ∈ hits
      · obtain ⟨c', hc'⟩ := hsome
        exact ⟨max c' n, (mem_insertHits_self h.increasing).2 (.inl ⟨c', hc', rfl⟩)⟩
      · exact ⟨n, (mem_insertHits_self h.increasing).2 (.inr ⟨not_exists.1 hsome, rfl⟩)⟩
    · have hold : (l, c) ∈ points := by simpa [hne] using hmem
      obtain ⟨most, hmost⟩ := h.lines l c hold
      exact ⟨most, (mem_insertHits_of_ne hne).2 hmost⟩

end Hits

namespace Prototype

variable {p : Prototype}

/-- The counts of the coverage instructions that are on a line. -/
def countsOn (p : Prototype) (line : Int) : Set Nat :=
  {n | ∃ (slot : Nat) (i : Instruction), p.code[slot]? = some (.instruction i) ∧
    i.underlying = .coverage ∧ p.lineAt slot = line ∧ i.hits.toNat = n}

theorem mem_coveragePoints {line : Int} {n : Nat} :
    (line, n) ∈ p.coveragePoints ↔ n ∈ p.countsOn line := by
  unfold coveragePoints countsOn
  rw [List.mem_filterMap]
  constructor
  · rintro ⟨⟨s, slot⟩, hslot, heq⟩
    rw [List.mem_zipIdx_iff_getElem?, Array.getElem?_toList] at hslot
    cases s with
    | aux word => cases heq
    | instruction i =>
      simp only at heq
      split at heq
      · rename_i hcoverage
        cases heq
        exact ⟨slot, i, hslot, hcoverage, rfl, rfl⟩
      · cases heq
  · rintro ⟨slot, i, hslot, hcoverage, rfl, rfl⟩
    refine ⟨(.instruction i, slot), ?_, ?_⟩
    · rw [List.mem_zipIdx_iff_getElem?, Array.getElem?_toList]
      exact hslot
    · simp only [hcoverage, if_true]

theorem tallies_foldl (points : List (Int × Nat)) {hits : List (Int × Nat)}
    {before : Set (Int × Nat)} (h : Tallies hits before) :
    Tallies (points.foldl (fun hits (line, n) => insertHits line n hits) hits)
      (before ∪ {point | point ∈ points}) := by
  induction points generalizing hits before with
  | nil => simpa using h
  | cons point points ih =>
    have hmore := ih (h.insert point.1 point.2)
    have hset : before ∪ {p | p ∈ point :: points} =
        Insert.insert point before ∪ {p | p ∈ points} := by
      ext p
      simp only [Set.mem_union, Set.mem_ofPred_eq, List.mem_cons, Set.mem_insert_iff]
      tauto
    rw [hset]
    exact hmore

/-- What is reported on a prototype are the greatest counts on its lines. -/
theorem tallies_coverage (p : Prototype) (depth : Nat) :
    Tallies (p.coverage depth).hits {point | point ∈ p.coveragePoints} := by
  have htallies := tallies_foldl p.coveragePoints tallies_nil
  rwa [Set.empty_union] at htallies

/-! ## Lines -/

/-- The lines of the slots of a prototype. -/
def linesOf (p : Prototype) : Set Int := {line | ∃ slot < p.code.size, p.lineAt slot = line}

/-- The greatest of a number and of what is made of some items. -/
theorem isGreatest_foldl_max {α : Type} (f : α → Int) (items : List α) (start : Int) :
    IsGreatest {n | n = start ∨ ∃ item ∈ items, f item = n}
      (items.foldl (fun most item => max most (f item)) start) := by
  induction items generalizing start with
  | nil => simp [IsGreatest, upperBounds]
  | cons item items ih =>
    obtain ⟨hmem, hupper⟩ := ih (max start (f item))
    have hstart : max start (f item) ≤ _ := hupper (.inl rfl)
    refine ⟨?_, ?_⟩
    · rcases hmem with heq | ⟨other, hother, heq⟩
      · rcases max_choice start (f item) with hmax | hmax
        · exact .inl (heq.trans hmax)
        · exact .inr ⟨item, List.mem_cons_self, (heq.trans hmax).symm⟩
      · exact .inr ⟨other, List.mem_cons_of_mem _ hother, heq⟩
    · rintro n (rfl | ⟨other, hother, rfl⟩)
      · exact (le_max_left n _).trans hstart
      · rcases List.mem_cons.1 hother with rfl | hother
        · exact (le_max_right start _).trans hstart
        · exact hupper (.inr ⟨other, hother, rfl⟩)

theorem isGreatest_maxLine {lines : Array Int} (hlines : p.lines = some lines)
    (hsize : lines.size = p.code.size) :
    IsGreatest {line | line = 0 ∨ line ∈ p.linesOf} p.maxLine := by
  have hgreatest := isGreatest_foldl_max id lines.toList 0
  have hset : {line | line = 0 ∨ line ∈ p.linesOf} =
      {n | n = 0 ∨ ∃ item ∈ lines.toList, id item = n} := by
    ext line
    refine or_congr Iff.rfl ?_
    have hat : ∀ slot, p.lineAt slot = lines.getD slot 0 := by
      intro slot
      rw [PrototypeHeader.lineAt, hlines]
    simp only [linesOf, hat, ← hsize]
    constructor
    · rintro ⟨slot, hslot, rfl⟩
      refine ⟨lines[slot], by simp, ?_⟩
      simp [Array.getD, hslot]
    · rintro ⟨item, hitem, rfl⟩
      obtain ⟨slot, hslot, rfl⟩ := Array.mem_iff_getElem.1 (Array.mem_toList_iff.1 hitem)
      exact ⟨slot, hslot, by simp [Array.getD, hslot]⟩
  rw [hset, maxLine, hlines, Option.getD_some, ← Array.foldl_toList]
  exact hgreatest

end Prototype

/-! ## Positions -/

namespace Image

open Reader

variable {decode : UInt32 → UInt32} {version : UInt8} {strings : List Bytes}

theorem ensures_index (index : Nat) (c : Cursor) :
    Ensures (readPrototype decode version strings index) c fun p _ => p.index = index := by
  rw [readPrototype_eq]
  exact .bind fun _ _ _ => .bind fun _ _ _ => .bind fun _ _ _ => .bind fun _ _ _ =>
    .bind fun _ _ _ => .bind fun _ _ _ => .pure rfl

/-- Prototypes that are read one after the other are numbered one after the other. -/
theorem ensures_indices (count index : Nat) (c : Cursor) :
    Ensures (readPrototypes decode version strings count index) c fun ps _ =>
      ps.map (·.index) = List.range' index count := by
  induction count generalizing index c with
  | zero => exact .pure rfl
  | succ count ih =>
    refine .bind fun first c₁ hfirst => .bind fun others c₂ hothers => .pure ?_
    rw [List.map_cons, ensures_index index c first c₁ hfirst, ih (index + 1) c₁ others c₂ hothers]
    rfl

/-- The prototypes of an image are numbered as they stand in it. -/
theorem ensures_numbered (c : Cursor) :
    Ensures (reader decode) c fun image _ =>
      image.prototypes.map (·.index) = List.range image.prototypes.length := by
  rw [reader_eq]
  refine .bind fun _ _ _ => .bind fun _ _ _ => .bind fun count c₃ _ => .bind fun ps c₄ hps =>
    .bind fun _ _ _ => .bind fun _ _ _ => .pure ?_
  have hindices := ensures_indices count 0 c₃ ps c₄ hps
  have hlength := congrArg List.length hindices
  rw [List.length_map, List.length_range'] at hlength
  rw [map_nameMain fun _ => rfl, hindices, nameMain, List.length_modify, hlength,
    List.range_eq_range']

end Image

/-- The prototypes know where they stand, and their lines, if known, are those of their slots. -/
structure Module.Numbered (m : Module) : Prop where
  /-- They know where they stand. -/
  index : ∀ (k : Nat) p, m.prototypes[k]? = some p → p.index = k
  /-- Their lines are those of their slots. -/
  lines : ∀ (k : Nat) p, m.prototypes[k]? = some p →
    ∀ lines, p.lines = some lines → lines.size = p.code.size

/-- What becomes of a module while it is used: breakpoints are set and cleared, runs are counted,
and the counts are set to zero. -/
inductive Module.Edit (m : Module) : Module → Prop where
  /-- A breakpoint is set or cleared. -/
  | patch {index slot : Nat} {enabled : Bool} {m' : Module}
    (h : m.setBreakpoint index slot enabled = .ok m') : Edit m m'
  /-- A run is counted. -/
  | hit (index slot : Nat) : Edit m (m.countHit index slot)
  /-- The counts are set to zero. -/
  | reset : Edit m m.resetCoverage

/-- A module has come out of another one by edits. -/
abbrev Module.Edits : Module → Module → Prop := Relation.ReflTransGen Module.Edit

namespace Module

variable {m m' : Module}

/-- What is done to a prototype's code slot by slot leaves the module numbered. -/
theorem Numbered.of_changed (h : m.Numbered)
    (hchanged : ∀ (k : Nat) p', m'.prototypes[k]? = some p' → ∃ p, m.prototypes[k]? = some p ∧
      p'.toPrototypeHeader = p.toPrototypeHeader ∧ p'.code.size = p.code.size) :
    m'.Numbered where
  index k p' hp' := by
    obtain ⟨p, hp, hheader, -⟩ := hchanged k p' hp'
    rw [hheader]
    exact h.index k p hp
  lines k p' hp' := by
    obtain ⟨p, hp, hheader, hsize⟩ := hchanged k p' hp'
    rw [hheader, hsize]
    exact h.lines k p hp

theorem Numbered.modifyInstruction (h : m.Numbered) (index slot : Nat)
    (f : Instruction → Instruction) : (m.modifyInstruction index slot f).Numbered := by
  refine h.of_changed fun k p' hp' => ?_
  rw [Module.modifyInstruction, Array.getElem?_modify] at hp'
  split at hp'
  · obtain ⟨p, hp, rfl⟩ := Option.map_eq_some_iff.1 hp'
    exact ⟨p, hp, rfl, Array.size_modify⟩
  · exact ⟨p', hp', rfl, rfl⟩

theorem Numbered.edit (h : m.Numbered) (hedit : m.Edit m') : m'.Numbered := by
  cases hedit with
  | patch hset =>
    unfold setBreakpoint at hset
    split at hset
    · cases hset
    · split at hset
      · cases hset
      · cases hset
        exact h.modifyInstruction _ _ _
  | hit index slot => exact h.modifyInstruction index slot _
  | reset =>
    refine h.of_changed fun k p' hp' => ?_
    rw [resetCoverage, Array.getElem?_map] at hp'
    obtain ⟨p, hp, rfl⟩ := Option.map_eq_some_iff.1 hp'
    exact ⟨p, hp, rfl, Array.size_map⟩

theorem Numbered.edits (h : m.Numbered) (hedits : m.Edits m') : m'.Numbered := by
  induction hedits with
  | refl => exact h
  | tail _ hedit ih => exact ih.edit hedit

end Module

/-- A loaded module is numbered. -/
theorem LoadOptions.numbered_of_load {options : LoadOptions} {bytes : Bytes} {heap heap' : Heap}
    {n : Module} (h : options.load bytes heap = .ok (n, heap')) : n.Numbered := by
  unfold load Image.read at h
  cases hrun : Image.reader (options.decodeWord.getD id) (.ofBytes bytes) with
  | error e c' =>
    rw [hrun] at h
    cases h
  | ok image c' =>
    rw [hrun] at h
    have hn : n = (options.link image heap).1 := (congrArg Prod.fst (Except.ok.inj h)).symm
    have hnumbered := Image.ensures_numbered _ image c' hrun
    obtain ⟨hsound, c₁, -⟩ := Image.ensures_reader _ image c' hrun
    obtain ⟨hwell, -⟩ := @wellFormed_link options image hsound heap
    rw [hn]
    have hlinked : List.Forall₂ (fun p q => p.index = q.index) image.prototypes
        (options.link image heap).1.prototypes.toList :=
      forall₂_mapM (fun p heap => by
        obtain ⟨constants, heap', -, heq⟩ := @exists_linkPrototype options p heap
        rw [heq]) image.prototypes heap
    have hindices : image.prototypes.map (·.index) =
        (options.link image heap).1.prototypes.toList.map (·.index) := by
      rw [← List.forall₂_eq_eq_eq, List.forall₂_map_left_iff, List.forall₂_map_right_iff]
      exact hlinked
    refine ⟨fun k p hp => ?_, fun k p hp => (hwell.prototypes p (Array.mem_of_getElem? hp)).lines⟩
    have hk : ((options.link image heap).1.prototypes.toList.map (·.index))[k]? = some p.index := by
      rw [List.getElem?_map, Array.getElem?_toList, hp]
      rfl
    rw [← hindices, hnumbered] at hk
    obtain ⟨_, heq⟩ := List.getElem?_eq_some_iff.1 hk
    rw [List.getElem_range] at heq
    exact heq.symm

/-! ## Reports -/

/-- The entry is the report on a prototype at some depth: for each line with coverage instructions,
the greatest count among them. -/
structure PrototypeCoverage.Describes (entry : PrototypeCoverage) (m : Module) (k depth : Nat) :
    Prop where
  /-- The position is that of the prototype. -/
  index : entry.index = k
  /-- The name is that of the prototype. -/
  name : entry.name = (m.prototype k).name
  /-- The line is the one on which the prototype begins. -/
  lineDefined : entry.lineDefined = (m.prototype k).lineDefined
  /-- The depth is as said. -/
  depth : entry.depth = depth
  /-- Each line is there once, by increasing line. -/
  increasing : entry.hits.Pairwise (·.1 < ·.1)
  /-- The lines are those with coverage instructions, each with their greatest count. -/
  hits : ∀ line n, (line, n) ∈ entry.hits ↔ IsGreatest ((m.prototype k).countsOn line) n

namespace Module

variable {m : Module} {root : Nat} {paths : List (List Nat)} {entries : List (Prototype × Nat)}
  {report : List PrototypeCoverage}

/-- The entries are the reports on the prototypes at the ends of all paths from a prototype, in the
order of paths, each as deep as its path is long. -/
structure Reports (m : Module) (root : Nat) (paths : List (List Nat))
    (report : List PrototypeCoverage) : Prop where
  /-- The paths are in order, each of them once. -/
  ordered : paths.Pairwise (· < ·)
  /-- All that lead to a prototype are there. -/
  complete : ∀ path, path ∈ paths ↔ (m.follow root path).isSome
  /-- The entries are the reports on their ends. -/
  entries : List.Forall₂ (fun path entry => ∃ index, m.follow root path = some index ∧
    entry.Describes m index path.length) paths report

/-- The lines of all slots that are reached from a prototype. -/
def linesFrom (m : Module) (root : Nat) : Set Int :=
  {line | ∃ index, m.Reaches root index ∧ line ∈ (m.prototype index).linesOf}

/-- Every element on the left of a pointwise relation is related to one on the right. -/
theorem exists_of_forall₂ {α β : Type} {R : α → β → Prop} {as : List α} {bs : List β}
    (h : List.Forall₂ R as bs) : ∀ a ∈ as, ∃ b ∈ bs, R a b := by
  induction h with
  | nil => exact fun a ha => absurd ha List.not_mem_nil
  | cons hab _ ih =>
    refine List.forall_mem_cons.2 ⟨⟨_, List.mem_cons_self, hab⟩, fun a ha => ?_⟩
    obtain ⟨b, hb, hR⟩ := ih a ha
    exact ⟨b, List.mem_cons_of_mem _ hb, hR⟩

/-- What is reached has line information when a report can be made. -/
theorem exists_lines_of_reaches (hgood : ¬ m.Unreportable root) {index : Nat}
    (hreach : m.Reaches root index) : ∃ lines, (m.prototype index).lines = some lines := by
  cases hlines : (m.prototype index).lines with
  | none => exact absurd (.inr ⟨index, hreach, hlines⟩) hgood
  | some lines => exact ⟨lines, rfl⟩

theorem getElem?_of_reaches (hgood : ¬ m.Unreportable root) {index : Nat}
    (hreach : m.Reaches root index) : m.prototypes[index]? = some (m.prototype index) := by
  obtain ⟨lines, hlines⟩ := exists_lines_of_reaches hgood hreach
  have hlt : index < m.prototypes.size := lt_size_of_lines (by rw [hlines]; rfl)
  rw [prototype, Array.getD_eq_getD_getElem?, Array.getElem?_eq_getElem hlt, Option.getD_some]

theorem Numbered.describes (h : m.Numbered) (hgood : ¬ m.Unreportable root) {index : Nat}
    (hreach : m.Reaches root index) (depth : Nat) :
    ((m.prototype index).coverage depth).Describes m index depth where
  index := h.index index _ (getElem?_of_reaches hgood hreach)
  name := rfl
  lineDefined := rfl
  depth := rfl
  increasing := ((m.prototype index).tallies_coverage depth).increasing
  hits line n := by
    rw [((m.prototype index).tallies_coverage depth).greatest]
    have hset : {n | (line, n) ∈ {point | point ∈ (m.prototype index).coveragePoints}} =
        (m.prototype index).countsOn line := Set.ext fun n => Prototype.mem_coveragePoints
    rw [hset]

theorem Visits.reports (h : m.Visits root paths entries) (hm : m.Numbered)
    (hgood : ¬ m.Unreportable root) :
    m.Reports root paths (entries.map fun (p, depth) => p.coverage depth) where
  ordered := h.ordered
  complete := h.complete
  entries := by
    rw [List.forall₂_map_right_iff]
    refine h.ends.imp ?_
    rintro path _ ⟨index, hindex, rfl⟩
    exact ⟨index, hindex, hm.describes hgood (reaches_of_follow hindex) path.length⟩

/-- Every prototype that is reached has an entry. -/
theorem Visits.exists_entry (h : m.Visits root paths entries) {index : Nat}
    (hreach : m.Reaches root index) : ∃ entry ∈ entries, entry.1 = m.prototype index := by
  obtain ⟨path, hpath⟩ := exists_follow_of_reaches hreach
  have hmem : path ∈ paths := (h.complete path).2 (by rw [hpath]; rfl)
  obtain ⟨entry, hentry, index', hindex', rfl⟩ := exists_of_forall₂ h.ends path hmem
  obtain rfl : index' = index := Option.some.inj (hindex'.symm.trans hpath)
  exact ⟨_, hentry, rfl⟩

/-- The greatest line of a tree is zero or the greatest of all slots in it. -/
theorem Visits.isGreatest (h : m.Visits root paths entries) (hm : m.Numbered)
    (hgood : ¬ m.Unreportable root) :
    IsGreatest {line | line = 0 ∨ line ∈ m.linesFrom root}
      (entries.foldl (fun line (p, _) => max line p.maxLine) 0) := by
  have hfold := Prototype.isGreatest_foldl_max (fun entry : Prototype × Nat => entry.1.maxLine)
    entries 0
  have hprototype : ∀ index, m.Reaches root index →
      IsGreatest {line | line = 0 ∨ line ∈ (m.prototype index).linesOf}
        (m.prototype index).maxLine := by
    intro index hreach
    obtain ⟨lines, hlines⟩ := exists_lines_of_reaches hgood hreach
    have hthere := getElem?_of_reaches hgood hreach
    exact Prototype.isGreatest_maxLine hlines (hm.lines index _ hthere lines hlines)
  refine ⟨?_, ?_⟩
  · rcases hfold.1 with hzero | ⟨entry, hentry, hmost⟩
    · exact .inl hzero
    · obtain ⟨index, hreach, hp⟩ := h.reaches entry hentry
      have hgreatest := (hprototype index hreach).1
      rw [← hp] at hgreatest
      rw [← hmost]
      rcases hgreatest with hzero | hline
      · exact .inl hzero
      · exact .inr ⟨index, hreach, hp ▸ hline⟩
  · rintro line (rfl | ⟨index, hreach, hline⟩)
    · exact hfold.2 (.inl rfl)
    · obtain ⟨entry, hentry, hp⟩ := h.exists_entry hreach
      have hle : line ≤ entry.1.maxLine := by
        rw [hp]
        exact (hprototype index hreach).2 (.inr hline)
      exact hle.trans (hfold.2 (.inr ⟨entry, hentry, rfl⟩))

/-- The lines of a report are lines of slots that are reached. -/
theorem Reports.mem_linesFrom (h : m.Reports root paths report) :
    ∀ entry ∈ report, ∀ line n, (line, n) ∈ entry.hits → line ∈ m.linesFrom root := by
  refine forall_of_forall₂ (h.entries.imp ?_)
  rintro path entry ⟨index, hindex, hentry⟩ line n hmem
  obtain ⟨slot, i, hslot, -, hline, -⟩ := ((hentry.hits line n).1 hmem).1
  obtain ⟨hlt, -⟩ := Array.getElem?_eq_some_iff.1 hslot
  exact ⟨index, reaches_of_follow hindex, slot, hlt, hline⟩

/-! ## Reports on trees -/

theorem coverage_of_tree {root : Option Nat} (h : m.tree root = some (.ok entries)) :
    m.coverage root = some (.ok (entries.map fun (p, depth) => p.coverage depth)) := by
  rw [coverage, h]
  rfl

theorem maxLine_of_tree {root : Option Nat} (h : m.tree root = some (.ok entries)) :
    m.maxLine root = some (.ok (entries.foldl (fun line (p, _) => max line p.maxLine) 0)) := by
  rw [maxLine, h]
  rfl

/-- What is made of every tree fails exactly as the walk over the tree does. -/
theorem map_map_error_iff {α β ε : Type} {f : α → β} {outcome : Option (Except ε α)} {e : ε} :
    outcome.map (Except.map f) = some (.error e) ↔ outcome = some (.error e) := by
  rcases outcome with _ | e' | a
  · simp
  · simp [Except.map]
  · simp [Except.map]

theorem coverage_error_iff {root : Option Nat} {e : CoverageError} :
    m.coverage root = some (.error e) ↔ m.tree root = some (.error e) :=
  map_map_error_iff

theorem maxLine_error_iff {root : Option Nat} {e : CoverageError} :
    m.maxLine root = some (.error e) ↔ m.tree root = some (.error e) :=
  map_map_error_iff

/-- The report on every tree of prototypes.  A module is loaded, breakpoints are set in it and
cleared, perhaps over coverage instructions, and runs are counted.  Then for every prototype below
which none is below itself, the report on it and its greatest line fail for the same reason, exactly
if the prototype is not there or one that is reached from it has no line information.  Otherwise the
report has an entry for every path through the tree, in the order of paths, and the greatest line is
zero or the greatest of all slots that are reached, and so not less than any line in the report. -/
theorem coverage_of_acyclic {options : LoadOptions} {bytes : Bytes} {heap heap' : Heap} {n : Module}
    (h : options.load bytes heap = .ok (n, heap')) (hedits : n.Edits m) {root : Option Nat}
    (hacyclic : m.AcyclicFrom (root.getD m.main)) :
    ((∃ e, m.coverage root = some (.error e)) ↔ m.Unreportable (root.getD m.main)) ∧
      (∀ e, m.maxLine root = some (.error e) ↔ m.coverage root = some (.error e)) ∧
      (¬ m.Unreportable (root.getD m.main) → ∃ report paths most,
        m.coverage root = some (.ok report) ∧ m.Reports (root.getD m.main) paths report ∧
          m.maxLine root = some (.ok most) ∧
          IsGreatest {line | line = 0 ∨ line ∈ m.linesFrom (root.getD m.main)} most ∧
          ∀ entry ∈ report, ∀ line n, (line, n) ∈ entry.hits → line ≤ most) := by
  obtain ⟨hfails, hgives⟩ := tree_of_acyclic hacyclic
  simp only [coverage_error_iff, maxLine_error_iff]
  refine ⟨hfails, fun _ => trivial, fun hgood => ?_⟩
  obtain ⟨paths, entries, htree, hvisits⟩ := hgives hgood
  have hnumbered : m.Numbered := (LoadOptions.numbered_of_load h).edits hedits
  have hreports := hvisits.reports hnumbered hgood
  have hmost := hvisits.isGreatest hnumbered hgood
  refine ⟨_, paths, _, coverage_of_tree htree, hreports, maxLine_of_tree htree, hmost, ?_⟩
  intro entry hentry line n hmem
  exact hmost.2 (.inr (hreports.mem_linesFrom entry hentry line n hmem))

/-! ## A shared child -/

/-- Every prototype stands behind its children. -/
def OrderedChildren (m : Module) : Prop :=
  ∀ index, ∀ child ∈ (m.prototype index).children, child < index

theorem OrderedChildren.of_prototypes
    (h : ∀ index < m.prototypes.size, ∀ child ∈ (m.prototype index).children, child < index) :
    m.OrderedChildren := by
  intro index child hchild
  by_cases hlt : index < m.prototypes.size
  · exact h index hlt child hchild
  · rw [prototype, Array.getD_eq_getD_getElem?,
      Array.getElem?_eq_none (Nat.not_lt.1 hlt)] at hchild
    cases hchild

theorem OrderedChildren.acyclicFrom (h : m.OrderedChildren) (root : Nat) : m.AcyclicFrom root := by
  intro inner _ hcycle
  have hlt : ∀ {a b}, Relation.TransGen m.HasChild a b → b < a := by
    intro a b hpath
    induction hpath with
    | single hchild => exact h _ _ hchild
    | tail _ hchild ih => exact (h _ _ hchild).trans ih
  exact lt_irrefl inner (hlt hcycle)

theorem OrderedChildren.not_unreportable (h : m.OrderedChildren)
    (hlines : ∀ p ∈ m.prototypes, p.lines.isSome) {root : Nat} (hroot : root < m.prototypes.size) :
    ¬ m.Unreportable root := by
  rintro (hrange | ⟨index, hreach, hnone⟩)
  · exact Nat.not_lt.2 hrange hroot
  · have hle : index ≤ root := by
      clear hnone
      induction hreach with
      | refl => exact le_rfl
      | tail _ hchild ih => exact (h _ _ hchild).le.trans ih
    have hsome := hlines (m.prototype index) (by
      rw [prototype, Array.getD_eq_getD_getElem?,
        Array.getElem?_eq_getElem (hle.trans_lt hroot), Option.getD_some]
      exact Array.getElem_mem _)
    rw [hnone] at hsome
    cases hsome

/-- A module of two prototypes.  The second one runs first and has the first one as a child twice.
The first one has two coverage instructions on line 5 and one on line 6, the second one has one on
line 9. -/
def sharedChildModule : Bytes :=
  [6, 1, 0, 2, 1, 0, 0, 0, 0, 0, 4, 0x45, 0, 0, 0, 0x45, 0, 0, 0, 0x45, 0, 0, 0, 0x16, 0, 1, 0, 0,
    0, 3, 0, 1, 24, 0, 0, 1, 0, 5, 0, 0, 0, 0, 1, 0, 0, 0, 0, 0, 2, 0x45, 0, 0, 0, 0x16, 0, 1, 0, 0,
    2, 0, 0, 1, 0, 1, 24, 0, 0, 9, 0, 0, 0, 0, 1]

/-- One of two coverage instructions on a line is counted, and then a breakpoint hides it.  The
child has a path for each place among the children of its parent, and the count is still there. -/
theorem coverage_of_sharedChildModule :
    ∃ n heap m report paths most, ({} : LoadOptions).load sharedChildModule {} = .ok (n, heap) ∧
      (n.countHit 0 1).setBreakpoint 0 1 true = .ok m ∧ m.AcyclicFrom m.main ∧
      (m.follow m.main [0] = some 0 ∧ m.follow m.main [1] = some 0) ∧
      IsGreatest ((m.prototype 0).countsOn 5) 1 ∧ m.coverage none = some (.ok report) ∧
      m.Reports m.main paths report ∧ m.maxLine none = some (.ok most) ∧
      IsGreatest {line | line = 0 ∨ line ∈ m.linesFrom m.main} most ∧
      ∀ entry ∈ report, ∀ line n, (line, n) ∈ entry.hits → line ≤ most := by
  have hcheck : (({} : LoadOptions).load sharedChildModule {}).toOption.any (fun loaded =>
      ((loaded.1.countHit 0 1).setBreakpoint 0 1 true).toOption.any fun m =>
        decide (∀ index < m.prototypes.size, ∀ child ∈ (m.prototype index).children,
          child < index) && m.prototypes.all (·.lines.isSome) &&
        decide (m.main < m.prototypes.size) &&
        decide (m.follow m.main [0] = some 0 ∧ m.follow m.main [1] = some 0) &&
        decide ((5, 1) ∈ ((m.prototype 0).coverage 1).hits)) = true := by
    decide +kernel
  rcases hload : ({} : LoadOptions).load sharedChildModule {} with reason | ⟨n, heap⟩
  · rw [hload] at hcheck
    cases hcheck
  rw [hload] at hcheck
  rcases hset : (n.countHit 0 1).setBreakpoint 0 1 true with reason | m
  · simp only [Except.toOption, Option.any_some, hset, Option.any_none,
      Bool.false_eq_true] at hcheck
  simp only [Except.toOption, Option.any_some, hset, Bool.and_eq_true, decide_eq_true_eq,
    Array.all_eq_true_iff_forall_mem] at hcheck
  obtain ⟨⟨⟨⟨hchildren, hlines⟩, hmain⟩, hfollow⟩, hhits⟩ := hcheck
  have hordered : m.OrderedChildren := .of_prototypes hchildren
  have hacyclic : m.AcyclicFrom (Option.getD none m.main) := hordered.acyclicFrom m.main
  have hedits : n.Edits m := .tail (.single (.hit 0 1)) (.patch hset)
  have hcounts : IsGreatest ((m.prototype 0).countsOn 5) 1 := by
    have hgreatest := (((m.prototype 0).tallies_coverage 1).greatest 5 1).1 hhits
    simpa only [Prototype.mem_coveragePoints, Set.mem_ofPred_eq, Set.ofPred_mem_eq] using hgreatest
  obtain ⟨-, -, hreport⟩ := coverage_of_acyclic hload hedits hacyclic
  obtain ⟨report, paths, most, hreport⟩ := hreport (hordered.not_unreportable hlines hmain)
  exact ⟨n, heap, m, report, paths, most, rfl, hset, hacyclic, hfollow, hcounts, hreport⟩

end Module

end ScriptMachine
