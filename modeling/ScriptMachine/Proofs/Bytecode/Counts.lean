import Mathlib
import ScriptMachine.Proofs.Bytecode.Extent
import ScriptMachine.Proofs.Bytecode.Parts
import ScriptMachine.Proofs.Bytecode.Reading

/-!
# Counts of registers and of parameters

The first two bytes of a prototype count its registers and its parameters.  Nothing that is read
afterwards depends on them, and they are not compared with each other, so that whatever else a
module holds it may declare any two counts.
-/

namespace ScriptMachine

/-! ## Readers and bytes that are changed -/

namespace Reader

/-- Whatever is left behind the bytes that the reader takes, as long as it is as much as before, the
reader takes them and gives the same. -/
def Settles {α : Type} (r : Reader α) : Prop :=
  ∀ c, Ensures r c fun a c' => ∀ rest, rest.length = c'.rest.length →
    ∃ whole, whole.length = c.rest.length ∧ r ⟨c.position, whole⟩ = .ok a ⟨c'.position, rest⟩

/-- With some bytes in the place of others the reader gives something else, and nothing else
happens. -/
def Changes {α : Type} (r : Reader α) (g : α → α) : Prop :=
  ∀ c, Ensures r c fun a c' =>
    ∃ whole, whole.length = c.rest.length ∧ r ⟨c.position, whole⟩ = .ok (g a) c'

section Sequence

variable {α β : Type} {r : Reader α} {f : α → Reader β} {g : α → α} {g' : β → β}

theorem settles_pure (a : α) : Settles (pure a : Reader α) := by
  intro c a' c' hrun rest hrest
  cases hrun
  exact ⟨rest, hrest, rfl⟩

theorem settles_throw (e : LoadError) : Settles (throw e : Reader α) := fun _ _ _ => nofun

theorem Settles.bind (h : Settles r) (hf : ∀ a, Settles (f a)) : Settles (r >>= f) := by
  intro c
  refine .bind fun a c₁ hr b c₂ hfirst rest hrest => ?_
  obtain ⟨middle, hmiddle, hsecond⟩ := hf a c₁ b c₂ hfirst rest hrest
  obtain ⟨whole, hwhole, hrun⟩ := h c a c₁ hr middle hmiddle
  exact ⟨whole, hwhole, (bind_of_ok hrun).trans hsecond⟩

/-- The bytes may stand behind some that are read first. -/
theorem Changes.after (h : Settles r) (hf : ∀ a, Changes (f a) g') : Changes (r >>= f) g' := by
  intro c
  refine .bind fun a c₁ hr b c₂ hfirst => ?_
  obtain ⟨middle, hmiddle, hsecond⟩ := hf a c₁ b c₂ hfirst
  obtain ⟨whole, hwhole, hrun⟩ := h c a c₁ hr middle hmiddle
  exact ⟨whole, hwhole, (bind_of_ok hrun).trans hsecond⟩

theorem map_of_ok {a : α} {c c' : Cursor} (h : r c = .ok a c') (g : α → β) :
    (g <$> r) c = .ok (g a) c' := by
  change EStateM.map g r c = _
  rw [EStateM.map, h]

/-- They may stand before some that are read next, what is made of these being changed as well. -/
theorem Changes.before (h : Changes r g) (hf : ∀ a, f (g a) = g' <$> f a) :
    Changes (r >>= f) g' := by
  intro c
  refine .bind fun a c₁ hr b c₂ hfirst => ?_
  obtain ⟨whole, hwhole, hrun⟩ := h c a c₁ hr
  refine ⟨whole, hwhole, (bind_of_ok hrun).trans ?_⟩
  rw [hf]
  exact map_of_ok hfirst g'

theorem Changes.unless {p : Prop} [Decidable p] {corruption : Corruption} {x : Reader β}
    (h : Changes x g') : Changes (if p then corrupt corruption >>= f else x) g' := by
  split
  · exact fun _ => .bind fun _ _ hrun => nomatch hrun
  · exact h

end Sequence

/-! ## Bytes and numbers -/

theorem settles_byte : Settles byte := by
  intro c b c' hrun rest hrest
  obtain ⟨position, rest', rfl, rfl⟩ := ensures_byte c b c' hrun
  exact ⟨b :: rest, congrArg Nat.succ hrest, rfl⟩

theorem split?_eq {n : Nat} {bytes first rest : Bytes} (h : split? n bytes = some (first, rest)) :
    bytes = first ++ rest ∧ first.length = n := by
  induction n generalizing bytes first with
  | zero =>
    cases h
    exact ⟨rfl, rfl⟩
  | succ n ih =>
    cases bytes with
    | nil => cases h
    | cons b bytes =>
      obtain ⟨⟨first', rest'⟩, hsplit, heq⟩ := Option.map_eq_some_iff.1 h
      cases heq
      obtain ⟨hbytes, hlength⟩ := ih hsplit
      exact ⟨congrArg (b :: ·) hbytes, congrArg Nat.succ hlength⟩

theorem settles_take (n : Nat) : Settles (take n) := by
  rintro ⟨position, bytes⟩ first c' hrun rest hrest
  rw [take] at hrun
  split at hrun
  · rename_i first' rest' hsplit
    cases hrun
    obtain ⟨rfl, rfl⟩ := split?_eq hsplit
    exact ⟨first ++ rest, by simpa using hrest, reads_take first position rest⟩
  · cases hrun

/-- All parts of a module have readers that settle. -/
theorem modular_settles : Modular @Settles where
  pure := settles_pure
  throw := settles_throw
  bind := Settles.bind
  byte := settles_byte
  take := settles_take

end Reader

open Reader

/-- There are as many bytes left as before, and so there is as much fuel. -/
theorem Image.settles_skipAllTypeNames : Settles (do Image.skipTypeNames (← get).remaining.succ) := by
  intro c a c' hrun rest hrest
  obtain ⟨whole, hwhole, hskip⟩ :=
    Image.modular_skipTypeNames modular_settles c.remaining.succ c a c' hrun rest hrest
  refine ⟨whole, hwhole, ?_⟩
  show Image.skipTypeNames whole.length.succ ⟨c.position, whole⟩ = _
  rw [hwhole]
  exact hskip

/-! ## Counts -/

/-- The prototype with other counts of registers and of parameters. -/
def PrototypeImage.withCounts (registers params : UInt8) (p : PrototypeImage) : PrototypeImage :=
  { p with maxStackSize := registers, numParams := params }

/-- The image with other counts of registers and of parameters for one of its prototypes. -/
def Image.withCounts (index : Nat) (registers params : UInt8) (image : Image) : Image :=
  { image with prototypes := image.prototypes.modify index (·.withCounts registers params) }

/-- The prototype with other counts of registers and of parameters. -/
def Prototype.withCounts (registers params : UInt8) (p : Prototype) : Prototype :=
  { p with maxStackSize := registers, numParams := params }

/-- The module with other counts of registers and of parameters for one of its prototypes. -/
def Module.withCounts (index : Nat) (registers params : UInt8) (m : Module) : Module :=
  { m with prototypes := m.prototypes.modify index (·.withCounts registers params) }

namespace Image

variable {decode : UInt32 → UInt32} {version : UInt8} {strings : List Bytes}

section Counts

variable (registers params : UInt8)

theorem byte_bind {β : Type} {f : UInt8 → Reader β} (position : Nat) (b : UInt8) (rest : Bytes) :
    (byte >>= f) ⟨position, b :: rest⟩ = f b ⟨position + 1, rest⟩ := rfl

/-- A prototype begins with its counts, and what is read behind them does not depend on them. -/
theorem readPrototype_counts (index position : Nat) (a b : UInt8) (rest : Bytes) :
    readPrototype decode version strings index ⟨position, registers :: params :: rest⟩ =
      (PrototypeImage.withCounts registers params <$> readPrototype decode version strings index)
        ⟨position, a :: b :: rest⟩ := by
  simp only [readPrototype, map_bind, map_pure, apply_ite (Functor.map _), byte_bind,
    PrototypeImage.withCounts]

theorem changes_readPrototype (index : Nat) :
    Changes (readPrototype decode version strings index) (·.withCounts registers params) := by
  rintro ⟨position, bytes⟩ p c' hrun
  match bytes with
  | [] => cases hrun
  | [_] => cases hrun
  | a :: b :: rest =>
    refine ⟨registers :: params :: rest, rfl, ?_⟩
    rw [readPrototype_counts registers params index position a b rest]
    exact map_of_ok hrun _

theorem changes_readPrototypes (count index k : Nat) :
    Changes (readPrototypes decode version strings count index)
      (·.modify k (·.withCounts registers params)) := by
  induction count generalizing index k with
  | zero =>
    intro c ps c' hrun
    cases hrun
    exact ⟨c.rest, rfl, congrArg (EStateM.Result.ok · c) (List.modify_nil _ _).symm⟩
  | succ count ih =>
    cases k with
    | zero =>
      refine (changes_readPrototype registers params index).before fun p => ?_
      simp only [map_bind, map_pure, List.modify_zero_cons]
    | succ k =>
      refine .after (modular_readPrototype modular_settles index) fun p => ?_
      refine (ih (index + 1) k).before fun others => ?_
      rw [map_pure, List.modify_succ_cons]

/-- The prototypes that are referred to do not depend on counts. -/
theorem findSome?_missingPrototype (count k : Nat) (ps : List PrototypeImage) :
    (ps.modify k (·.withCounts registers params)).findSome? (missingPrototype? count) =
      ps.findSome? (missingPrototype? count) := by
  induction ps generalizing k with
  | nil => rw [List.modify_nil]
  | cons p ps ih =>
    cases k with
    | zero => rfl
    | succ k => rw [List.modify_succ_cons, List.findSome?_cons, List.findSome?_cons, ih]

/-- Nor does the name of the main prototype. -/
theorem nameMain_modify (main k : Nat) (ps : List PrototypeImage) :
    nameMain main (ps.modify k (·.withCounts registers params)) =
      (nameMain main ps).modify k (·.withCounts registers params) := by
  refine List.ext_getElem? fun i => ?_
  simp only [nameMain, List.getElem?_modify]
  rcases ps[i]? with _ | p
  · rfl
  · by_cases hmain : main = i <;> by_cases hk : k = i <;> simp [hmain, hk, PrototypeImage.withCounts]

theorem changes_reader (k : Nat) : Changes (reader decode) (·.withCounts k registers params) := by
  refine .after settles_byte fun version => ?_
  extract_lets body typed
  have hbody : ∀ typesVersion, Changes (body typesVersion) (·.withCounts k registers params) := by
    intro typesVersion
    refine .after (modular_settles.counted modular_settles.string) fun strings => ?_
    extract_lets prototypes
    have hprototypes : Changes (prototypes ()) (·.withCounts k registers params) := by
      refine .after modular_settles.varint fun count =>
        (changes_readPrototypes registers params count 0 k).before fun ps => ?_
      simp only [findSome?_missingPrototype, nameMain_modify]
      split
      · rfl
      · simp only [map_bind, map_pure, apply_ite (Functor.map _), Image.withCounts]
    split
    · rw [← bind_assoc]
      exact .after settles_skipAllTypeNames fun _ => hprototypes
    · exact hprototypes
  have htyped : Changes (typed ()) (·.withCounts k registers params) := by
    simp only [typed]
    split
    · exact .after settles_byte hbody
    · exact hbody 0
  exact .unless (.unless htyped)

end Counts

/-- Of any byte string that holds an image, two bytes can be changed so that it holds the same image
with other counts. -/
theorem read_withCounts {bytes : Bytes} {image : Image} (h : read decode bytes = .ok image)
    (k : Nat) (registers params : UInt8) :
    ∃ bytes', bytes'.length = bytes.length ∧
      read decode bytes' = .ok (image.withCounts k registers params) := by
  rw [read] at h
  split at h
  · rename_i image' c hrun
    cases h
    obtain ⟨bytes', hlength, hread⟩ := changes_reader registers params k _ _ _ hrun
    refine ⟨bytes', hlength, ?_⟩
    change reader decode (.ofBytes bytes') = _ at hread
    rw [read, hread]
  · cases h

end Image

/-! ## Linking -/

/-- Steps for items of which one is changed, when that changes nothing but its result. -/
theorem mapM_modify {σ α β : Type} {f : α → StateM σ β} {g : α → α} {g' : β → β}
    (h : ∀ a, f (g a) = g' <$> f a) (items : List α) (k : Nat) :
    (items.modify k g).mapM f = (·.modify k g') <$> items.mapM f := by
  induction items generalizing k with
  | nil => simp only [List.modify_nil, List.mapM_nil, map_pure]
  | cons item items ih =>
    cases k with
    | zero =>
      simp only [List.modify_zero_cons, List.mapM_cons, h, map_bind, map_pure, bind_map_left]
    | succ k =>
      simp only [List.modify_succ_cons, List.mapM_cons, ih, map_bind, map_pure, bind_map_left]

namespace LoadOptions

variable (options : LoadOptions)

theorem linkPrototype_withCounts (registers params : UInt8) (p : PrototypeImage) :
    options.linkPrototype (p.withCounts registers params) =
      Prototype.withCounts registers params <$> options.linkPrototype p := by
  simp only [linkPrototype, map_bind, map_pure]
  rfl

theorem link_withCounts (image : Image) (k : Nat) (registers params : UInt8) :
    options.link (image.withCounts k registers params) =
      Module.withCounts k registers params <$> options.link image := by
  simp only [link, Image.withCounts, map_bind, map_pure, bind_map_left, Module.withCounts,
    mapM_modify (options.linkPrototype_withCounts registers params), List.modify_toArray]

/-- Of any byte string that is accepted, two bytes can be changed so that any prototype has any
counts, and nothing else is changed. -/
theorem load_withCounts {options : LoadOptions} {bytes : Bytes} {heap : Heap} {m : Module}
    {heap' : Heap} (h : options.load bytes heap = .ok (m, heap')) (k : Nat)
    (registers params : UInt8) :
    ∃ bytes', bytes'.length = bytes.length ∧
      options.load bytes' heap = .ok (m.withCounts k registers params, heap') := by
  obtain ⟨image, hread⟩ := read_of_load h
  obtain ⟨bytes', hlength, hread'⟩ := Image.read_withCounts hread k registers params
  refine ⟨bytes', hlength, ?_⟩
  have hlink : options.link image heap = (m, heap') := by
    rw [load, hread] at h
    exact Except.ok.inj h
  rw [load, hread', Except.map, link_withCounts]
  change Except.ok ((options.link image heap).1.withCounts k registers params,
    (options.link image heap).2) = _
  rw [hlink]

end LoadOptions

end ScriptMachine
