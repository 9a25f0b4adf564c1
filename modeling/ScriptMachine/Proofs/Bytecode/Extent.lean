import Mathlib
import ScriptMachine.Bytecode.Link
import ScriptMachine.Proofs.Bytecode.Acceptance
import ScriptMachine.Proofs.Bytecode.Parts

/-!
# Where a module ends

The bytes of a module say where it ends.  A reader is *local* when it looks at no byte behind those
that it takes: with more bytes behind them it gives the same, and with some of them cut off it runs
out of bytes.  All parts of a module have local readers, and nothing may follow a module, so no
module is the beginning of another one.
-/

namespace ScriptMachine

/-- The cursor with more bytes behind those that are left. -/
def Cursor.extend (c : Cursor) (more : Bytes) : Cursor := ⟨c.position, c.rest ++ more⟩

namespace Reader

/-! ## Readers of bytes that may break off -/

/-- What a reader has done on some bytes, `size` with those that it had read before, compared with
what it has done on them and more: it has run out of bytes, or both have failed, or it has given a
result, and what has become of more bytes is as said. -/
inductive Breaks {α : Type} (size : Nat)
    (Q : α → Cursor → EStateM.Result LoadError Cursor α → Prop) :
    EStateM.Result LoadError Cursor α → EStateM.Result LoadError Cursor α → Prop where
  /-- Bytes are missing. -/
  | lacks {count offset : Nat} {c : Cursor} {r : EStateM.Result LoadError Cursor α}
      (missing : size < offset + count) :
      Breaks size Q (.error (.corrupt (.overrun count offset size)) c) r
  /-- Both fail. -/
  | fails {e e' : LoadError} {c c' : Cursor} : Breaks size Q (.error e c) (.error e' c')
  /-- There is a result. -/
  | gives {a : α} {c : Cursor} {r : EStateM.Result LoadError Cursor α} (h : Q a c r) :
      Breaks size Q (.ok a c) r

/-- What has become of more bytes is that the result is the same, and they are left. -/
structure SameWith {α : Type} (start : Cursor) (more : Bytes) (a : α) (c : Cursor)
    (r : EStateM.Result LoadError Cursor α) : Prop where
  /-- Bytes have been taken, and none lost. -/
  size : c.size = start.size
  /-- No bytes have been given back. -/
  remaining : c.remaining ≤ start.remaining
  /-- With more bytes the result is the same, and they are left. -/
  same : r = .ok a (c.extend more)

/-- The reader looks at no byte behind those that it takes. -/
def Local {α : Type} (r : Reader α) : Prop :=
  ∀ c more, Breaks c.size (SameWith c more) (r c) (r (c.extend more))

section Steps

variable {α β : Type} {r : Reader α} {f : α → Reader β} {more : Bytes} {c : Cursor}

/-- A local reader gives back no bytes. -/
theorem Local.remaining_le (h : Local r) {a : α} {c' : Cursor} (hrun : r c = .ok a c') :
    c'.remaining ≤ c.remaining := by
  have hbreaks := h c []
  rw [hrun] at hbreaks
  cases hbreaks with
  | gives hsame => exact hsame.remaining

/-- A local reader can be followed by anything. -/
theorem Local.breaks_bind {Q : β → Cursor → EStateM.Result LoadError Cursor β → Prop}
    (h : Local r) (hf : ∀ a c₁, c₁.size = c.size → c₁.remaining ≤ c.remaining →
      Breaks c.size Q (f a c₁) (f a (c₁.extend more))) :
    Breaks c.size Q ((r >>= f) c) ((r >>= f) (c.extend more)) := by
  have hr := h c more
  show Breaks c.size Q (EStateM.bind r f c) (EStateM.bind r f (c.extend more))
  unfold EStateM.bind
  generalize r c = short at hr ⊢
  generalize r (c.extend more) = long at hr ⊢
  cases hr with
  | lacks missing => exact .lacks missing
  | fails => exact .fails
  | gives hsame =>
    obtain ⟨hsize, hremaining, rfl⟩ := hsame
    exact hf _ _ hsize hremaining

theorem Breaks.mono {size : Nat} {Q Q' : α → Cursor → EStateM.Result LoadError Cursor α → Prop}
    {short long : EStateM.Result LoadError Cursor α} (h : Breaks size Q short long)
    (hQ : ∀ a c r, Q a c r → Q' a c r) : Breaks size Q' short long := by
  cases h with
  | lacks missing => exact .lacks missing
  | fails => exact .fails
  | gives h => exact .gives (hQ _ _ _ h)

theorem Local.bind (h : Local r) (hf : ∀ a, Local (f a)) : Local (r >>= f) := by
  intro c more
  refine h.breaks_bind fun a c₁ hsize hremaining => ?_
  rw [← hsize]
  exact (hf a c₁ more).mono fun _ _ _ hsame =>
    ⟨hsame.size.trans hsize, hsame.remaining.trans hremaining, hsame.same⟩

/-- What comes after a reader only matters where the reader succeeds. -/
theorem bind_congr_of_ok {g : α → Reader β} (h : ∀ a c', r c = .ok a c' → f a c' = g a c') :
    (r >>= f) c = (r >>= g) c := by
  show EStateM.bind r f c = EStateM.bind r g c
  unfold EStateM.bind
  cases hrun : r c with
  | ok a c' => exact h a c' hrun
  | error e c' => rfl

theorem local_pure (a : α) : Local (pure a : Reader α) :=
  fun _ _ => .gives ⟨rfl, le_rfl, rfl⟩

theorem local_throw (e : LoadError) : Local (throw e : Reader α) := fun _ _ => .fails

end Steps

/-! ## Bytes and numbers -/

theorem local_byte : Local byte := by
  rintro ⟨position, rest⟩ more
  cases rest with
  | nil => exact .lacks (Nat.lt_succ_self position)
  | cons b rest => exact .gives ⟨Nat.add_right_comm position 1 rest.length, Nat.le_succ _, rfl⟩

theorem split?_extend {n : Nat} {bytes first rest : Bytes} (h : split? n bytes = some (first, rest))
    (more : Bytes) :
    n + rest.length = bytes.length ∧ split? n (bytes ++ more) = some (first, rest ++ more) := by
  induction n generalizing bytes first with
  | zero =>
    cases h
    exact ⟨Nat.zero_add _, rfl⟩
  | succ n ih =>
    cases bytes with
    | nil => cases h
    | cons b bytes =>
      obtain ⟨⟨first', rest'⟩, hsplit, heq⟩ := Option.map_eq_some_iff.1 h
      cases heq
      obtain ⟨hlength, hmore⟩ := ih hsplit
      refine ⟨by rw [List.length_cons, ← hlength, Nat.add_right_comm], ?_⟩
      rw [List.cons_append, split?, hmore]
      rfl

theorem length_lt_of_split?_none {n : Nat} {bytes : Bytes} (h : split? n bytes = none) :
    bytes.length < n := by
  induction n generalizing bytes with
  | zero => cases h
  | succ n ih =>
    cases bytes with
    | nil => exact Nat.succ_pos n
    | cons b bytes => exact Nat.succ_lt_succ (ih (Option.map_eq_none_iff.1 h))

theorem local_take (n : Nat) : Local (take n) := by
  rintro ⟨position, rest⟩ more
  unfold take
  cases hsplit : split? n rest with
  | none => exact .lacks (Nat.add_lt_add_left (length_lt_of_split?_none hsplit) position)
  | some parts =>
    obtain ⟨first, left⟩ := parts
    obtain ⟨hlength, hmore⟩ := split?_extend hsplit more
    refine .gives ⟨?_, ?_, ?_⟩
    · rw [Cursor.size, Cursor.size, ← hlength, Nat.add_assoc]
    · rw [Cursor.remaining, Cursor.remaining, ← hlength]
      exact Nat.le_add_left _ _
    · rw [Cursor.extend, hmore]
      rfl

/-- All parts of a module have local readers. -/
theorem modular_local : Modular @Local where
  pure := local_pure
  throw := local_throw
  bind := Local.bind
  byte := local_byte
  take := local_take

end Reader

open Reader

namespace Image

variable {decode : UInt32 → UInt32}

/-! ## Names of types -/

/-- Each name takes a byte, so that more fuel than there are bytes changes nothing. -/
theorem skipTypeNames_eq {fuel fuel' : Nat} {c : Cursor} (h : c.remaining < fuel)
    (h' : c.remaining < fuel') : skipTypeNames fuel c = skipTypeNames fuel' c := by
  induction fuel generalizing fuel' c with
  | zero => exact absurd h (Nat.not_lt_zero _)
  | succ fuel ih =>
    cases fuel' with
    | zero => exact absurd h' (Nat.not_lt_zero _)
    | succ fuel' =>
      rw [skipTypeNames, skipTypeNames]
      refine bind_congr_of_ok fun b c₁ hbyte => ?_
      obtain ⟨position, rest, rfl, rfl⟩ := ensures_byte c b c₁ hbyte
      split
      · rfl
      · refine bind_congr_of_ok fun number c₂ hname => ?_
        have hle := modular_local.varint.remaining_le hname
        exact ih (hle.trans_lt (Nat.lt_of_succ_lt_succ h))
          (hle.trans_lt (Nat.lt_of_succ_lt_succ h'))

theorem local_skipAllTypeNames : Local (do skipTypeNames (← get).remaining.succ) := by
  intro c more
  have hlocal := modular_skipTypeNames modular_local (c.extend more).remaining.succ c more
  have hfuel : c.remaining < (c.extend more).remaining.succ := by
    rw [Cursor.extend, Cursor.remaining, Cursor.remaining, List.length_append]
    omega
  rw [skipTypeNames_eq hfuel (Nat.lt_succ_self _)] at hlocal
  exact hlocal

/-! ## Modules -/

/-- The reader reads all bytes: it takes none that follow, and fails for them. -/
def ReadsAll {α : Type} (r : Reader α) : Prop :=
  ∀ c more, more ≠ [] →
    Breaks c.size (fun _ _ r' => ∃ c', r' = .error (.corrupt (.trailing more.length)) c') (r c)
      (r (c.extend more))

section ReadsAll

variable {α β : Type} {r : Reader α} {f : α → Reader β}

theorem ReadsAll.bind (h : Local r) (hf : ∀ a, ReadsAll (f a)) : ReadsAll (r >>= f) := by
  intro c more hmore
  refine h.breaks_bind fun a c₁ hsize _ => ?_
  rw [← hsize]
  exact hf a c₁ more hmore

/-- What a check lets pass reads all bytes. -/
theorem ReadsAll.unless {p : Prop} [Decidable p] {corruption : Corruption} {x : Reader β}
    (h : ReadsAll x) : ReadsAll (if p then corrupt corruption >>= f else x) := by
  split
  · exact fun _ _ _ => .fails
  · exact h

/-- Nothing may follow a module. -/
theorem readsAll_end (a : α) : ReadsAll (do
    let left := (← get).remaining
    if left ≠ 0 then corrupt (.trailing left)
    return a) := by
  intro c more hmore
  have hlength : 0 < more.length := List.length_pos_iff.2 hmore
  have hleft : (c.extend more).remaining = c.remaining + more.length := List.length_append
  show Breaks c.size _ ((if c.remaining ≠ 0 then _ else _ : Reader α) c)
    ((if (c.extend more).remaining ≠ 0 then _ else _ : Reader α) (c.extend more))
  rw [if_pos (c := (c.extend more).remaining ≠ 0) (by omega)]
  by_cases hend : c.remaining = 0
  · rw [if_neg (not_not.2 hend)]
    refine .gives ⟨c.extend more, ?_⟩
    rw [hleft, hend, Nat.zero_add]
    rfl
  · rw [if_pos hend]
    exact .fails

end ReadsAll

theorem readsAll_reader : ReadsAll (reader decode) := by
  refine .bind local_byte fun version => ?_
  extract_lets body typed
  have hbody : ∀ typesVersion, ReadsAll (body typesVersion) := by
    intro typesVersion
    refine .bind (modular_local.counted modular_local.string) fun strings => ?_
    extract_lets prototypes
    have hprototypes : ReadsAll (prototypes ()) := by
      refine .bind modular_local.varint fun count =>
        .bind (modular_readPrototypes modular_local count 0) fun ps => ?_
      extract_lets root
      have hroot : ReadsAll (root ()) := by
        refine .bind modular_local.varint fun main => ?_
        exact .unless (readsAll_end _)
      split
      · exact fun _ _ _ => .fails
      · exact hroot
    split
    · rw [← bind_assoc]
      exact .bind local_skipAllTypeNames fun _ => hprototypes
    · exact hprototypes
  have htyped : ReadsAll (typed ()) := by
    simp only [typed]
    split
    · exact .bind local_byte hbody
    · exact hbody 0
  exact .unless (.unless htyped)

/-- What the reading of a byte string has to do with that of its beginnings. -/
theorem read_append (front : Bytes) {more : Bytes} (hmore : more ≠ []) :
    (∃ count offset, read decode front = .error (.corrupt (.overrun count offset front.length)) ∧
        front.length < offset + count) ∨
      (∃ e e', read decode front = .error e ∧ read decode (front ++ more) = .error e') ∨
      ∃ image, read decode front = .ok image ∧
        read decode (front ++ more) = .error (.corrupt (.trailing more.length)) := by
  have hreads : ReadsAll (reader decode) := readsAll_reader
  have hbreaks := hreads (.ofBytes front) more hmore
  have hsize : (Cursor.ofBytes front).size = front.length := Nat.zero_add _
  rw [hsize] at hbreaks
  have hextend : (Cursor.ofBytes front).extend more = .ofBytes (front ++ more) := rfl
  rw [hextend] at hbreaks
  unfold read
  generalize reader decode (.ofBytes front) = short at hbreaks ⊢
  generalize reader decode (.ofBytes (front ++ more)) = long at hbreaks ⊢
  cases hbreaks with
  | lacks missing => exact .inl ⟨_, _, rfl, missing⟩
  | fails => exact .inr (.inl ⟨_, _, rfl, rfl⟩)
  | gives h =>
    obtain ⟨c', rfl⟩ := h
    exact .inr (.inr ⟨_, rfl, rfl⟩)

end Image

namespace LoadOptions

variable {options : LoadOptions}

/-- Loading fails where reading does, for the same reason. -/
theorem load_of_read_error {bytes : Bytes} {e : LoadError}
    (h : Image.read (options.decodeWord.getD id) bytes = .error e) (heap : Heap) :
    options.load bytes heap = .error e := by
  rw [load, h]
  rfl

theorem read_of_load {bytes : Bytes} {heap : Heap} {loaded : Module × Heap}
    (h : options.load bytes heap = .ok loaded) :
    ∃ image, Image.read (options.decodeWord.getD id) bytes = .ok image := by
  rw [load] at h
  cases hread : Image.read (options.decodeWord.getD id) bytes with
  | ok image => exact ⟨image, rfl⟩
  | error e =>
    rw [hread] at h
    cases h

/-- The format is prefix-free.  A module that is cut short is corrupt, because a read needs more
bytes than there are, wherever it is cut; and a module with anything behind it is corrupt, because
of the bytes that trail. -/
theorem load_prefix_free {bytes : Bytes} {heap : Heap} {loaded : Module × Heap}
    (h : options.load bytes heap = .ok loaded) :
    (∀ front back, bytes = front ++ back → back ≠ [] → ∀ heap', ∃ count offset,
        options.load front heap' = .error (.corrupt (.overrun count offset front.length)) ∧
          front.length < offset + count) ∧
      ∀ more, more ≠ [] → ∀ heap',
        options.load (bytes ++ more) heap' = .error (.corrupt (.trailing more.length)) := by
  obtain ⟨image, hread⟩ := read_of_load h
  refine ⟨fun front back hbytes hback heap' => ?_, fun more hmore heap' => ?_⟩
  · rw [hbytes] at hread
    rcases Image.read_append front hback with
      ⟨count, offset, hfront, hmissing⟩ | ⟨e, e', -, hlong⟩ | ⟨image', -, hlong⟩
    · exact ⟨count, offset, load_of_read_error hfront heap', hmissing⟩
    · rw [hread] at hlong
      cases hlong
    · rw [hread] at hlong
      cases hlong
  · rcases Image.read_append bytes hmore with
      ⟨count, offset, hshort, -⟩ | ⟨e, e', hshort, -⟩ | ⟨image', -, hlong⟩
    · rw [hread] at hshort
      cases hshort
    · rw [hread] at hshort
      cases hshort
    · exact load_of_read_error hlong heap'

/-- A module with a block of every sort that is passed over, and with lines. -/
def layeredModule : Bytes :=
  [6, 3, 1, 2, 0x68, 0x69, 1, 0x81, 1, 0, 1,
    2, 0, 0, 1, 0, 3, 7, 7, 7, 3, 0x42, 0, 0, 0, 0, 0, 0, 0, 0x16, 0, 2, 0, 1, 3, 1, 0, 5, 1,
    1, 2, 1, 0, 1, 9, 0, 0, 0, 1, 1, 1, 0, 3, 0, 1, 1,
    0]

/-- Cut within a number in the names of types, the module lacks a byte, and with two bytes behind it
these trail. -/
theorem load_prefix_free_layeredModule :
    (∃ loaded, LoadOptions.load {} layeredModule {} = .ok loaded) ∧
      (∃ count offset, LoadOptions.load {} (layeredModule.take 8) {} =
        .error (.corrupt (.overrun count offset 8))) ∧
      LoadOptions.load {} (layeredModule ++ [0, 0]) {} = .error (.corrupt (.trailing 2)) := by
  have hcheck : (match LoadOptions.load {} layeredModule {} with
      | .ok _ => true
      | .error _ => false) = true := by
    decide +kernel
  rcases hload : LoadOptions.load {} layeredModule {} with e | loaded
  · rw [hload] at hcheck
    cases hcheck
  · obtain ⟨hcut, hmore⟩ := load_prefix_free hload
    have hparts : layeredModule = layeredModule.take 8 ++ layeredModule.drop 8 := by rfl
    obtain ⟨count, offset, hlacks, -⟩ := hcut _ _ hparts (by decide) {}
    exact ⟨⟨loaded, rfl⟩, ⟨count, offset, hlacks⟩, hmore [0, 0] (by decide) {}⟩

end LoadOptions

end ScriptMachine
