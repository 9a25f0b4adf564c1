import Mathlib
import ScriptMachine.Bytecode.Link
import ScriptMachine.Proofs.Bytecode.Counts
import ScriptMachine.Proofs.Bytecode.Lines
import ScriptMachine.Proofs.Bytecode.Metering

/-!
# What bytes can pay for

Reading is an economy.  A byte that is taken earns something, a round of a loop has a price, and
what a result takes up has to be paid for as well.  Every reader can pay for all of its rounds out
of the bytes that it takes, whatever it is told by them, so that a few bytes cannot keep it busy for
long and do not become a big module.
-/

namespace ScriptMachine

/-- What the rounds so far have cost, and what the bytes that are left can still earn, when a round
has a price and a byte earns one more than the price of two rounds. -/
def Meter.balance (price : Nat) (s : Meter) : Nat :=
  price * s.rounds + (2 * price + 1) * s.remaining

namespace Metered

open Reader (byte flag word single double varint string take corrupt split? split?_eq groups
  Modular)

/-- A metered reader has done what a reader has done, and its balance is not above `total`, of which
`left` is left when there is a result. -/
inductive Covered {α : Type} (price total : Nat) (left : α → Nat) :
    EStateM.Result LoadError Meter α → EStateM.Result LoadError Cursor α → Prop
  /-- Both give a result. -/
  | ok {a : α} {s : Meter} (h : s.balance price + left a ≤ total) :
      Covered price total left (.ok a s) (.ok a s.toCursor)
  /-- Both fail. -/
  | error {e : LoadError} {s : Meter} (h : s.balance price ≤ total) :
      Covered price total left (.error e s) (.error e s.toCursor)

/-- The metered reader does what the reader does.  It pays for its rounds out of what it has in hand
and the bytes that it takes earn, and when it gives a result, some of that is left. -/
def Affords {α : Type} (price inHand : Nat) (m : Metered α) (r : Reader α) (left : α → Nat) :
    Prop :=
  ∀ s : Meter, Covered price (s.balance price + inHand) left (m s) (r s.toCursor)

section Steps

variable {α β : Type} {price k : Nat} {m : Metered α} {r : Reader α} {left : α → Nat}

theorem Covered.mono {total total' : Nat} {left' : α → Nat}
    {x : EStateM.Result LoadError Meter α} {y : EStateM.Result LoadError Cursor α}
    (h : Covered price total left x y) (hle : total ≤ total')
    (hleft : ∀ a, left' a ≤ left a + (total' - total)) : Covered price total' left' x y := by
  cases h with
  | @ok a s h =>
    have ha := hleft a
    exact .ok (by omega)
  | error h => exact .error (h.trans hle)

/-- More in hand leaves more. -/
theorem Affords.mono {k' : Nat} {left' : α → Nat} (h : Affords price k m r left) (hle : k ≤ k')
    (hleft : ∀ a, left' a ≤ left a + (k' - k)) : Affords price k' m r left' := by
  intro s
  refine (h s).mono (by omega) fun a => (hleft a).trans (by omega)

theorem affords_pure {a : α} (h : left a ≤ k) : Affords price k (pure a) (pure a) left :=
  fun _ => .ok (Nat.add_le_add_left h _)

theorem affords_throw (e : LoadError) : Affords price k (throw e) (throw e : Reader α) left :=
  fun _ => .error (Nat.le_add_right _ _)

/-- A sequence is paid step by step. -/
theorem Affords.bind {k' : Nat} {f : α → Metered β} {g : α → Reader β} {left' : β → Nat}
    (h : Affords price k' m r left) (hle : k' ≤ k)
    (hf : ∀ a, Affords price (k - k' + left a) (f a) (g a) left') :
    Affords price k (m >>= f) (r >>= g) left' := by
  intro s
  have hs := h s
  change Covered _ _ _ (EStateM.bind m f s) (EStateM.bind r g s.toCursor)
  unfold EStateM.bind
  generalize m s = x at hs ⊢
  generalize r s.toCursor = y at hs ⊢
  cases hs with
  | @ok a s' hpaid => exact (hf a s').mono (by omega) fun b => by omega
  | error hpaid => exact .error (by omega)

theorem Affords.pure_bind {a : α} {f : α → Metered β} {g : α → Reader β} {left' : β → Nat}
    (h : Affords price k (f a) (g a) left') : Affords price k (pure a >>= f) (pure a >>= g) left' :=
  h

/-- What is found by going over something that has been read. -/
theorem Affords.after_pure {k' : Nat} {a : α} {f : α → Metered β} {r' : Reader β} {left' : β → Nat}
    (h : Affords price k' m (pure a) left) (hle : k' ≤ k)
    (hf : Affords price (k - k' + left a) (f a) r' left') :
    Affords price k (m >>= f) r' left' := by
  intro s
  have hs := h s
  change Covered _ _ _ (EStateM.bind m f s) (r' s.toCursor)
  change Covered _ _ _ (m s) (.ok a s.toCursor) at hs
  unfold EStateM.bind
  generalize hx : m s = x at hs ⊢
  generalize hc : s.toCursor = c at hs ⊢
  cases hs with
  | @ok _ s' hpaid => exact (hf s').mono (by omega) fun b => by omega

/-- Rounds are paid with what is in hand. -/
theorem Affords.rounds {count : Nat} (h : Affords price (k - price * count) m r left)
    (hle : price * count ≤ k) : Affords price k (do Metered.rounds count; m) r left := by
  intro s
  have hs := h { s with rounds := s.rounds + count }
  have hbalance : Meter.balance price { s with rounds := s.rounds + count } =
      s.balance price + price * count := by
    simp only [Meter.balance, Nat.mul_add]
    exact Nat.add_right_comm _ _ _
  rw [hbalance] at hs
  exact hs.mono (by omega) fun a => by omega

theorem Affords.ite {p : Prop} [Decidable p] {m' : Metered α} {r' : Reader α}
    (h : p → Affords price k m r left) (h' : ¬ p → Affords price k m' r' left) :
    Affords price k (if p then m else m') (if p then r else r') left := by
  split
  · rename_i hp
    exact h hp
  · rename_i hp
    exact h' hp

end Steps

/-! ## Readers without loops -/

section Plain

variable {α β : Type} {price : Nat}

theorem plain_bind (r : Reader α) (f : α → Reader β) :
    plain (r >>= f) = plain r >>= fun a => plain (f a) := by
  funext s
  change plain (EStateM.bind r f) s = EStateM.bind (plain r) (fun a => plain (f a)) s
  simp only [plain, EStateM.bind]
  cases r s.toCursor <;> rfl

theorem affords_corrupt {k : Nat} {left : α → Nat} (corruption : Corruption) :
    Affords price k (plain (corrupt corruption)) (corrupt corruption) left :=
  fun _ => .error (Nat.le_add_right _ _)

/-- Nothing has to be paid behind a check that fails. -/
theorem Affords.unless {k : Nat} {p : Prop} [Decidable p] {corruption : Corruption} {m : Metered β}
    {r : Reader β} {f : α → Metered β} {g : α → Reader β} {left : β → Nat}
    (h : ¬ p → Affords price k m r left) :
    Affords price k (if p then plain (corrupt corruption) >>= f else m)
      (if p then corrupt corruption >>= g else r) left :=
  .ite (fun _ _ => .error (Nat.le_add_right _ _)) h

/-- To look at the cursor costs nothing. -/
theorem affords_get : Affords price 0 (plain get) get fun _ => 0 := fun _ => .ok le_rfl

theorem affords_byte : Affords price 0 (plain byte) byte fun _ => 2 * price + 1 := by
  rintro ⟨⟨position, rest⟩, rounds⟩
  cases rest with
  | nil => exact .error le_rfl
  | cons b rest =>
    refine .ok ?_
    simp only [Meter.balance, Cursor.remaining, List.length_cons, Nat.mul_succ]
    omega

theorem affords_take {n : Nat} {left : Bytes → Nat}
    (hleft : ∀ s, s.length = n → left s ≤ (2 * price + 1) * n) :
    Affords price 0 (plain (take n)) (take n) left := by
  rintro ⟨⟨position, rest⟩, rounds⟩
  cases hsplit : split? n rest with
  | none =>
    simp only [plain, take, hsplit]
    exact .error le_rfl
  | some parts =>
    obtain ⟨rfl, rfl⟩ := split?_eq hsplit
    have hpaid := hleft parts.1 rfl
    simp only [plain, take, hsplit]
    refine .ok ?_
    simp only [Meter.balance, Cursor.remaining, List.length_append, Nat.mul_add] at *
    omega

/-- A reader without loops gives nothing away of what is in hand. -/
theorem modular_affords (price : Nat) :
    Modular fun r => Affords price 0 (plain r) r fun _ => 0 where
  pure a := affords_pure (Nat.zero_le 0)
  throw e := affords_throw e
  bind h hf := by
    rw [plain_bind]
    exact h.bind le_rfl hf
  byte := affords_byte.mono le_rfl fun _ => Nat.zero_le _
  take n := affords_take fun _ _ => Nat.zero_le _

theorem Affords.plain_bind {k k' : Nat} {r : Reader α} {f : α → Reader β} {left : α → Nat}
    {left' : β → Nat} (h : Affords price k' (plain r) r left) (hle : k' ≤ k)
    (hf : ∀ a, Affords price (k - k' + left a) (plain (f a)) (f a) left') :
    Affords price k (plain (r >>= f)) (r >>= f) left' := by
  rw [Metered.plain_bind]
  exact h.bind hle hf

theorem Affords.plain_map {k : Nat} {r : Reader α} {left : α → Nat} {left' : β → Nat} {g : α → β}
    (h : Affords price k (plain r) r left) (hleft : ∀ a, left' (g a) ≤ left a) :
    Affords price k (plain (do return g (← r))) (do return g (← r)) left' :=
  h.plain_bind le_rfl fun a => affords_pure ((hleft a).trans (Nat.le_add_left _ _))

/-- A number takes at least one byte. -/
theorem affords_varint : Affords price 0 (plain varint) varint fun _ => 2 * price + 1 := by
  have hgroups : ∀ count shift, Affords price 0 (plain (groups (count + 1) shift))
      (groups (count + 1) shift) fun _ => 2 * price + 1 := by
    intro count shift
    refine affords_byte.plain_bind le_rfl fun b => ?_
    by_cases hlast : b < 128
    · simp only [if_pos hlast]
      exact affords_pure (by omega)
    · simp only [if_neg hlast]
      have hmore := (modular_affords price).groups count (shift + 7)
      exact ((modular_affords price).map hmore _).mono (Nat.zero_le _) fun _ => by omega
  exact (hgroups 4 0).plain_map fun _ => le_rfl

theorem affords_flag : Affords price 0 (plain flag) flag fun _ => 2 * price + 1 :=
  affords_byte.plain_map fun _ => le_rfl

theorem affords_word : Affords price 0 (plain word) word fun _ => 4 * (2 * price + 1) :=
  (affords_take fun _ _ => (Nat.mul_comm _ _).le).plain_map fun _ => le_rfl

/-- A string takes at least a byte for its length and as many bytes as it is long. -/
theorem affords_string :
    Affords price 0 (plain string) string fun s => 2 * price + 1 + s.length := by
  refine affords_varint.plain_bind le_rfl fun n => ?_
  have htake : Affords price 0 (plain (take n)) (take n) List.length :=
    affords_take fun s hs => hs.le.trans (Nat.le_mul_of_pos_left n (by omega))
  exact htake.mono (by omega) fun s => by omega

end Plain

/-! ## Loops -/

section Loops

variable {α β : Type} {price : Nat} {step : Metered α} {step' : Reader α} {worth : α → Nat}

/-- Steps that pay for a round each, and for their results, can be repeated. -/
theorem affords_replicate
    (h : Affords price 0 step step' fun a => price + worth a) (count : Nat) :
    Affords price price (replicate step count) (Reader.replicate step' count) fun items =>
      price + (items.map worth).sum := by
  induction count with
  | zero => exact affords_pure (by simp)
  | succ count ih =>
    refine .rounds (h.bind (Nat.zero_le _) fun first => ?_) (by omega)
    refine ih.bind (by omega) fun others => affords_pure ?_
    simp only [List.map_cons, List.sum_cons]
    omega

theorem affords_counted (h : Affords price 0 step step' fun a => price + worth a) :
    Affords price 0 (counted step) (Reader.counted step') fun items =>
      2 * price + 1 + (items.map worth).sum := by
  refine affords_varint.bind le_rfl fun count => ?_
  exact (affords_replicate h count).mono (by omega) fun items => by omega

/-- To look at all items of a list takes a round for each. -/
theorem affords_search (find : α → Option β) (items : List α) :
    Affords price (price * items.length) (search find items) (pure (items.findSome? find))
      fun _ => 0 := by
  induction items with
  | nil => exact affords_pure (Nat.zero_le _)
  | cons a others ih =>
    rw [List.length_cons, Nat.mul_succ, search, List.findSome?_cons]
    refine .rounds ?_ (by omega)
    cases find a with
    | some b => exact affords_pure (Nat.zero_le _)
    | none => exact ih.mono (by omega) fun _ => Nat.zero_le _

end Loops

end Metered

/-! ## Worth of results -/

/-- Count of the keys of a table among constants; other constants have none. -/
def Constant.keyCount : Constant → Nat
  | .table keys => keys.length
  | _ => 0

namespace PrototypeImage

/-- Count of the slots, constants, keys, children and lines of a prototype. -/
def extent (p : PrototypeImage) : Nat :=
  p.codeSize + p.constants.length + (p.constants.map Constant.keyCount).sum + p.children.length +
    p.lines.elim 0 Array.size

/-- Count of the rounds in which a prototype, its children and its constants are looked at once
more. -/
def visits (p : PrototypeImage) : Nat := 1 + p.children.length + p.constants.length

/-- What is to be paid for a prototype that has been read: itself, what it holds, and the rounds in
which it is looked at once more. -/
def worth (price : Nat) (p : PrototypeImage) : Nat := 1 + p.extent + price * p.visits

theorem worth_eq (price : Nat) (p : PrototypeImage) :
    p.worth price = price + 1 + p.codeSize +
      ((price + 1) * p.constants.length + (p.constants.map Constant.keyCount).sum) +
      (price + 1) * p.children.length + p.lines.elim 0 Array.size := by
  simp only [worth, extent, visits, Nat.mul_add, Nat.add_mul, Nat.one_mul, Nat.mul_one]
  omega

end PrototypeImage

/-- Count of the strings and prototypes of a module, of the bytes of its strings, and of what its
prototypes hold. -/
def Image.extent (image : Image) : Nat :=
  image.strings.length + (image.strings.map List.length).sum + image.prototypes.length +
    (image.prototypes.map PrototypeImage.extent).sum

namespace Metered

open Reader (byte flag word single double varint string take corrupt groups Modular)

variable {price : Nat} {decode : UInt32 → UInt32} {version : UInt8} {strings : List Bytes}

/-! ## Parts of a prototype -/

/-- A slot takes four bytes, which pay for two rounds and the slot. -/
theorem affords_readCode (index size left : Nat) :
    Affords price price (readCode decode index size left) (Image.readCode decode index size left)
      fun units => price + (price + 1) * CodeUnit.totalSize units := by
  induction left using Nat.strong_induction_on with
  | _ left ih =>
    cases left with
    | zero => exact affords_pure (by simp [CodeUnit.totalSize])
    | succ left =>
      rw [readCode, Image.readCode]
      refine .rounds (affords_word.bind (Nat.zero_le _) fun w => ?_) (by omega)
      extract_lets word
      cases Opcode.ofNat? (Word.opcodeNumber word) with
      | none => exact affords_throw _
      | some opcode =>
        refine .ite (fun _ => ?_) fun _ => ?_
        · refine affords_word.bind (Nat.zero_le _) fun aux => ?_
          cases left with
          | zero => exact affords_corrupt _
          | succ left =>
            refine .rounds ((ih left (by omega)).bind (by omega) fun units => ?_) (by omega)
            refine affords_pure ?_
            simp only [CodeUnit.totalSize_cons, CodeUnit.size, Option.isSome_some, if_true,
              Nat.mul_add]
            omega
        · refine (ih left (by omega)).bind (by omega) fun units => affords_pure ?_
          simp only [CodeUnit.totalSize_cons, CodeUnit.size, Option.isSome_none,
            Bool.false_eq_true, if_false, Nat.mul_add]
          omega

theorem affords_keyless {c : Constant} (hc : c.keyCount = 0) {k : Nat} (hk : 2 * price + 1 ≤ k) :
    Affords price k (pure c) (pure c) fun c => price + (price + 1 + c.keyCount) :=
  affords_pure (by omega)

/-- The byte of its kind pays for a constant, and every key of a table pays for itself. -/
theorem affords_readConstant :
    Affords price 0 (readConstant strings) (Image.readConstant strings) fun c =>
      price + (price + 1 + c.keyCount) := by
  have hparts := modular_affords price
  refine affords_byte.bind le_rfl fun kind => ?_
  match kind.toNat with
  | 0 => exact affords_keyless rfl (by omega)
  | 1 =>
    exact hparts.flag.bind (Nat.zero_le _) fun b => affords_keyless rfl (by omega)
  | 2 =>
    exact hparts.double.bind (Nat.zero_le _) fun x => affords_keyless rfl (by omega)
  | 3 =>
    refine hparts.varint.bind (Nat.zero_le _) fun number => .ite (fun _ => ?_) fun _ => ?_
    · exact affords_keyless rfl (by omega)
    · have hstring : Affords price 0 (plain (Image.readStringAt strings number))
          (Image.readStringAt strings number) fun _ => 0 := Image.modular_readStringAt hparts number
      exact hstring.bind (Nat.zero_le _) fun s => affords_keyless rfl (by omega)
  | 4 =>
    exact hparts.word.bind (Nat.zero_le _) fun id => affords_keyless rfl (by omega)
  | 5 =>
    have hkey : Affords price 0 (plain varint) varint fun _ => price + 1 :=
      affords_varint.mono le_rfl fun _ => by omega
    refine (affords_counted hkey).bind (Nat.zero_le _) fun keys => affords_pure ?_
    simp only [Constant.keyCount, List.map_const', List.sum_replicate, smul_eq_mul, mul_one]
    omega
  | 6 =>
    exact hparts.varint.bind (Nat.zero_le _) fun n => affords_keyless rfl (by omega)
  | 7 =>
    refine hparts.single.bind (Nat.zero_le _) fun x => ?_
    refine hparts.single.bind (Nat.zero_le _) fun y => ?_
    refine hparts.single.bind (Nat.zero_le _) fun z => ?_
    exact hparts.single.bind (Nat.zero_le _) fun w => affords_keyless rfl (by omega)
  | other + 8 => exact affords_corrupt _

theorem checkReferences_append (index count : Nat) (references others : List Int) :
    Image.checkReferences index count (references ++ others) = (do
      Image.checkReferences index count references
      Image.checkReferences index count others) := by
  induction references with
  | nil => rfl
  | cons reference references ih =>
    by_cases hreference : 0 ≤ reference ∧ reference < count
    · simp only [List.cons_append, Image.checkReferences, if_pos hreference, ih]
    · simp only [List.cons_append, Image.checkReferences, if_neg hreference]
      rfl

/-- The slots of the code pay for going over it. -/
theorem affords_checkReferences (index count : Nat) (units : List CodeUnit) :
    Affords price (price * CodeUnit.totalSize units) (checkReferences index count units)
      (Image.checkReferences index count (units.flatMap CodeUnit.references)) fun _ => 0 := by
  have hparts := modular_affords price
  induction units with
  | nil => exact affords_pure (Nat.zero_le _)
  | cons u others ih =>
    rw [checkReferences, List.flatMap_cons, checkReferences_append, CodeUnit.totalSize_cons,
      Nat.mul_add]
    have hunit := Image.modular_checkReferences hparts index count
      u.references
    refine .rounds (hunit.bind (Nat.zero_le _) fun _ => ?_) (by omega)
    exact ih.mono (by omega) fun _ => by omega

theorem affords_readLines (size : Nat) :
    Affords price 0 (readLines size) (Image.readLines size) Array.size := by
  refine affords_byte.bind le_rfl fun gapLog2 => .ite (fun _ => affords_corrupt _) fun _ => ?_
  have hoffset : Affords price 0 (plain byte) byte fun _ => price + (price + 1) :=
    affords_byte.mono le_rfl fun _ => by omega
  have hbase : Affords price 0 (plain word) word fun _ => price + 0 :=
    affords_word.mono le_rfl fun _ => by omega
  refine (affords_replicate hoffset size).bind (by omega) fun offsets => ?_
  refine (affords_replicate hbase _).bind (by omega) fun bases => ?_
  simp only [List.map_const', List.sum_replicate, smul_eq_mul, Nat.mul_comm offsets.length,
    Nat.add_mul, Nat.one_mul]
  refine .rounds (affords_pure ?_) (by omega)
  rw [Image.size_combineLines, Image.length_runningSums]
  omega

theorem affords_skipTypeNames (fuel : Nat) :
    Affords price 0 (skipTypeNames fuel) (Image.skipTypeNames fuel) fun _ => 0 := by
  have hparts := modular_affords price
  induction fuel with
  | zero => exact affords_pure le_rfl
  | succ fuel ih =>
    refine affords_byte.bind le_rfl fun b => ?_
    refine .ite (fun _ => affords_pure (Nat.zero_le _)) fun _ => ?_
    refine .rounds (hparts.varint.bind (Nat.zero_le _) fun _ => ?_) (by omega)
    exact ih.mono (Nat.zero_le _) fun _ => Nat.zero_le _

theorem affords_skipNames : Affords price 0 skipNames Image.skipNames fun _ => 0 := by
  have hparts := modular_affords price
  have hupvalue : Affords price 0 (plain varint) varint fun _ => price + 0 :=
    affords_varint.mono le_rfl fun _ => by omega
  have hvariable : Affords price 0
      (do let _ ← plain varint; let _ ← plain varint; let _ ← plain varint; let _ ← plain byte)
      (do let _ ← varint; let _ ← varint; let _ ← varint; let _ ← byte) fun _ => price + 0 := by
    refine affords_varint.bind le_rfl fun _ => ?_
    refine hparts.varint.bind (Nat.zero_le _) fun _ => ?_
    refine hparts.varint.bind (Nat.zero_le _) fun _ => ?_
    exact hparts.byte.bind (Nat.zero_le _) fun _ => affords_pure (by omega)
  refine (affords_counted hvariable).bind le_rfl fun _ => ?_
  exact (affords_counted hupvalue).bind (Nat.zero_le _) fun _ => affords_pure (Nat.zero_le _)

theorem sum_map_const_add {α : Type} (f : α → Nat) (n : Nat) (as : List α) :
    (as.map fun a => n + f a).sum = n * as.length + (as.map f).sum := by
  rw [List.sum_map_add, List.map_const', List.sum_replicate, smul_eq_mul, Nat.mul_comm]

theorem affords_constants :
    Affords price 0 (counted (readConstant strings)) (Reader.counted (Image.readConstant strings))
      fun constants => 2 * price + 1 +
        ((price + 1) * constants.length + (constants.map Constant.keyCount).sum) :=
  (affords_counted affords_readConstant).mono le_rfl fun constants => by
    rw [sum_map_const_add]
    omega

theorem affords_children :
    Affords price 0 (counted (plain varint)) (Reader.counted varint) fun children =>
      2 * price + 1 + (price + 1) * children.length := by
  have hchild : Affords price 0 (plain varint) varint fun _ => price + (price + 1) :=
    affords_varint.mono le_rfl fun _ => by omega
  refine (affords_counted hchild).mono le_rfl fun children => ?_
  simp only [List.map_const', List.sum_replicate, smul_eq_mul, Nat.mul_comm children.length]
  omega

/-- The bytes of a prototype pay for reading it, for looking at it once more, and for all that it
holds. -/
theorem affords_readPrototype (index : Nat) :
    Affords price 0 (readPrototype decode version strings index)
      (Image.readPrototype decode version strings index) fun p => price + p.worth price := by
  have hparts := modular_affords price
  refine affords_byte.bind le_rfl fun maxStackSize => ?_
  refine affords_byte.bind (Nat.zero_le _) fun numParams => ?_
  refine affords_byte.bind (Nat.zero_le _) fun numUpvalues => ?_
  refine affords_flag.bind (Nat.zero_le _) fun isVararg => ?_
  extract_lets body body'
  have hbody : ∀ flags, Affords price (3 * price + 2) (body flags) (body' flags) fun p =>
      price + p.worth price := by
    intro flags
    refine hparts.varint.bind (Nat.zero_le _) fun size => ?_
    refine (affords_readCode index size size).bind (by omega) fun code => ?_
    -- the slots pay for going over them once more, and are then paid for themselves
    rw [Nat.add_mul, Nat.one_mul]
    refine affords_constants.bind (Nat.zero_le _) fun constants => ?_
    refine (affords_checkReferences index constants.length code).bind (by omega) fun _ => ?_
    refine affords_children.bind (Nat.zero_le _) fun children => ?_
    refine hparts.varint.bind (Nat.zero_le _) fun lineDefined => ?_
    have hname : Affords price 0 (plain (Image.readName strings)) (Image.readName strings)
        fun _ => 0 := Image.modular_readName hparts
    refine hname.bind (Nat.zero_le _) fun name => ?_
    refine hparts.flag.bind (Nat.zero_le _) fun hasLines => ?_
    extract_lets finish finish'
    have hfinish : ∀ lines, Affords price
        (price + (price + 1 + CodeUnit.totalSize code +
          ((price + 1) * constants.length + (constants.map Constant.keyCount).sum) +
          (price + 1) * children.length + lines.elim 0 Array.size))
        (finish lines) (finish' lines) fun p => price + p.worth price := by
      intro lines
      refine hparts.flag.bind (Nat.zero_le _) fun hasNames => .ite (fun _ => ?_) fun _ => ?_
      · refine affords_skipNames.bind (Nat.zero_le _) fun _ => affords_pure ?_
        rw [PrototypeImage.worth_eq]
        exact Nat.le_add_right _ _
      · refine affords_pure ?_
        rw [PrototypeImage.worth_eq]
        exact Nat.le_add_right _ _
    have hlines : Affords price 0 (do return some (← readLines size))
        (do return some (← Image.readLines size)) fun lines => lines.elim 0 Array.size :=
      (affords_readLines size).bind le_rfl fun lines => affords_pure (by simp)
    refine .ite (fun _ => ?_) fun _ => ?_
    · exact hlines.bind (Nat.zero_le _) fun lines =>
        (hfinish lines).mono (by omega) fun p => by omega
    · have hnone := hfinish none
      rw [Option.elim_none] at hnone
      exact (hnone.mono (by omega) fun p => by omega).pure_bind
  refine .ite (fun _ => ?_) fun _ => ?_
  · refine hparts.byte.bind (Nat.zero_le _) fun flags => ?_
    have htypes := Image.modular_skipTypes hparts
    refine htypes.bind (Nat.zero_le _) fun _ => ?_
    exact ((hbody flags).mono (by omega) fun _ => by omega).pure_bind
  · exact ((hbody 0).mono (by omega) fun _ => by omega).pure_bind

/-! ## Modules -/

theorem affords_readPrototypes (count index : Nat) :
    Affords price price (readPrototypes decode version strings count index)
      (Image.readPrototypes decode version strings count index) fun ps =>
      price + ((ps.map PrototypeImage.extent).sum + ps.length +
        price * (ps.map PrototypeImage.visits).sum) := by
  induction count generalizing index with
  | zero => exact affords_pure (by simp)
  | succ count ih =>
    refine .rounds ((affords_readPrototype index).bind (by omega) fun first => ?_) (by omega)
    refine (ih (index + 1)).bind (by omega) fun others => affords_pure ?_
    simp only [List.map_cons, List.sum_cons, List.length_cons, Nat.mul_add, PrototypeImage.worth]
    omega

theorem affords_findMissing (count : Nat) (ps : List PrototypeImage) :
    Affords price (price * (ps.map PrototypeImage.visits).sum) (findMissing count ps)
      (pure (ps.findSome? (Image.missingPrototype? count))) fun _ => 0 := by
  induction ps with
  | nil => exact affords_pure (Nat.zero_le _)
  | cons p others ih =>
    have hchildren :
        p.children.findSome? (fun child => if count ≤ child then some child else none) =
          p.children.find? (count ≤ ·) := by
      rw [List.find?_eq_findSome?_guard]
      congr 1
      funext child
      simp [Option.guard]
    have hsearch : Affords price (price * p.children.length)
        (search (fun child => if count ≤ child then some child else none) p.children)
        (pure (p.children.find? (count ≤ ·))) fun _ => 0 :=
      hchildren ▸ affords_search _ p.children
    rw [findMissing, List.findSome?_cons, Image.missingPrototype?]
    simp only [List.map_cons, List.sum_cons, PrototypeImage.visits, Nat.mul_add]
    refine .rounds (hsearch.after_pure (by omega) ?_) (by omega)
    cases p.children.find? (count ≤ ·) with
    | some child => exact affords_pure (Nat.zero_le _)
    | none =>
      refine (affords_search _ p.constants).after_pure (by omega) ?_
      generalize p.constants.findSome? _ = closure
      cases closure with
      | some corruption => exact affords_pure (Nat.zero_le _)
      | none => exact ih.mono (by omega) fun _ => Nat.zero_le _

/-- To name a prototype does not make it any bigger. -/
theorem map_extent_nameMain (main : Nat) (ps : List PrototypeImage) :
    (Image.nameMain main ps).map PrototypeImage.extent = ps.map PrototypeImage.extent := by
  refine List.ext_getElem (by simp [Image.nameMain]) fun i hi hi' => ?_
  simp only [Image.nameMain, List.getElem_map, List.getElem_modify]
  split <;> rfl

/-- The bytes of a module pay for reading it and for all that it holds. -/
theorem affords_reader : Affords price 0 (reader decode) (Image.reader decode) Image.extent := by
  have hparts := modular_affords price
  refine affords_byte.bind le_rfl fun version => ?_
  extract_lets body versioned checked body' versioned' checked'
  have hbody : ∀ typesVersion,
      Affords price 0 (body typesVersion) (body' typesVersion) Image.extent := by
    intro typesVersion
    have hstring : Affords price 0 (plain string) string fun s => price + (price + 1 + s.length) :=
      affords_string.mono le_rfl fun s => by omega
    refine (affords_counted hstring).bind le_rfl fun strings => ?_
    extract_lets rest rest'
    have hrest : Affords price (strings.length + (strings.map List.length).sum) (rest ()) (rest' ())
        Image.extent := by
      refine affords_varint.bind (Nat.zero_le _) fun count => ?_
      refine (affords_readPrototypes count 0).bind (by omega) fun prototypes => ?_
      refine (affords_findMissing count prototypes).after_pure (by omega) ?_
      cases prototypes.findSome? (Image.missingPrototype? count) with
      | some corruption => exact fun _ => .error (Nat.le_add_right _ _)
      | none =>
        refine hparts.varint.bind (Nat.zero_le _) fun main => .unless fun _ => ?_
        refine affords_get.bind (Nat.zero_le _) fun c => .unless fun _ => affords_pure ?_
        have hlength : (Image.nameMain main prototypes).length = prototypes.length :=
          List.length_modify ..
        rw [Image.extent, map_extent_nameMain, hlength]
        dsimp only
        omega
    rw [sum_map_const_add, Nat.add_mul, Nat.one_mul]
    refine .ite (fun _ => ?_) fun _ => hrest.mono (by omega) fun _ => by omega
    refine affords_get.bind (Nat.zero_le _) fun c => ?_
    refine (affords_skipTypeNames _).bind (Nat.zero_le _) fun _ => ?_
    exact hrest.mono (by omega) fun _ => by omega
  refine .unless fun _ => .unless fun _ => .ite (fun _ => ?_) fun _ => ?_
  · refine hparts.byte.bind (Nat.zero_le _) fun typesVersion => ?_
    exact (hbody typesVersion).mono (Nat.zero_le _) fun _ => by omega
  · exact ((hbody 0).mono (Nat.zero_le _) fun _ => by omega).pure_bind

end Metered

end ScriptMachine
