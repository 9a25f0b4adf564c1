import ScriptMachine.Proofs.Bytecode.Economy
import ScriptMachine.Proofs.Bytecode.Validity

/-!
# No amplification

Whatever counts a byte string claims, loading it is over after twice as many rounds as bytes have
been taken, and a module that is accepted holds no more than there are bytes.  Both follow from what
bytes can pay for: the second when rounds are free, the first when they are dear.
-/

namespace ScriptMachine

/-! ## Linked modules -/

/-- Count of the slots, constants, keys, children and lines of a prototype. -/
def Prototype.extent (p : Prototype) : Nat :=
  p.code.size + p.constants.size + (p.constants.toList.map Constant.keyCount).sum +
    p.children.length + p.lines.elim 0 Array.size

/-- Count of the strings and prototypes of a module, of the bytes of its strings, and of what its
prototypes hold. -/
def Module.extent (m : Module) : Nat :=
  m.strings.length + (m.strings.map List.length).sum + m.prototypes.size +
    (m.prototypes.toList.map Prototype.extent).sum

namespace LoadOptions

variable {options : LoadOptions}

/-- Steps one after the other keep a measure if every step keeps it. -/
theorem map_mapM {σ α β : Type} {f : α → StateM σ β} {measure : α → Nat} {measure' : β → Nat}
    (h : ∀ a s, measure' (f a s).1 = measure a) (items : List α) (s : σ) :
    (items.mapM f s).1.map measure' = items.map measure := by
  have hall : List.Forall₂ (fun a b => measure' b = measure a) items (items.mapM f s).1 :=
    forall₂_mapM h items s
  rw [← List.forall₂_eq_eq_eq, List.forall₂_map_left_iff, List.forall₂_map_right_iff]
  exact hall.flip

theorem keyCount_linkConstant (constant : Constant) (heap : Heap) :
    (options.linkConstant constant heap).1.keyCount = constant.keyCount := by
  cases constant with
  | vector value => cases value <;> rfl
  | _ => rfl

theorem extent_linkPrototype (p : PrototypeImage) (heap : Heap) :
    (options.linkPrototype p heap).1.extent = p.extent := by
  generalize hconstants : p.constants.mapM options.linkConstant heap = linked
  have hkeys : linked.1.map Constant.keyCount = p.constants.map Constant.keyCount :=
    hconstants ▸ map_mapM keyCount_linkConstant p.constants heap
  have hlength : linked.1.length = p.constants.length := by
    simpa using congrArg List.length hkeys
  have hslots : (p.code.flatMap (options.linkUnit linked.2 linked.1.toArray)).length = p.codeSize :=
    length_linkUnits p.code
  have hlinked : (options.linkPrototype p heap).1 =
      { p.toPrototypeHeader with
        code := (p.code.flatMap (options.linkUnit linked.2 linked.1.toArray)).toArray
        constants := linked.1.toArray } := by
    rw [← hconstants]
    rfl
  rw [hlinked, Prototype.extent, PrototypeImage.extent, ← hkeys, ← hlength, ← hslots]
  simp only [List.size_toArray]

theorem extent_link (image : Image) (heap : Heap) :
    (options.link image heap).1.extent = image.extent := by
  have hextents : (options.link image heap).1.prototypes.toList.map Prototype.extent =
      image.prototypes.map PrototypeImage.extent :=
    map_mapM extent_linkPrototype image.prototypes heap
  have hlength : (options.link image heap).1.prototypes.size = image.prototypes.length := by
    simpa using congrArg List.length hextents
  rw [Module.extent, Image.extent, hextents, hlength]
  rfl

end LoadOptions

namespace Metered

/-- What has been paid together with what is left is paid out of what was taken. -/
theorem paid_of_balance {rate paid left total : Nat} (hrate : 0 < rate)
    (h : paid + rate * left ≤ rate * total) : left ≤ total ∧ paid ≤ rate * (total - left) := by
  have hle : left ≤ total := Nat.le_of_mul_le_mul_left (by omega) hrate
  refine ⟨hle, ?_⟩
  rw [Nat.mul_sub]
  omega

/-- An account is one of reading the image, and whatever the price of a round is, the bytes that
were taken have paid for the rounds and for the image. -/
theorem account_pays (price : Nat) (decode : UInt32 → UInt32) (bytes : Bytes) :
    (account decode bytes).result = Image.read decode bytes ∧
      (account decode bytes).taken ≤ bytes.length ∧
      price * (account decode bytes).rounds +
          (Image.read decode bytes).toOption.elim 0 Image.extent ≤
        (2 * price + 1) * (account decode bytes).taken := by
  have hreader : Affords price 0 (reader decode) (Image.reader decode) Image.extent :=
    affords_reader
  have hcovered := hreader ⟨.ofBytes bytes, 0⟩
  have htotal : Meter.balance price ⟨.ofBytes bytes, 0⟩ + 0 = (2 * price + 1) * bytes.length := by
    simp [Meter.balance, Cursor.remaining, Cursor.ofBytes]
  rw [htotal] at hcovered
  unfold account Image.read
  generalize reader decode ⟨.ofBytes bytes, 0⟩ = metered at hcovered ⊢
  change Covered _ _ _ metered (Image.reader decode (.ofBytes bytes)) at hcovered
  generalize Image.reader decode (.ofBytes bytes) = plain at hcovered ⊢
  cases hcovered with
  | @ok image s hpaid =>
    have hspent : price * s.rounds + image.extent + (2 * price + 1) * s.remaining ≤
        (2 * price + 1) * bytes.length := by
      rw [Meter.balance] at hpaid
      omega
    obtain ⟨hle, hpays⟩ := paid_of_balance (by omega) hspent
    exact ⟨rfl, Nat.sub_le _ _, hpays⟩
  | @error e s hpaid =>
    obtain ⟨hle, hpays⟩ := paid_of_balance (by omega) hpaid
    exact ⟨rfl, Nat.sub_le _ _, hpays⟩

/-- What can be paid at any price is not more than twice the bytes. -/
theorem rounds_le_of_pays {rounds taken : Nat}
    (h : ∀ price, price * rounds ≤ (2 * price + 1) * taken) : rounds ≤ 2 * taken := by
  by_contra hmore
  have hdear := h (taken + 1)
  have hrounds : (taken + 1) * (2 * taken + 1) ≤ (taken + 1) * rounds :=
    Nat.mul_le_mul_left _ (by omega)
  nlinarith

theorem rounds_le (decode : UInt32 → UInt32) (bytes : Bytes) :
    (account decode bytes).rounds ≤ 2 * (account decode bytes).taken :=
  rounds_le_of_pays fun price => (Nat.le_add_right _ _).trans (account_pays price decode bytes).2.2

/-- Four thousand million strings are claimed, of which the reader begins one. -/
example : (account id [3, 0xff, 0xff, 0xff, 0xff, 0x0f]).rounds = 1 := by
  decide +kernel

end Metered

/-! ## Loading -/

namespace LoadOptions

/-- Loading cannot amplify.  Whatever the bytes are and the host chooses, an account is one of what
is read, and when it is closed, all loops together have begun at most twice as many rounds as bytes
have been taken.  That goes for bytes that break off at any place, so that the loops are never
far ahead of the bytes.  The strings, the bytes of strings, the prototypes, and the slots,
constants, keys, children and lines of prototypes in a module that is accepted are together no more
than the bytes. -/
theorem load_cannot_amplify (options : LoadOptions) (bytes : Bytes) (heap : Heap) :
    (Metered.account (options.decodeWord.getD id) bytes).result =
        Image.read (options.decodeWord.getD id) bytes ∧
      (Metered.account (options.decodeWord.getD id) bytes).rounds ≤
        2 * (Metered.account (options.decodeWord.getD id) bytes).taken ∧
      (Metered.account (options.decodeWord.getD id) bytes).taken ≤ bytes.length ∧
      ∀ m heap', options.load bytes heap = .ok (m, heap') → m.extent ≤ bytes.length := by
  obtain ⟨hresult, htaken, hfree⟩ := Metered.account_pays 0 (options.decodeWord.getD id) bytes
  refine ⟨hresult, Metered.rounds_le _ _, htaken, fun m heap' hload => ?_⟩
  rw [load] at hload
  cases hread : Image.read (options.decodeWord.getD id) bytes with
  | error e =>
    rw [hread] at hload
    cases hload
  | ok image =>
    rw [hread] at hload hfree
    have hlinked : options.link image heap = (m, heap') := Except.ok.inj hload
    have hextent : (options.link image heap).1.extent = image.extent := extent_link image heap
    rw [hlinked] at hextent
    change m.extent = image.extent at hextent
    simp only [Except.toOption, Option.elim_some] at hfree
    omega

/-- A module with blocks of all sorts has 57 bytes, and is accepted. -/
theorem load_cannot_amplify_layeredModule :
    ∃ m heap', LoadOptions.load {} layeredModule {} = .ok (m, heap') ∧ m.extent ≤ 57 ∧
      (Metered.account id layeredModule).rounds ≤ 114 := by
  obtain ⟨-, hrounds, htaken, hextent⟩ := load_cannot_amplify {} layeredModule {}
  have hcheck : (match LoadOptions.load {} layeredModule {} with
      | .ok _ => true
      | .error _ => false) = true := by
    decide +kernel
  have hlength : layeredModule.length = 57 := rfl
  rcases hload : LoadOptions.load {} layeredModule {} with e | ⟨m, heap'⟩
  · rw [hload] at hcheck
    cases hcheck
  · refine ⟨m, heap', rfl, hlength ▸ hextent m heap' hload, ?_⟩
    rw [hlength] at htaken
    exact hrounds.trans (Nat.mul_le_mul_left 2 htaken)

end LoadOptions

end ScriptMachine
