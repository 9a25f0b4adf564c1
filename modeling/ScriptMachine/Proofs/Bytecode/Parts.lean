import Mathlib
import ScriptMachine.Bytecode.Image.Reader

/-!
# Parts of a module

All parts of a module are read by a few readers of bytes, one after the other.  What holds of these
readers, and of a sequence as soon as it holds of its steps, holds of the readers of all parts.
-/

namespace ScriptMachine

namespace Reader

/-- A property of readers that the readers of bytes have and that sequences keep. -/
structure Modular (P : {α : Type} → Reader α → Prop) : Prop where
  /-- A result without any reading has it. -/
  pure {α : Type} (a : α) : P (Pure.pure a : Reader α)
  /-- A failure has it. -/
  throw {α : Type} (e : LoadError) : P (throw e : Reader α)
  /-- A sequence has it if its steps have. -/
  bind {α β : Type} {r : Reader α} {f : α → Reader β} : P r → (∀ a, P (f a)) → P (r >>= f)
  /-- The next byte has it. -/
  byte : P byte
  /-- The next bytes have it, as many as asked for. -/
  take (n : Nat) : P (take n)

namespace Modular

variable {P : {α : Type} → Reader α → Prop} {α β : Type}

section Steps

variable {r x y : Reader α}

theorem corrupt (h : Modular P) (corruption : Corruption) :
    P (Reader.corrupt corruption : Reader α) :=
  h.throw _

theorem map (h : Modular P) (hr : P r) (g : α → β) : P (do return g (← r)) :=
  h.bind hr fun a => h.pure (g a)

theorem ite (_h : Modular P) {p : Prop} [Decidable p] (hx : P x) (hy : P y) :
    P (if p then x else y) := by
  split
  · exact hx
  · exact hy

end Steps

/-! ## Numbers and lists -/

theorem skip (h : Modular P) (n : Nat) : P (Reader.skip n) := h.bind (h.take n) fun _ => h.pure _

theorem flag (h : Modular P) : P Reader.flag := h.map h.byte _

theorem word (h : Modular P) : P Reader.word := h.map (h.take 4) _

theorem single (h : Modular P) : P Reader.single := h.map h.word _

theorem double (h : Modular P) : P Reader.double := h.map (h.take 8) _

theorem groups (h : Modular P) (count shift : Nat) : P (Reader.groups count shift) := by
  induction count generalizing shift with
  | zero => exact h.pure 0
  | succ count ih => exact h.bind h.byte fun b => h.ite (h.pure _) (h.map (ih (shift + 7)) _)

theorem varint (h : Modular P) : P Reader.varint := h.map (h.groups 5 0) _

theorem string (h : Modular P) : P Reader.string := h.bind h.varint h.take

theorem replicate (h : Modular P) {step : Reader α} (hstep : P step) (count : Nat) :
    P (Reader.replicate step count) := by
  induction count with
  | zero => exact h.pure []
  | succ count ih => exact h.bind hstep fun first => h.map ih _

theorem counted (h : Modular P) {step : Reader α} (hstep : P step) : P (Reader.counted step) :=
  h.bind h.varint (h.replicate hstep)

end Modular

end Reader

open Reader

namespace Image

variable {P : {α : Type} → Reader α → Prop} {decode : UInt32 → UInt32} {version : UInt8}
  {strings : List Bytes}

/-! ## Parts of a prototype -/

theorem modular_readCode (h : Modular P) (index size left : Nat) :
    P (readCode decode index size left) := by
  -- An instruction with an auxiliary word takes two of the slots that are left.
  induction left using Nat.strong_induction_on with
  | _ left ih =>
    cases left with
    | zero => exact h.pure []
    | succ left =>
      rw [readCode]
      refine h.bind h.word fun word => ?_
      extract_lets word
      split
      · exact h.throw _
      · refine h.ite (h.bind h.word fun aux => ?_) (h.map (ih left (by omega)) _)
        cases left with
        | zero => exact h.corrupt _
        | succ left => exact h.map (ih left (by omega)) _

theorem modular_readStringAt (h : Modular P) (number : Nat) : P (readStringAt strings number) := by
  unfold readStringAt
  split
  · exact h.pure _
  · exact h.corrupt _

theorem modular_readConstant (h : Modular P) : P (readConstant strings) := by
  refine h.bind h.byte fun kind => ?_
  split
  · exact h.pure _
  · exact h.map h.flag _
  · exact h.map h.double _
  · refine h.bind h.varint fun number => h.ite (h.pure _) ?_
    exact h.map (modular_readStringAt h number) _
  · exact h.map h.word _
  · exact h.map (h.counted h.varint) _
  · exact h.map h.varint _
  · refine h.bind h.single fun x => h.bind h.single fun y => ?_
    exact h.bind h.single fun z => h.map h.single _
  · exact h.corrupt _

theorem modular_checkReferences (h : Modular P) (index count : Nat) (references : List Int) :
    P (checkReferences index count references) := by
  induction references with
  | nil => exact h.pure ()
  | cons reference others ih => exact h.ite ih (h.corrupt _)

theorem modular_readLines (h : Modular P) (size : Nat) : P (readLines size) := by
  refine h.bind h.byte fun gapLog2 => h.ite (h.corrupt _) ?_
  exact h.bind (h.replicate h.byte _) fun offsets => h.map (h.replicate h.word _) _

theorem modular_skipTypes (h : Modular P) : P skipTypes := h.bind h.varint h.skip

theorem modular_skipNames (h : Modular P) : P skipNames := by
  have hnames : P (do let _ ← varint; let _ ← varint; let _ ← varint; let _ ← byte) :=
    h.bind h.varint fun _ => h.bind h.varint fun _ => h.bind h.varint fun _ =>
      h.bind h.byte fun _ => h.pure _
  exact h.bind (h.counted hnames) fun _ => h.bind (h.counted h.varint) fun _ => h.pure _

theorem modular_readName (h : Modular P) : P (readName strings) :=
  h.bind h.varint fun number => h.ite (h.pure _) (modular_readStringAt h number)

theorem modular_skipTypeNames (h : Modular P) (fuel : Nat) : P (skipTypeNames fuel) := by
  induction fuel with
  | zero => exact h.pure ()
  | succ fuel ih => exact h.bind h.byte fun b => h.ite (h.pure ()) (h.bind h.varint fun _ => ih)

/-! ## Prototypes -/

theorem modular_readPrototype (h : Modular P) (index : Nat) :
    P (readPrototype decode version strings index) := by
  refine h.bind h.byte fun maxStackSize => h.bind h.byte fun numParams =>
    h.bind h.byte fun numUpvalues => h.bind h.flag fun isVararg => ?_
  extract_lets body
  have hbody : ∀ flags, P (body flags) := by
    intro flags
    refine h.bind h.varint fun size => h.bind (modular_readCode h index size size) fun code =>
      h.bind (h.counted (modular_readConstant h)) fun constants =>
      h.bind (modular_checkReferences h _ _ _) fun _ => h.bind (h.counted h.varint) fun children =>
      h.bind h.varint fun lineDefined => h.bind (modular_readName h) fun name =>
      h.bind h.flag fun hasLines => ?_
    extract_lets finish
    have hfinish : ∀ lines, P (finish lines) := fun lines =>
      h.bind h.flag fun hasNames =>
        h.ite (h.bind (modular_skipNames h) fun _ => h.pure _) (h.pure _)
    exact h.ite (h.bind (h.map (modular_readLines h size) some) hfinish)
      (h.bind (h.pure none) hfinish)
  refine h.ite ?_ (h.bind (h.pure 0) hbody)
  exact h.bind h.byte fun flags => h.bind (modular_skipTypes h) fun _ => h.bind (h.pure flags) hbody

theorem modular_readPrototypes (h : Modular P) (count index : Nat) :
    P (readPrototypes decode version strings count index) := by
  induction count generalizing index with
  | zero => exact h.pure []
  | succ count ih =>
    exact h.bind (modular_readPrototype h index) fun first => h.map (ih (index + 1)) _

end Image

end ScriptMachine
