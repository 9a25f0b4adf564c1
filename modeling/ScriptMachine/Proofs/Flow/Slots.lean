import ScriptMachine.Proofs.Bytecode.Validity
import ScriptMachine.Proofs.Flow.Ways

/-!
# Where loaded code leads

In loaded code an auxiliary word stands behind each instruction that has one, and nowhere else.  So
no instruction leads to an auxiliary word, unless it jumps there.
-/

namespace ScriptMachine

/-! ## The size of loaded code -/

open Reader in
theorem Reader.ensures_varint (c : Cursor) : Ensures varint c fun number _ => number < 2 ^ 32 :=
  .bind fun _ _ _ => .pure (Nat.mod_lt _ (by decide))

namespace Image

open Reader

variable {decode : UInt32 → UInt32} {version : UInt8} {strings : List Bytes}

theorem ensures_declaredSize (c : Cursor) :
    Ensures (declaredSize version) c fun size _ => size < 2 ^ 32 := by
  refine .bind fun _ c₁ _ => ?_
  split
  · exact .bind fun _ c₂ _ => .bind fun _ c₃ _ => ensures_varint c₃
  · exact ensures_varint c₁

theorem ensures_declaredSizes (count index : Nat) (c : Cursor) :
    Ensures (declaredSizes decode version strings count index) c fun sizes _ =>
      ∀ size ∈ sizes, size < 2 ^ 32 := by
  induction count generalizing index c with
  | zero => exact .pure fun size hsize => absurd hsize List.not_mem_nil
  | succ count ih =>
    refine .bind fun size c₁ hsize => .bind fun _ c₂ _ => .bind fun others c₃ hothers => .pure ?_
    refine List.forall_mem_cons.2 ⟨?_, ih _ c₂ others c₃ hothers⟩
    unfold ahead at hsize
    split at hsize
    · rename_i hdeclared
      cases hsize
      exact ensures_declaredSize c _ _ hdeclared
    · cases hsize

/-- No prototype declares more slots than a number of 32 bits counts. -/
theorem ensures_declarations (c : Cursor) :
    Ensures (declarations decode) c fun sizes _ => ∀ size ∈ sizes, size < 2 ^ 32 := by
  have hfrom : ∀ version typesVersion c, Ensures (declarationsFrom decode version typesVersion) c
      fun sizes _ => ∀ size ∈ sizes, size < 2 ^ 32 := by
    intro version typesVersion c
    refine .bind fun strings c₁ _ => ?_
    extract_lets sizes
    have hsizes : ∀ c, Ensures (sizes ()) c fun sizes _ => ∀ size ∈ sizes, size < 2 ^ 32 :=
      fun c => .bind fun count c₂ _ => ensures_declaredSizes count 0 c₂
    split
    · exact .bind fun _ c₂ _ => .bind fun _ c₃ _ => hsizes c₃
    · exact hsizes c₁
  refine .bind fun version c₁ _ => ?_
  split
  · exact .bind fun typesVersion c₂ _ => hfrom _ _ c₂
  · exact .bind fun typesVersion c₂ _ => hfrom _ _ c₂

end Image

/-- A loaded module is well formed, and its slots are numbered with 32 bits. -/
structure Module.Loaded (n : Module) : Prop where
  /-- The module is well formed. -/
  wellFormed : n.WellFormed
  /-- The slots of each prototype are numbered with 32 bits. -/
  size_lt : ∀ p ∈ n.prototypes, p.code.size < 2 ^ 32

theorem LoadOptions.loaded_of_load {options : LoadOptions} {bytes : Bytes} {heap heap' : Heap}
    {n : Module} (h : options.load bytes heap = .ok (n, heap')) : n.Loaded := by
  unfold load Image.read at h
  cases hrun : Image.reader (options.decodeWord.getD id) (.ofBytes bytes) with
  | error e c' =>
    rw [hrun] at h
    cases h
  | ok image c' =>
    rw [hrun] at h
    obtain ⟨hsound, c₁, hdeclared⟩ := Image.ensures_reader _ image c' hrun
    obtain ⟨hwell, hsizes⟩ := @wellFormed_link options image hsound heap
    have hn : n = (options.link image heap).1 := (congrArg Prod.fst (Except.ok.inj h)).symm
    rw [hn]
    refine ⟨hwell, fun p hp => ?_⟩
    have hbound := Image.ensures_declarations _ _ _ hdeclared
    rw [← hsizes] at hbound
    exact hbound _ (List.mem_map_of_mem (Array.mem_toList_iff.2 hp))

/-! ## Auxiliary words -/

namespace Prototype

/-- A slot of the code holds an auxiliary word. -/
def isAux (p : Prototype) (slot : Nat) : Bool :=
  match p.code[slot]? with
  | some (.aux _) => true
  | _ => false

/-- No jump of the code leads to an auxiliary word. -/
def JumpsLand (p : Prototype) : Prop :=
  ∀ k < p.code.size, ∀ i ∈ p.instruction? k, ∀ distance ∈ i.distances,
    p.isAux (Frame.displace (k + 1) distance) = false

instance (p : Prototype) : Decidable p.JumpsLand :=
  inferInstanceAs (Decidable (∀ k < p.code.size, ∀ i ∈ p.instruction? k, ∀ distance ∈ i.distances,
    p.isAux (Frame.displace (k + 1) distance) = false))

variable {p : Prototype} {k slot : Nat} {i j : Instruction}

theorem isAux_iff : p.isAux slot = true ↔ ∃ w, p.code[slot]? = some (.aux w) := by
  unfold isAux
  split
  · rename_i w hw
    exact ⟨fun _ => ⟨w, hw⟩, fun _ => rfl⟩
  · rename_i hne
    exact ⟨fun h => absurd h Bool.false_ne_true, fun ⟨w, hw⟩ => absurd hw (hne w)⟩

theorem instruction?_eq_some_iff :
    p.instruction? slot = some i ↔ p.code[slot]? = some (.instruction i) := by
  unfold instruction?
  split
  · rename_i j hj
    simp [hj]
  · rename_i hne
    exact ⟨fun h => (by cases h), fun h => absurd h (hne i)⟩

theorem isAux_of_instruction (h : p.code[slot]? = some (.instruction i)) :
    p.isAux slot = false := by
  unfold isAux
  rw [h]

section WellFormed

variable {count : Nat} (hp : p.WellFormed count)

include hp

theorem WellFormed.isAux_zero : p.isAux 0 = false := by
  rw [Bool.eq_false_iff, ne_eq, isAux_iff]
  rintro ⟨w, hw⟩
  rw [← Array.getElem?_toList] at hw
  exact hp.aligned.first w hw

/-- Behind the word of an instruction there is an auxiliary word if the instruction has one. -/
theorem WellFormed.isAux_succ (hi : p.code[k]? = some (.instruction i)) :
    p.isAux (k + 1) = i.underlying.info.hasAux := by
  have hown := (hp.instructions k i hi).underlying
  rw [← Array.getElem?_toList] at hi
  rw [Bool.eq_iff_iff, isAux_iff]
  constructor
  · rintro ⟨w, hw⟩
    rw [← Array.getElem?_toList] at hw
    obtain ⟨i', hi', haux, -⟩ := (hp.aligned.next k w).1 hw
    rw [hi] at hi'
    cases hi'
    rwa [hown] at haux
  · intro haux
    rw [← hown] at haux
    refine ⟨i.aux, ?_⟩
    rw [← Array.getElem?_toList]
    exact (hp.aligned.next k i.aux).2 ⟨i, hi, haux, rfl⟩

/-- Behind an auxiliary word there is none. -/
theorem WellFormed.isAux_behind_aux (h : p.isAux k = true) : p.isAux (k + 1) = false := by
  rw [Bool.eq_false_iff, ne_eq, isAux_iff]
  rintro ⟨w, hw⟩
  rw [← Array.getElem?_toList] at hw
  obtain ⟨i, hi, -, -⟩ := (hp.aligned.next k w).1 hw
  rw [Array.getElem?_toList] at hi
  rw [isAux_of_instruction hi] at h
  cases h

/-- Instructions do not lead to auxiliary words unless they jump there. -/
theorem WellFormed.isAux_of_leads (hsize : p.code.size < 2 ^ 32) (hjumps : p.JumpsLand)
    (hj : p.code[k]? = some (.instruction j)) (hij : i.VersionOf j)
    (h : p.Leads i (k + 1) slot) : p.isAux slot = false := by
  have hsucc := hp.isAux_succ hj
  rw [← hij.underlying] at hsucc
  cases h with
  | on hone => rw [hsucc, hone]
  | past htwo =>
    rw [htwo] at hsucc
    obtain ⟨w, hw⟩ := isAux_iff.1 hsucc
    have hlt := (Array.getElem?_eq_some_iff.1 hw).1
    have hdisplace : Frame.displace (k + 1) 1 = k + 1 + 1 := by
      unfold Frame.displace
      omega
    rw [hdisplace]
    exact hp.isAux_behind_aux hsucc
  | jumps hdistance =>
    have hdistances : i.distances = j.distances := by
      unfold Instruction.distances
      rw [hij.underlying, hij.operands]
    rw [hdistances] at hdistance
    refine hjumps k (Array.getElem?_eq_some_iff.1 hj).1 j ?_ _ hdistance
    unfold instruction?
    rw [hj]
    rfl
  | @captured captures hmakes hcaptures =>
    cases captures with
    | zero =>
      refine hsucc.trans ?_
      rcases hmakes with hnew | hdup
      · rw [hnew]
        rfl
      · rw [hdup]
        rfl
    | succ captures =>
      obtain ⟨c, hc, hcapture⟩ := hcaptures captures (by omega)
      have hlast := hp.isAux_succ hc
      rw [hcapture] at hlast
      exact hlast
  | spliced hlooks hcall hcalls =>
    have hlast := hp.isAux_succ hcall
    rw [hcalls] at hlast
    exact hlast

end WellFormed

end Prototype

namespace Module

/-- No jump of the module leads to an auxiliary word. -/
def JumpsLand (n : Module) : Prop := ∀ p ∈ n.prototypes, p.JumpsLand

instance (n : Module) : Decidable n.JumpsLand :=
  inferInstanceAs (Decidable (∀ p ∈ n.prototypes, p.JumpsLand))

/-- Code with an instruction in it is that of a prototype. -/
theorem mem_of_code {n : Module} {index slot : Nat} {s : Slot}
    (h : (n.prototype index).code[slot]? = some s) : n.prototype index ∈ n.prototypes := by
  unfold prototype at h ⊢
  rw [Array.getD_eq_getD_getElem?] at h ⊢
  cases hp : n.prototypes[index]? with
  | none =>
    rw [hp] at h
    cases h
  | some p => exact Array.mem_of_getElem? hp

end Module

end ScriptMachine
