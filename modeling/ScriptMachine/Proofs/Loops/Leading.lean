import ScriptMachine.Proofs.Loops.Agreement
import ScriptMachine.Proofs.Number.Values
import ScriptMachine.Proofs.Table.Border

/-!
# Loops through the leading integers

The library function `ipairs` sets up a loop that a stepping function drives: a round adds one to the
control value and asks the table for what it has there.  As long as the table stays as it is, such a
loop visits the integers from one on, in order and with their values, and stops at the first hole.
It need not come as far as the border of the table, and comes there exactly when there is no hole
before it.

A round adds doubles.  Up to 2^53 the sum is the next integer; a loop that came to 2^53 would stay
there, but no table has a value at 2^53 that has not been stored into that many times.
-/

namespace ScriptMachine

/-! ## The next integer -/

namespace Number

theorem ofNat_add_one {j : Nat} (h : j < 2 ^ 53) : ofNat j + 1 = ofNat (j + 1) := by
  have hone : integer? 1 = some 1 := rfl
  have hsum := integer?_add (integer?_ofNat h.le) hone (by rw [abs_of_nonneg (by omega)]; omega)
  exact eq_of_integer? (Nat.succ_pos j) hsum (integer?_ofNat h)

/-- An integer in the signed range is its own integer part. -/
theorem truncate_of_integer? {x : Float} {n : Int} (h : integer? x = some n)
    (hn : -(2 ^ 63) ≤ n ∧ n < 2 ^ 63) : truncate x = n := by
  unfold integer? at h
  unfold truncate
  split at h
  · exact Option.some.inj h
  · dsimp only
    split at h
    · rename_i hexponent
      cases h
      rw [if_pos hexponent]
      push_cast at hn ⊢
      exact if_pos hn
    · rename_i hexponent
      dsimp only at h
      split at h
      · cases h
        rw [if_neg hexponent]
        push_cast at hn ⊢
        exact if_pos hn
      · cases h
  · cases h

theorem truncate_ofNat {n : Nat} (h : n ≤ 2 ^ 53) : truncate (ofNat n) = n :=
  truncate_of_integer? (integer?_ofNat h) (by omega)

end Number

/-! ## The stepping function -/

/-- What `ipairs` sets up: the stepping function, the table, and zero. -/
theorem Library.settle_ipairs (step : Value) (t : TableId) (rest : List Value) (w : World) :
    (Library.ipairs step (.table t :: rest)).settle w =
      (w, .done [step, .table t, .ofNat 0]) := rfl

/-- What the stepping function makes of an integer: the next one with its value, or nil. -/
theorem Library.settle_ipairsStep {j : Nat} (hj : j < 2 ^ 53) (t : TableId) (w : World) :
    (Library.ipairsStep [.table t, .ofNat j]).settle w = (w, .done (
      if w.heap.get t (.ofNat (j + 1)) = .nil then [.nil]
      else [.ofNat (j + 1), w.heap.get t (.ofNat (j + 1))])) := by
  have hnext : Value.ofInt (Number.truncate (Number.ofNat j + 1)) = .ofNat (j + 1) := by
    rw [Number.ofNat_add_one hj, Number.truncate_ofNat hj]
    rfl
  show Program.settle (.get t (.ofInt (Number.truncate (Number.ofNat j + 1))) _) w = _
  rw [hnext, Program.settle]
  by_cases hnil : w.heap.get t (.ofNat (j + 1)) = .nil
  · rw [if_pos hnil, if_pos ((Table.isNil_iff _).2 hnil)]
    rfl
  · rw [if_neg hnil, if_neg (mt (Table.isNil_iff _).1 hnil), Number.ofNat_add_one hj]
    rfl

namespace GenericLoop

variable {l : GenericLoop} {t : TableId} {content : Table} {s u r : Running} {i : Instruction}
  {g : Frame} {j k m : Nat} {run : Nat → Running}

/-! ## Rounds -/

/-- A loop is driven by the stepping function of `ipairs` over a table, and has come to a control
value. -/
structure ByStep (l : GenericLoop) (t : TableId) (control : Value) (s : Running) : Prop where
  /-- The first register holds the function. -/
  function : ∃ id name, s.frame.register l.base = .function id ∧
    s.world.function? id = some (.native name Library.ipairsStep)
  /-- The second one holds the table. -/
  state : s.frame.register (l.base + 1) = .table t
  /-- The third one holds the control value. -/
  control : s.frame.register (l.base + 2) = control

theorem ByStep.body {control : Value} (hby : l.ByStep t control r) (h : l.Body r s) :
    l.ByStep t control s := by
  obtain ⟨fid, name, hregister, hfunction⟩ := hby.function
  exact ⟨⟨fid, name, (h.registers 0 (by omega)).trans hregister, h.evolves.function hfunction⟩,
    (h.registers 1 (by omega)).trans hby.state, (h.registers 2 (by omega)).trans hby.control⟩

section Round

variable (hby : l.ByStep t (.ofNat j) s) (h : l.Ready s i u g) (hj : j < 2 ^ 53)

include hby h hj

/-- A round of such a loop is what the stepping function makes of the table. -/
theorem ByStep.roundResult : s.machine.roundResult? =
    some (Machine.accept (.iteration l.base l.arity l.distance)
      (if u.world.heap.get t (.ofNat (j + 1)) = .nil then [.nil]
        else [.ofNat (j + 1), u.world.heap.get t (.ofNat (j + 1))])
      { u with frame := l.roomy g }) := by
  obtain ⟨fid, name, hregister, hfunction⟩ := hby.function
  have hwork := loopWork_of_function h ((h.register l.base).trans hregister)
  rw [h.register, h.register, hby.state, hby.control] at hwork
  have hresult := roundResult_of_call (h.acting.trans (congrArg some hwork))
    (h.aside.evolves.function hfunction)
  rw [Library.settle_ipairsStep hj] at hresult
  exact hresult

variable (harity : 0 < l.arity)

include harity

/-- Where the table has a value at the next integer, the loop goes on with both. -/
theorem ByStep.round_of_value (hvalue : u.world.heap.get t (.ofNat (j + 1)) ≠ .nil) :
    s.machine.roundResult? = some (.ok .next { u with
      frame := l.roundFrame (l.roomy g) (.ofNat (j + 1))
        (u.world.heap.get t (.ofNat (j + 1))) }) := by
  have hsize : l.base + 3 + l.arity ≤ (l.roomy g).registers.size := h.size_le
  have hresult := hby.roundResult h hj
  rw [if_neg hvalue] at hresult
  exact hresult.trans (congrArg some (accept_pair hsize harity (by exact nofun) _))

/-- A round of the loop shows the next integer with its value, or ends the loop where there is
none. -/
theorem ByStep.shows :
    ∃ r, s.machine.roundResult? = some r ∧ l.Shows (l.ByStep t) s
      (.ok (if u.world.heap.get t (.ofNat (j + 1)) = .nil then none
        else some (.ofNat (j + 1), u.world.heap.get t (.ofNat (j + 1))))) r := by
  have hsize : l.base + 3 + l.arity ≤ (l.roomy g).registers.size := h.size_le
  by_cases hvalue : u.world.heap.get t (.ofNat (j + 1)) = .nil
  · have hresult := hby.roundResult h hj
    rw [if_pos hvalue] at hresult ⊢
    refine ⟨_, hresult.trans (congrArg some (accept_nil hsize harity)), .ends ?_ ?_⟩
    · show Frame.displace (Frame.putAll _ _ _).pc 1 = _
      rw [Frame.pc_putAll, ← h.pc]
      rfl
    · show Scope.register (Frame.putAll _ _ _).toScope _ = _
      rw [Frame.register_putAll_of_lt (by omega), ← h.register]
      rfl
  · obtain ⟨fid, name, hregister, hfunction⟩ := hby.function
    rw [if_neg hvalue]
    refine ⟨_, hby.round_of_value h hj harity hvalue, .again ?_ (slice_roundFrame hsize)
      (control_roundFrame hsize)
      ⟨⟨fid, name, ?_, h.aside.evolves.function hfunction⟩, ?_, control_roundFrame hsize⟩⟩
    · rw [pc_roundFrame, ← h.pc]
      rfl
    · exact (register_roundFrame_of_lt (by omega)).trans ((h.register _).trans hregister)
    · exact (register_roundFrame_of_lt (by omega)).trans ((h.register _).trans hby.state)

end Round

/-! ## Whole loops -/

/-- The first rounds of a loop that `ipairs` has set up over a table, which stays as it is. -/
structure OverIntegers (l : GenericLoop) (t : TableId) (content : Table) (k : Nat)
    (run : Nat → Running) : Prop where
  /-- The loop has a variable for the integer. -/
  arity : 0 < l.arity
  /-- It has made so many rounds. -/
  rounds : l.Rounds k run
  /-- It begins with what `ipairs` gives. -/
  start : l.ByStep t (.ofNat 0) (run 0)
  /-- At each of its moments the hooks pass, the registers suffice and the table is the same. -/
  held : ∀ j ≤ k, ∃ i u g, l.Ready (run j) i u g ∧ u.world.heap.table t = content

namespace OverIntegers

variable (h : l.OverIntegers t content k run)

include h

/-- Where the loop has come to an integer, its next round shows what the table has behind it. -/
theorem shows (hj : j ≤ k) (hsmall : j < 2 ^ 53) (hby : l.ByStep t (.ofNat j) (run j)) :
    ∃ r, (run j).machine.roundResult? = some r ∧ l.Shows (l.ByStep t) (run j)
      (.ok (if content.get (.ofNat (j + 1)) = .nil then none
        else some (.ofNat (j + 1), content.get (.ofNat (j + 1))))) r := by
  obtain ⟨i, u, g, hready, rfl⟩ := h.held j hj
  exact hby.shows hready hsmall h.arity

/-- A loop that goes on has found a value at the next integer, and comes to it. -/
theorem next (hj : j < k) (hsmall : j < 2 ^ 53) (hby : l.ByStep t (.ofNat j) (run j)) :
    content.get (.ofNat (j + 1)) ≠ .nil ∧ l.ByStep t (.ofNat (j + 1)) (run (j + 1)) := by
  obtain ⟨r, hr, hshows⟩ := h.shows hj.le hsmall hby
  obtain ⟨v, hv, hgoes, hbody⟩ := h.rounds.goes j hj
  obtain rfl := Option.some.inj (hr.symm.trans hv)
  by_cases hvalue : content.get (.ofNat (j + 1)) = .nil
  · rw [if_pos hvalue] at hshows
    cases hshows with
    | ends pc => exact absurd pc hgoes
  · rw [if_neg hvalue] at hshows
    cases hshows with
    | again _ _ _ driven => exact ⟨hvalue, driven.body hbody⟩

/-- After each round the loop has come to the next integer, and all before it have values. -/
theorem reached (hj : j ≤ k) (hsmall : j ≤ 2 ^ 53) :
    l.ByStep t (.ofNat j) (run j) ∧ content.Leads j := by
  induction j with
  | zero => exact ⟨h.start, fun i hpos hi => by omega⟩
  | succ j ih =>
    obtain ⟨hby, hleads⟩ := ih (by omega) (by omega)
    obtain ⟨hvalue, hby'⟩ := h.next hj hsmall hby
    refine ⟨hby', fun i hpos hi => ?_⟩
    rcases Nat.lt_or_eq_of_le hi with hlt | rfl
    · exact hleads i hpos (by omega)
    · exact (Table.hasInteger_iff hpos hsmall).2 hvalue

/-- A round shows the next of the leading integers, or ends the loop behind the last one. -/
theorem round (hm : IsGreatest {m | content.Leads m} m) (hj : j ≤ k) (hsmall : j < 2 ^ 53) :
    ∃ r, (run j).machine.roundResult? = some r ∧ l.Shows (l.ByStep t) (run j)
      (.ok (if j < m then some (.ofNat (j + 1), content.get (.ofNat (j + 1))) else none)) r := by
  obtain ⟨hby, hleads⟩ := h.reached hj hsmall.le
  obtain ⟨r, hr, hshows⟩ := h.shows hj hsmall hby
  refine ⟨r, hr, ?_⟩
  by_cases hlt : j < m
  · have hvalue := (Table.hasInteger_iff (Nat.succ_pos j) hsmall).1
      (hm.1 (j + 1) (Nat.succ_pos j) hlt)
    rw [if_neg hvalue] at hshows
    rwa [if_pos hlt]
  · obtain rfl : j = m := le_antisymm (hm.2 hleads) (Nat.le_of_not_lt hlt)
    rw [if_pos (Table.get_eq_nil_of_isGreatest hm hsmall)] at hshows
    rwa [if_neg hlt]

/-- The loop makes no round behind the leading integers. -/
theorem le_leading (hm : IsGreatest {m | content.Leads m} m) (hsmall : m < 2 ^ 53) : k ≤ m := by
  by_contra hlt
  obtain ⟨hby, -⟩ := h.reached (Nat.le_of_not_le hlt) hsmall.le
  obtain ⟨hvalue, -⟩ := h.next (Nat.lt_of_not_le hlt) hsmall hby
  exact hvalue (Table.get_eq_nil_of_isGreatest hm hsmall)

end OverIntegers

/-! ## The law -/

/-- After any history the length of a table is a border: the table has a value there, unless the
length is zero, and none at the integer behind it; and it is no longer than the history.  The
leading integers that have values come at most that far, and so far exactly when there is no hole.
A loop that `ipairs` has set up over the table, which stays as it is, visits them in order and with
their values, and ends behind the last one: a round that begins below 2^53 shows the next of them or
the end, and there are no more rounds than leading integers, unless they come to 2^53. -/
theorem border_and_leading_integers (history : List Table.Operation) :
    let content := Table.empty.run history
    (content.length = 0 ∨ content.get (.ofNat content.length) ≠ .nil) ∧
    ¬ content.HasInteger (content.length + 1) ∧
    content.length ≤ history.length ∧
    ∃ m, IsGreatest {m | content.Leads m} m ∧ m ≤ content.length ∧
      (m = content.length ↔ ∀ i, 1 ≤ i → i ≤ content.length → content.get (.ofNat i) ≠ .nil) ∧
      (∀ step t rest w, (Library.ipairs step (.table t :: rest)).settle w =
        (w, .done [step, .table t, .ofNat 0])) ∧
      ∀ (l : GenericLoop) t k run, l.OverIntegers t content k run →
        (m < 2 ^ 53 → k ≤ m) ∧ ∀ j ≤ k, j < 2 ^ 53 →
          ∃ r, (run j).machine.roundResult? = some r ∧ l.Shows (l.ByStep t) (run j)
            (.ok (if j < m then some (.ofNat (j + 1), content.get (.ofNat (j + 1))) else none))
            r := by
  intro content
  have ht := Table.wellFormed_empty.run history
  obtain ⟨m, hm⟩ := ht.exists_isGreatest_leads
  refine ⟨ht.get_length, ht.not_hasInteger_successor, Table.length_run_le history, m, hm,
    ht.le_length_of_leads hm.1, ht.eq_length_iff hm, Library.settle_ipairs, ?_⟩
  intro l t k run h
  exact ⟨h.le_leading hm, fun j hj hsmall => h.round hm hj hsmall⟩

/-- What was stored in the table of `stepWorld`: there is a hole at 2. -/
def stepHistory : List Table.Operation := [.setInt 1 (.boolean true), .setInt 3 (.boolean false)]

/-- The world of `pairWorld` with the stepping function of `ipairs` and another table. -/
def stepWorld : World :=
  { pairWorld with
    heap := { tables := #[Table.empty.run stepHistory] }
    functions := #[.native (.ofString "ipairs_step") Library.ipairsStep] }

/-- A call in `stepWorld` that is about to continue its loop. -/
def stepFrame : Running :=
  { world := stepWorld, stack := []
    frame := { (pairFrame (.function ⟨0⟩) (.table ⟨0⟩) 1 []).frame with
      registers := #[.function ⟨0⟩, .table ⟨0⟩, .ofNat 0, .nil, .nil] } }

theorem get_stepWorld : stepWorld.heap.get ⟨0⟩ (.ofNat 1) = .boolean true := by
  show (Table.empty.run stepHistory).get (.ofNat 1) = _
  rw [Table.get_run_empty]
  decide +kernel

theorem quiet_stepWorld {f : Frame} (hvm : f.vm = ⟨0⟩) :
    (Running.mk stepWorld f []).vm.settings.Quiet := by
  unfold Running.vm
  simp only [hvm]
  exact ⟨rfl, rfl, rfl, rfl⟩

/-- A loop over the table of `stepWorld` makes one round, and ends at the hole. -/
theorem leading_integers_in_stepWorld : ∃ run,
    pairLoop.OverIntegers ⟨0⟩ (Table.empty.run stepHistory) 1 run ∧
      ∃ m, IsGreatest {m | (Table.empty.run stepHistory).Leads m} m ∧ 1 ≤ m ∧ m ≤ 2 ∧
        ∃ r, (run 0).machine.roundResult? = some r ∧
          pairLoop.Shows (pairLoop.ByStep ⟨0⟩) (run 0)
            (.ok (some (.ofNat 1, .boolean true))) r := by
  have hat : pairLoop.At stepFrame pairNext := ⟨rfl, rfl, rfl, rfl, rfl, rfl⟩
  have hby : pairLoop.ByStep ⟨0⟩ (.ofNat 0) stepFrame :=
    ⟨⟨⟨0⟩, .ofString "ipairs_step", rfl, rfl⟩, rfl, rfl⟩
  have hready : pairLoop.Ready stepFrame pairNext stepFrame.advanced stepFrame.advanced.frame :=
    ⟨hat, Effect.beforeLoop_of_quiet (quiet_stepWorld rfl) _, rfl⟩
  have hround := hby.round_of_value hready (by decide) (by decide) (by
    show stepWorld.heap.get ⟨0⟩ (.ofNat 1) ≠ .nil
    rw [get_stepWorld]
    exact nofun)
  let again : Running := { stepFrame.advanced with
    frame := pairLoop.roundFrame (pairLoop.roomy stepFrame.advanced.frame) (.ofNat (0 + 1))
      (stepFrame.advanced.world.heap.get ⟨0⟩ (.ofNat (0 + 1))) }
  have hat' : pairLoop.At again pairNext := ⟨rfl, rfl, rfl, rfl, rfl, rfl⟩
  have hready' : pairLoop.Ready again pairNext again.advanced again.advanced.frame :=
    ⟨hat', Effect.beforeLoop_of_quiet (quiet_stepWorld rfl) _, rfl⟩
  let run (j : Nat) : Running := if j = 0 then stepFrame else again
  have hloop : pairLoop.OverIntegers ⟨0⟩ (Table.empty.run stepHistory) 1 run := by
    refine ⟨by decide, ⟨fun j _ => ?_, fun j hj => ?_⟩, hby, fun j _ => ?_⟩
    · by_cases hzero : j = 0
      · exact ⟨_, by simpa [run, hzero] using hat⟩
      · exact ⟨_, by simpa [run, hzero] using hat'⟩
    · obtain rfl : j = 0 := by omega
      exact ⟨_, hround, by decide, ⟨0, rfl⟩, rfl, rfl, fun _ _ => rfl, rfl⟩
    · by_cases hzero : j = 0
      · exact ⟨_, _, _, by simpa [run, hzero] using hready, rfl⟩
      · exact ⟨_, _, _, by simpa [run, hzero] using hready', rfl⟩
  obtain ⟨-, -, hlength, m, hm, hle, -, -, hrounds⟩ := border_and_leading_integers stepHistory
  obtain ⟨hcount, hshows⟩ := hrounds pairLoop ⟨0⟩ 1 run hloop
  have hm2 : m ≤ 2 := hle.trans hlength
  have hm1 := hcount (by omega)
  obtain ⟨r, hr, hpair⟩ := hshows 0 (by omega) (by omega)
  rw [if_pos (by omega)] at hpair
  exact ⟨run, hloop, m, hm, hm1, hm2, r, hr, get_stepWorld ▸ hpair⟩

end GenericLoop

end ScriptMachine
