import ScriptMachine.Proofs.Loops.Rounds

/-!
# The two ways to iterate over a table

Two loops over a table that are driven in the two ways, by the library function `next` and by a
traversal, make the same rounds as long as their bodies leave the registers of the loops alone and
change the table alike.
-/

namespace ScriptMachine

/-! ## Settings without hooks -/

/-- Nothing is traced, and no hook is called but for failures. -/
structure Settings.Quiet (settings : Settings) : Prop where
  /-- No instruction is traced. -/
  trace : settings.trace = false
  /-- There is no step hook. -/
  step : settings.hooks.step = none
  /-- There is no breakpoint hook. -/
  breakpoint : settings.hooks.breakpoint = none
  /-- There is no interrupt hook. -/
  interrupt : settings.hooks.interrupt = none

theorem Settings.Quiet.transparent {settings : Settings} (h : settings.Quiet) :
    settings.hooks.Transparent where
  step hook hhook := by
    rw [h.step] at hhook
    cases hhook
  «breakpoint» hook hhook := by
    rw [h.breakpoint] at hhook
    cases hhook

/-- Without hooks all that comes before the work of a loop is to move the frame on. -/
theorem Effect.beforeLoop_of_quiet {s : Running} (hquiet : s.vm.settings.Quiet) (i : Instruction) :
    beforeLoop i s = .ok none s.advanced := by
  unfold Effect.beforeLoop
  rw [Effect.bind_of_ok (Effect.prelude_of_silent hquiet.trace hquiet.transparent i)]
  have hinterrupt : Effect.interrupt .genericLoop s.advanced = .ok () s.advanced := by
    unfold Effect.interrupt
    simp only [Effect.settings_bind]
    rw [show s.advanced.vm.settings.hooks.interrupt = none from hquiet.interrupt]
    rfl
  exact Effect.bind_of_ok hinterrupt

namespace GenericLoop

variable {l : GenericLoop} {t : TableId} {s s₁ s₂ u : Running} {i : Instruction}

/-! ## Loops that change alike -/

/-- The hooks of two loops come out alike: they pass, and the table of the loops has the same
content, which some history of assignments has made; or they end both frames in the same way. -/
inductive PassAlike (t : TableId) :
    EStateM.Result Failure Running (Option (List Value)) →
      EStateM.Result Failure Running (Option (List Value)) → Prop where
  /-- They pass. -/
  | pass {u₁ u₂ : Running} (made : ∃ history, u₁.world.heap.table t = Table.empty.run history)
    (same : u₁.world.heap.table t = u₂.world.heap.table t) :
    PassAlike t (.ok none u₁) (.ok none u₂)
  /-- They end the frames early. -/
  | leave (values : List Value) (u₁ u₂ : Running) :
    PassAlike t (.ok (some values) u₁) (.ok (some values) u₂)
  /-- They fail. -/
  | fail (failure : Failure) (u₁ u₂ : Running) :
    PassAlike t (.error failure u₁) (.error failure u₂)

/-- Two frames that are about to continue a loop are alike: their register files are of one size
and may grow to one size, and their hooks come out alike. -/
structure Alike (l : GenericLoop) (t : TableId) (s₁ s₂ : Running) : Prop where
  /-- The register files are of one size. -/
  size : s₁.frame.registers.size = s₂.frame.registers.size
  /-- They may grow to one size. -/
  limit : s₁.vm.settings.maxRegisters = s₂.vm.settings.maxRegisters
  /-- The hooks come out alike. -/
  hooks : ∀ i₁ i₂, l.At s₁ i₁ → l.At s₂ i₂ →
    PassAlike t (Effect.beforeLoop i₁ s₁) (Effect.beforeLoop i₂ s₂)

/-- Two loops have come to the same. -/
inductive SameRound (l : GenericLoop) (s₁ s₂ : Running) :
    EStateM.Result Failure Running Outcome → EStateM.Result Failure Running Outcome → Prop where
  /-- Both go on with their bodies and the same values. -/
  | again {r₁ r₂ : Running} (pc₁ : r₁.frame.pc = Frame.displace (l.slot + 1) l.distance)
    (pc₂ : r₂.frame.pc = Frame.displace (l.slot + 1) l.distance)
    (tuple : r₁.frame.slice (l.base + 3) l.arity = r₂.frame.slice (l.base + 3) l.arity)
    (control : r₁.frame.register (l.base + 2) = r₂.frame.register (l.base + 2)) :
    SameRound l s₁ s₂ (.ok .next r₁) (.ok .next r₂)
  /-- Both have ended, and leave their control values as they are. -/
  | ends {r₁ r₂ : Running} (pc₁ : r₁.frame.pc = Frame.displace (l.slot + 1) 1)
    (pc₂ : r₂.frame.pc = Frame.displace (l.slot + 1) 1)
    (control₁ : r₁.frame.register (l.base + 2) = s₁.frame.register (l.base + 2))
    (control₂ : r₂.frame.register (l.base + 2) = s₂.frame.register (l.base + 2)) :
    SameRound l s₁ s₂ (.ok .next r₁) (.ok .next r₂)
  /-- Both fail in the same way in the instruction of the loop. -/
  | raised (failure : Failure) {r₁ r₂ : Running} (current₁ : r₁.frame.current = l.slot)
    (current₂ : r₂.frame.current = l.slot) :
    SameRound l s₁ s₂ (.error failure r₁) (.error failure r₂)
  /-- The hooks have ended both frames with the same results. -/
  | left (values : List Value) (r₁ r₂ : Running) :
    SameRound l s₁ s₂ (.ok (.leave values) r₁) (.ok (.leave values) r₂)

theorem current_of_aside (h : l.At s i) (haside : Effect.Aside s.advanced u) :
    u.frame.current = l.slot := by
  rw [haside.frame]
  exact h.slot

/-- Two frames that are alike have room for the variables of the loop, or none of them has. -/
theorem Alike.room (h : l.Alike t s₁ s₂) {i₁ i₂ : Instruction} {u₁ u₂ : Running}
    (hat₁ : l.At s₁ i₁) (hat₂ : l.At s₂ i₂) (hpass₁ : Effect.beforeLoop i₁ s₁ = .ok none u₁)
    (hpass₂ : Effect.beforeLoop i₂ s₂ = .ok none u₂) (size : Nat) :
    (u₁.frame.ensure? size u₁.vm.settings.maxRegisters).isSome =
      (u₂.frame.ensure? size u₂.vm.settings.maxRegisters).isSome := by
  have haside₁ := Effect.aside_of_ok hpass₁
  have haside₂ := Effect.aside_of_ok hpass₂
  obtain ⟨⟨vm₁, hvm₁⟩, -⟩ := Machine.code_of_next hat₁.next
  obtain ⟨⟨vm₂, hvm₂⟩, -⟩ := Machine.code_of_next hat₂.next
  have hsize : u₁.frame.registers.size = u₂.frame.registers.size := by
    rw [haside₁.frame, haside₂.frame]
    exact h.size
  have hlimit : u₁.vm.settings.maxRegisters = u₂.vm.settings.maxRegisters := by
    rw [haside₁.settings hvm₁, haside₂.settings hvm₂, ← (Effect.Aside.refl s₁).settings hvm₁,
      ← (Effect.Aside.refl s₂).settings hvm₂]
    exact h.limit
  rw [Frame.ensure?_isSome, Frame.ensure?_isSome, hsize, hlimit]

theorem sameRound_of_shows {By₁ By₂ : Value → Running → Prop}
    {found : Except Fault (Option (Value × Value))}
    {r₁ r₂ : EStateM.Result Failure Running Outcome} (h₁ : l.Shows By₁ s₁ found r₁)
    (h₂ : l.Shows By₂ s₂ found r₂) : l.SameRound s₁ s₂ r₁ r₂ := by
  cases h₁ with
  | again pc₁ tuple₁ control₁ driven₁ =>
    cases h₂ with
    | again pc₂ tuple₂ control₂ driven₂ =>
      exact .again pc₁ pc₂ (tuple₁.trans tuple₂.symm) (control₁.trans control₂.symm)
  | ends pc₁ control₁ =>
    cases h₂ with
    | ends pc₂ control₂ => exact .ends pc₁ pc₂ control₁ control₂
  | raised current₁ =>
    cases h₂ with
    | raised current₂ => exact .raised _ current₁ current₂

/-- Behind the loop. -/
abbrev exit (l : GenericLoop) : Nat := Frame.displace (l.slot + 1) 1

/-- What two loops over a table come to that stand at the same key, one driven by the function and
the other by a traversal: the same, and when they go on they stand at the same key again. -/
theorem round_alike {key : Value} {i₁ i₂ : Instruction} (hat₁ : l.At s₁ i₁) (hat₂ : l.At s₂ i₂)
    (hby₁ : l.ByFunction t key s₁) (hby₂ : l.ByTraversal t key s₂) (halike : l.Alike t s₁ s₂)
    (harity : 0 < l.arity) :
    ∃ r₁ r₂, s₁.machine.roundResult? = some r₁ ∧ s₂.machine.roundResult? = some r₂ ∧
      l.SameRound s₁ s₂ r₁ r₂ ∧
      ∀ v₁ v₂, r₁ = .ok .next v₁ → r₂ = .ok .next v₂ → v₁.frame.pc ≠ l.exit →
        ∃ key', l.ByFunction t key' v₁ ∧ l.ByTraversal t key' v₂ ∧
          v₂.frame.register (l.base + 2) = key' := by
  have hooks := halike.hooks i₁ i₂ hat₁ hat₂
  generalize hb₁ : Effect.beforeLoop i₁ s₁ = b₁ at hooks
  generalize hb₂ : Effect.beforeLoop i₂ s₂ = b₂ at hooks
  have hacting₁ := hat₁.acting
  have hacting₂ := hat₂.acting
  cases hooks with
  | leave values u₁ u₂ =>
    rw [Effect.bind_of_ok hb₁] at hacting₁
    rw [Effect.bind_of_ok hb₂] at hacting₂
    exact ⟨_, _, roundResult_of_leave hacting₁, roundResult_of_leave hacting₂, .left values _ _,
      fun _ _ h => by cases h⟩
  | fail failure u₁ u₂ =>
    rw [Effect.bind_of_error hb₁] at hacting₁
    rw [Effect.bind_of_error hb₂] at hacting₂
    exact ⟨_, _, roundResult_of_error hacting₁, roundResult_of_error hacting₂,
      .raised failure (current_of_aside hat₁ (Effect.aside_of_error hb₁))
        (current_of_aside hat₂ (Effect.aside_of_error hb₂)), fun _ _ h => by cases h⟩
  | @pass u₁ u₂ made same =>
    have hroom := halike.room hat₁ hat₂ hb₁ hb₂ (l.base + 3 + l.arity)
    have hkeys : .nil ∉ (u₁.world.heap.table t).entryKeys := by
      obtain ⟨history, hhistory⟩ := made
      exact hhistory ▸ Table.nil_notMem_entryKeys history
    have hnext : u₂.world.heap.next t key = u₁.world.heap.next t key :=
      congrArg (fun content => Table.next content key) same.symm
    rw [Effect.bind_of_ok hb₁] at hacting₁
    rw [Effect.bind_of_ok hb₂] at hacting₂
    cases hroom₁ : u₁.frame.ensure? (l.base + 3 + l.arity) u₁.vm.settings.maxRegisters with
    | none =>
      rw [hroom₁, Option.isSome_none, eq_comm, Option.isSome_eq_false_iff,
        Option.isNone_iff_eq_none] at hroom
      simp only [loopWork_of_none hat₁ hroom₁] at hacting₁
      simp only [loopWork_of_none hat₂ hroom] at hacting₂
      exact ⟨_, _, roundResult_of_error hacting₁, roundResult_of_error hacting₂,
        .raised (.fault .stackOverflow) (current_of_aside hat₁ (Effect.aside_of_ok hb₁))
          (current_of_aside hat₂ (Effect.aside_of_ok hb₂)), fun _ _ h => by cases h⟩
    | some g₁ =>
      rw [hroom₁, Option.isSome_some, eq_comm] at hroom
      obtain ⟨g₂, hroom₂⟩ := Option.isSome_iff_exists.1 hroom
      obtain ⟨r₁, hr₁, hshows₁⟩ := hby₁.shows ⟨hat₁, hb₁, hroom₁⟩ harity hkeys
      obtain ⟨r₂, hr₂, hshows₂⟩ := hby₂.shows ⟨hat₂, hb₂, hroom₂⟩ harity
      rw [hnext] at hshows₂
      refine ⟨r₁, r₂, hr₁, hr₂, sameRound_of_shows hshows₁ hshows₂, ?_⟩
      rintro v₁ v₂ rfl rfl hgoes
      generalize u₁.world.heap.next t key = found at hshows₁ hshows₂
      cases hshows₁ with
      | ends pc => exact absurd pc hgoes
      | again pc₁ tuple₁ control₁ driven₁ =>
        cases hshows₂ with
        | again pc₂ tuple₂ control₂ driven₂ => exact ⟨_, driven₁, driven₂, control₂⟩

/-! ## Runs of loops -/

/-- The body of a loop leads from the end of one round to the beginning of the next one, in the same
call, and leaves the registers and the traversal of the loop alone. -/
structure Body (l : GenericLoop) (r s : Running) : Prop where
  /-- The run goes from one to the other. -/
  reaches : ∃ k, Machine.step^[k] r.machine = s.machine
  /-- It comes back to the same frame. -/
  id : s.frame.id = r.frame.id
  /-- The frame is one of the same machine. -/
  vm : s.frame.vm = r.frame.vm
  /-- The three registers of the loop are not written. -/
  registers : ∀ k < 3, s.frame.register (l.base + k) = r.frame.register (l.base + k)
  /-- The loop is not begun anew. -/
  iterator : s.frame.iterator? l.slot = r.frame.iterator? l.slot

theorem Body.evolves {r : Running} (h : l.Body r s) : r.world.Evolves s.world := by
  obtain ⟨k, hk⟩ := h.reaches
  have hworld := Machine.iterate_evolves r.machine k
  rwa [hk] at hworld

theorem ByFunction.body {r : Running} {key : Value} (hby : l.ByFunction t key r)
    (h : l.Body r s) : l.ByFunction t key s := by
  obtain ⟨fid, name, hregister, hfunction⟩ := hby.function
  exact ⟨⟨fid, name, (h.registers 0 (by omega)).trans hregister, h.evolves.function hfunction⟩,
    (h.registers 1 (by omega)).trans hby.state, (h.registers 2 (by omega)).trans hby.control⟩

theorem ByTraversal.body {r : Running} {key : Value} (hby : l.ByTraversal t key r)
    (h : l.Body r s) : l.ByTraversal t key s := by
  obtain ⟨vm, hvm, hgeneral⟩ := hby.general
  obtain ⟨vm', hvm', hevolves⟩ := h.evolves.machine hvm
  refine ⟨(h.registers 0 (by omega)).trans hby.iterated,
    ⟨vm', h.vm ▸ hvm', hevolves.settings ▸ hgeneral⟩, ?_⟩
  rw [h.iterator]
  exact hby.bridge

/-- The moments at which a frame is about to continue the loop: `run j` is that after `j` rounds. -/
structure Rounds (l : GenericLoop) (n : Nat) (run : Nat → Running) : Prop where
  /-- At each of them the instruction of the loop comes next. -/
  at_ : ∀ j ≤ n, ∃ i, l.At (run j) i
  /-- The loop goes on, and its body leads to the next one. -/
  goes : ∀ j < n, ∃ r, (run j).machine.roundResult? = some (.ok .next r) ∧
    r.frame.pc ≠ l.exit ∧ l.Body r (run (j + 1))

/-- The loop makes no further round. -/
def Ends (l : GenericLoop) (s : Running) : Prop :=
  ∀ r, s.machine.roundResult? = some (.ok .next r) → r.frame.pc = l.exit

/-- Two loops agree after `j` rounds. -/
structure Agree (l : GenericLoop) (j : Nat) (s₁ s₂ : Running) : Prop where
  /-- They have the same control value, which the last round has given. -/
  control : 0 < j → s₁.frame.register (l.base + 2) = s₂.frame.register (l.base + 2)
  /-- They come to the same next. -/
  round : ∃ r₁ r₂, s₁.machine.roundResult? = some r₁ ∧ s₂.machine.roundResult? = some r₂ ∧
    l.SameRound s₁ s₂ r₁ r₂

section Agreement

variable {n₁ n₂ : Nat} {run₁ run₂ : Nat → Running} (h₁ : l.Rounds n₁ run₁) (h₂ : l.Rounds n₂ run₂)
  (hstart₁ : l.ByFunction t .nil (run₁ 0)) (hstart₂ : l.ByTraversal t .nil (run₂ 0))
  (harity : 0 < l.arity) (halike : ∀ j, j ≤ n₁ → j ≤ n₂ → l.Alike t (run₁ j) (run₂ j))

include h₁ h₂ hstart₁ hstart₂ harity halike

/-- After every round both loops stand at the same key. -/
theorem same_key {j : Nat} (hj₁ : j ≤ n₁) (hj₂ : j ≤ n₂) : ∃ key, l.ByFunction t key (run₁ j) ∧
    l.ByTraversal t key (run₂ j) ∧ (0 < j → (run₂ j).frame.register (l.base + 2) = key) := by
  induction j with
  | zero => exact ⟨.nil, hstart₁, hstart₂, fun h => absurd h (lt_irrefl 0)⟩
  | succ j ih =>
    obtain ⟨key, hby₁, hby₂, -⟩ := ih (by omega) (by omega)
    obtain ⟨i₁, hat₁⟩ := h₁.at_ j (by omega)
    obtain ⟨i₂, hat₂⟩ := h₂.at_ j (by omega)
    obtain ⟨r₁, r₂, hr₁, hr₂, -, hagain⟩ := round_alike hat₁ hat₂ hby₁ hby₂
      (halike j (by omega) (by omega)) harity
    obtain ⟨v₁, hv₁, hgoes, hbody₁⟩ := h₁.goes j (by omega)
    obtain ⟨v₂, hv₂, -, hbody₂⟩ := h₂.goes j (by omega)
    obtain ⟨key', hby₁', hby₂', hcontrol⟩ := hagain v₁ v₂ (Option.some.inj (hr₁.symm.trans hv₁))
      (Option.some.inj (hr₂.symm.trans hv₂)) hgoes
    exact ⟨key', hby₁'.body hbody₁, hby₂'.body hbody₂, fun _ =>
      (hbody₂.registers 2 (by omega)).trans hcontrol⟩

theorem agree {j : Nat} (hj₁ : j ≤ n₁) (hj₂ : j ≤ n₂) : l.Agree j (run₁ j) (run₂ j) := by
  obtain ⟨key, hby₁, hby₂, hcontrol⟩ := same_key h₁ h₂ hstart₁ hstart₂ harity halike hj₁ hj₂
  obtain ⟨i₁, hat₁⟩ := h₁.at_ j hj₁
  obtain ⟨i₂, hat₂⟩ := h₂.at_ j hj₂
  obtain ⟨r₁, r₂, hr₁, hr₂, hsame, -⟩ := round_alike hat₁ hat₂ hby₁ hby₂ (halike j hj₁ hj₂) harity
  exact ⟨fun hj => hby₁.control.trans (hcontrol hj).symm, r₁, r₂, hr₁, hr₂, hsame⟩

end Agreement

/-- What has come to the same goes on in both loops or in none. -/
theorem SameRound.pc_eq {v₁ v₂ : Running} (h : l.SameRound s₁ s₂ (.ok .next v₁) (.ok .next v₂)) :
    v₁.frame.pc = v₂.frame.pc := by
  cases h with
  | again pc₁ pc₂ => exact pc₁.trans pc₂.symm
  | ends pc₁ pc₂ => exact pc₁.trans pc₂.symm

theorem SameRound.next_of_next {r₁ : EStateM.Result Failure Running Outcome} {v₂ : Running}
    (h : l.SameRound s₁ s₂ r₁ (.ok .next v₂)) : ∃ v₁, r₁ = .ok .next v₁ := by
  cases h <;> exact ⟨_, rfl⟩

theorem SameRound.symm {r₁ r₂ : EStateM.Result Failure Running Outcome}
    (h : l.SameRound s₁ s₂ r₁ r₂) : l.SameRound s₂ s₁ r₂ r₁ := by
  cases h with
  | again pc₁ pc₂ tuple control => exact .again pc₂ pc₁ tuple.symm control.symm
  | ends pc₁ pc₂ control₁ control₂ => exact .ends pc₂ pc₁ control₂ control₁
  | raised f current₁ current₂ => exact .raised f current₂ current₁
  | left values r₁ r₂ => exact .left values r₂ r₁

/-- When one of two loops that have come to the same makes no further round, nor does the other. -/
theorem le_of_ends {n₁ n₂ : Nat} {run₁ run₂ : Nat → Running} (h₂ : l.Rounds n₂ run₂)
    (hends : l.Ends (run₁ n₁))
    (hsame : n₁ ≤ n₂ → ∃ r₁ r₂, (run₁ n₁).machine.roundResult? = some r₁ ∧
      (run₂ n₁).machine.roundResult? = some r₂ ∧ l.SameRound (run₁ n₁) (run₂ n₁) r₁ r₂) :
    n₂ ≤ n₁ := by
  by_contra hlt
  obtain ⟨r₁, r₂, hr₁, hr₂, hsame⟩ := hsame (by omega)
  obtain ⟨v₂, hv₂, hgoes, -⟩ := h₂.goes n₁ (by omega)
  obtain rfl := Option.some.inj (hr₂.symm.trans hv₂)
  obtain ⟨v₁, rfl⟩ := hsame.next_of_next
  exact hgoes (hsame.pc_eq ▸ hends v₁ hr₁)

/-- The two ways to iterate over a table agree.  One loop is driven by the function `next` from nil
on, the other by the traversal that was installed for it; their bodies leave the registers of the
loops alone and change the table alike.  Then after each round both loops come to the same: they go
on with the same values and the same control value, or end behind the loop, or raise the same fault;
and neither makes more rounds than the other. -/
theorem ways_agree (l : GenericLoop) (harity : 0 < l.arity) {t : TableId} {n₁ n₂ : Nat}
    {run₁ run₂ : Nat → Running} {p : Running} (h₁ : l.Rounds n₁ run₁) (h₂ : l.Rounds n₂ run₂)
    (hstart₁ : l.ByFunction t .nil (run₁ 0)) (hstart₂ : l.Prepares t p (run₂ 0))
    (halike : ∀ j, j ≤ n₁ → j ≤ n₂ → l.Alike t (run₁ j) (run₂ j)) :
    (∀ j, j ≤ n₁ → j ≤ n₂ → l.Agree j (run₁ j) (run₂ j)) ∧
      (l.Ends (run₁ n₁) → n₂ ≤ n₁) ∧ (l.Ends (run₂ n₂) → n₁ ≤ n₂) := by
  obtain ⟨i, hat⟩ := h₂.at_ 0 (Nat.zero_le _)
  have hagree : ∀ {j}, j ≤ n₁ → j ≤ n₂ → l.Agree j (run₁ j) (run₂ j) :=
    fun hj₁ hj₂ => agree h₁ h₂ hstart₁ (hstart₂.byTraversal hat) harity halike hj₁ hj₂
  refine ⟨fun j hj₁ hj₂ => hagree hj₁ hj₂, fun hends => ?_, fun hends => ?_⟩
  · exact le_of_ends h₂ hends fun hle => (hagree (le_refl _) hle).round
  · refine le_of_ends h₁ hends fun hle => ?_
    obtain ⟨r₁, r₂, hr₁, hr₂, hsame⟩ := (hagree hle (le_refl _)).round
    exact ⟨r₂, r₁, hr₂, hr₁, hsame.symm⟩

/-! ## Loops without hooks -/

theorem Alike.of_quiet (hquiet₁ : s₁.vm.settings.Quiet) (hquiet₂ : s₂.vm.settings.Quiet)
    (size : s₁.frame.registers.size = s₂.frame.registers.size)
    (limit : s₁.vm.settings.maxRegisters = s₂.vm.settings.maxRegisters)
    (made : ∃ history, s₁.world.heap.table t = Table.empty.run history)
    (same : s₁.world.heap.table t = s₂.world.heap.table t) : l.Alike t s₁ s₂ := by
  refine ⟨size, limit, fun i₁ i₂ _ _ => ?_⟩
  rw [Effect.beforeLoop_of_quiet hquiet₁, Effect.beforeLoop_of_quiet hquiet₂]
  exact .pass made same

/-- The instruction that prepares the loop of `pairWorld`. -/
def pairPrep : Instruction :=
  { opcode := .genericPrep, underlying := .genericPrep, word := 0, operands := {}, aux := 0 }

/-- The instruction that continues the loop of `pairWorld`. -/
def pairNext : Instruction :=
  { opcode := .genericLoop, underlying := .genericLoop, word := 0, operands := { d := -1 }, aux := 2
    constant := .number 2 }

/-- A world with the function `next`, a table with one pair, and a machine whose code is a loop with
an empty body. -/
def pairWorld : World :=
  { heap := { tables := #[Table.empty.run [.setField (.ofString "k") (.boolean true)]] }
    functions := #[.native (.ofString "next") Library.next]
    vms := #[{ module := { version := 6, typesVersion := 1, strings := [], main := 0
                           prototypes := #[{ Prototype.empty with
                             code := #[.instruction pairPrep, .instruction pairNext, .aux 2] }] }
               environment := none, settings := {} }] }

/-- A call in `pairWorld`, with the first two registers of the loop. -/
def pairFrame (iterated state : Value) (pc : Nat) (iterators : List (Nat × Bridge)) : Running :=
  { world := pairWorld, stack := []
    frame := { id := ⟨0⟩, captured := [], registers := #[iterated, state, .nil, .nil, .nil]
               vm := ⟨0⟩, prototype := 0, upvalues := #[], varargs := [], pc, iterators } }

/-- The loop in the code of `pairWorld`. -/
def pairLoop : GenericLoop := { slot := 1, base := 0, arity := 2, distance := -1 }

theorem next_pairWorld :
    pairWorld.heap.next ⟨0⟩ .nil = .ok (some (.string (.ofString "k"), .boolean true)) := by
  have htable : Table.empty.run [.setField (.ofString "k") (.boolean true)] =
      Table.empty.append (.string (.ofString "k")) (.boolean true) := by
    simp [Table.run, Table.after, Table.Operation.apply, Table.setField, Table.store,
      Table.storeEntry, Table.entryPosition?, Value.position?, Value.isNil, Table.isSparse,
      Table.empty, Key.ofValue?]
  show (Table.empty.run [.setField (.ofString "k") (.boolean true)]).next .nil = _
  rw [htable]
  simp [Table.next, Table.firstFrom?, Table.firstEntry?, Table.findFrom?, Table.append, Table.empty,
    Value.isNil]

theorem prepares_pairLoop : pairLoop.Prepares ⟨0⟩ (pairFrame (.table ⟨0⟩) .nil 0 [])
    (pairFrame (.table ⟨0⟩) .nil 1 [(1, { table := ⟨0⟩, arity := 2 })]) where
  next := ⟨pairPrep, rfl, rfl, rfl⟩
  iterated := rfl
  general := ⟨_, rfl, rfl⟩
  step := by rfl

theorem quiet_pairWorld {f : Frame} (hvm : f.vm = ⟨0⟩) :
    (Running.mk pairWorld f []).vm.settings.Quiet := by
  unfold Running.vm
  simp only [hvm]
  exact ⟨rfl, rfl, rfl, rfl⟩

/-- A round of either loop in `pairWorld` is one of the pair, and leads back to the loop at once. -/
theorem rounds_pairLoop {s : Running} {f : Frame} (hat : pairLoop.At s pairNext)
    (hresult : s.machine.roundResult? = some (.ok .next ⟨pairWorld, f, []⟩))
    (hat' : pairLoop.At ⟨pairWorld, f, []⟩ pairNext) :
    pairLoop.Rounds 1 fun j => if j = 0 then s else ⟨pairWorld, f, []⟩ where
  at_ j hj := by
    split
    · exact ⟨_, hat⟩
    · exact ⟨_, hat'⟩
  goes j hj := by
    obtain rfl : j = 0 := by omega
    refine ⟨_, hresult, ?_, ⟨0, rfl⟩, rfl, rfl, fun _ _ => rfl, rfl⟩
    rw [hat'.slot]
    decide

theorem ways_agree_in_pairWorld : ∃ run₁ run₂ : Nat → Running,
    pairLoop.Rounds 1 run₁ ∧ pairLoop.Rounds 1 run₂ ∧
      (run₁ 1).frame.register 2 = .string (.ofString "k") ∧
      ∀ j ≤ 1, pairLoop.Agree j (run₁ j) (run₂ j) := by
  let s₁ := pairFrame (.function ⟨0⟩) (.table ⟨0⟩) 1 []
  let s₂ := pairFrame (.table ⟨0⟩) .nil 1 [(1, { table := ⟨0⟩, arity := 2 })]
  have hat₁ : pairLoop.At s₁ pairNext := ⟨rfl, rfl, rfl, rfl, rfl, rfl⟩
  have hat₂ : pairLoop.At s₂ pairNext := ⟨rfl, rfl, rfl, rfl, rfl, rfl⟩
  have hby₁ : pairLoop.ByFunction ⟨0⟩ .nil s₁ := ⟨⟨⟨0⟩, .ofString "next", rfl, rfl⟩, rfl, rfl⟩
  have hby₂ : pairLoop.ByTraversal ⟨0⟩ .nil s₂ := prepares_pairLoop.byTraversal hat₂
  have hready₁ : pairLoop.Ready s₁ pairNext s₁.advanced s₁.advanced.frame :=
    ⟨hat₁, Effect.beforeLoop_of_quiet (quiet_pairWorld rfl) _, rfl⟩
  have hready₂ : pairLoop.Ready s₂ pairNext s₂.advanced s₂.advanced.frame :=
    ⟨hat₂, Effect.beforeLoop_of_quiet (quiet_pairWorld rfl) _, rfl⟩
  have hround₁ := hby₁.round_of_pair hready₁ (by decide) (by simp) next_pairWorld
  obtain ⟨b, -, hround₂⟩ := hby₂.round_of_pair hready₂ (by decide) next_pairWorld
  have hrounds₁ := rounds_pairLoop hat₁ hround₁ ⟨rfl, rfl, rfl, rfl, rfl, rfl⟩
  have hrounds₂ := rounds_pairLoop hat₂ hround₂ ⟨rfl, rfl, rfl, rfl, rfl, rfl⟩
  refine ⟨_, _, hrounds₁, hrounds₂, rfl, fun j hj => ?_⟩
  refine (ways_agree pairLoop (by decide) hrounds₁ hrounds₂ hby₁ prepares_pairLoop ?_).1 j hj hj
  intro j _ _
  have hmade : ∃ history, pairWorld.heap.table ⟨0⟩ = Table.empty.run history := ⟨_, rfl⟩
  split
  · exact .of_quiet (quiet_pairWorld rfl) (quiet_pairWorld rfl) rfl rfl hmade rfl
  · exact .of_quiet (quiet_pairWorld rfl) (quiet_pairWorld rfl) rfl rfl hmade rfl

end GenericLoop

end ScriptMachine
