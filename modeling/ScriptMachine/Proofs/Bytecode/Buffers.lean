import Mathlib
import ScriptMachine.Proofs.Bytecode.Blocks

/-!
# Reading in a buffer

A cursor stands at a position of a buffer and offers reads of bytes, numbers of a fixed and of a
variable size, and strings.  Each read has a format: it takes a word of the format that begins where
it stands, whatever stands before and behind the word, and it fails exactly when the buffer ends in
the middle of one.  Either way it stays in the buffer and does not go back.

A number of a variable size is read back wherever it was written.  Writings that are longer than
they need be are read as well, so that the opposite holds up to the length: what is written anew is
never longer than what was read.
-/

namespace ScriptMachine

/-! ## Cursors in a buffer -/

namespace Cursor

variable {buffer front bytes back : Bytes} {position : Nat} {c c' : Cursor}

/-- The cursor at a position of a buffer. -/
def inside (buffer : Bytes) (position : Nat) : Cursor := ⟨position, buffer.drop position⟩

theorem size_inside (h : position ≤ buffer.length) : (inside buffer position).size = buffer.length := by
  rw [size, inside, List.length_drop]
  exact Nat.add_sub_of_le h

theorem inside_append : inside (front ++ bytes) front.length = ⟨front.length, bytes⟩ := by
  rw [inside, List.drop_left]

theorem Spans.size_eq (h : c.Spans bytes c') : c'.size = c.size := by
  rw [size, size, h.rest, h.position, List.length_append, Nat.add_assoc]

/-- A later cursor of the same bytes is inside the same buffer. -/
theorem Spans.eq_inside (h : (inside buffer position).Spans bytes c') :
    c' = inside buffer (position + bytes.length) := by
  obtain ⟨hrest, hposition⟩ := h
  have hback : buffer.drop (position + bytes.length) = c'.rest := by
    rw [← List.drop_drop]
    exact (congrArg (List.drop bytes.length) hrest).trans List.drop_left
  rw [inside, hback]
  exact congrArg (fun p => (⟨p, c'.rest⟩ : Cursor)) hposition

/-- The bytes that are spanned are those between the two positions. -/
theorem Spans.between (h : (inside buffer position).Spans bytes c') :
    (buffer.take (position + bytes.length)).drop position = bytes := by
  have hrest : buffer.drop position = bytes ++ c'.rest := h.rest
  rw [List.drop_take, Nat.add_sub_cancel_left, hrest, List.take_left]

theorem Spans.length_le (h : (inside buffer position).Spans bytes c')
    (hposition : position ≤ buffer.length) : position + bytes.length ≤ buffer.length := by
  have hrest : buffer.drop position = bytes ++ c'.rest := h.rest
  have hlength := congrArg List.length hrest
  rw [List.length_drop, List.length_append] at hlength
  omega

end Cursor

namespace Reader

/-! ## Readers that run past the end -/

/-- A read that has run past the end of its bytes: it stands where some are missing, and those that
there were at the start are the beginning of a longer word of the format. -/
structure Lacks (L : Language UInt8) (c : Cursor) (e : LoadError) (c' : Cursor) : Prop where
  /-- Some of the bytes may have been taken, and none given back. -/
  spans : ∃ bytes, c.Spans bytes c'
  /-- The error tells how many are needed, where, and how many there are in all. -/
  error : ∃ count, e = .corrupt (.overrun count c'.position c'.size) ∧ c'.remaining < count
  /-- More bytes would have made a word. -/
  unfinished : ∃ more ≠ [], c.rest ++ more ∈ L

/-- The reader fails for lack of bytes only. -/
def Overruns {α : Type} (r : Reader α) (L : Language UInt8) : Prop :=
  ∀ c e c', r c = .error e c' → Lacks L c e c'

section Sequence

variable {α β : Type} {r : Reader α} {f : α → Reader β} {L L' : Language UInt8}
  {F G : α → Language UInt8} {a : α} {c c' : Cursor} {e : LoadError}

theorem Overruns.mono (h : Overruns r L) (hL : L ≤ L') : Overruns r L' := by
  intro c e c' hrun
  obtain ⟨hspans, herror, more, hmore, hword⟩ := h c e c' hrun
  exact ⟨hspans, herror, more, hmore, hL hword⟩

theorem overruns_pure (a : α) : Overruns (pure a : Reader α) L := fun _ _ _ hrun => nomatch hrun

/-- A sequence fails in one of its steps. -/
theorem error_bind (h : (r >>= f) c = .error e c') :
    r c = .error e c' ∨ ∃ a c₁, r c = .ok a c₁ ∧ f a c₁ = .error e c' := by
  change EStateM.bind r f c = _ at h
  rw [EStateM.bind] at h
  split at h
  · rename_i a c₁ hr
    exact .inr ⟨a, c₁, hr, h⟩
  · rename_i e' c₁ hr
    cases h
    exact .inl hr

/-- What a step has left unfinished can be finished, with a word for the next step behind it. -/
theorem Overruns.bind (h : Accepts r F) (hr : Overruns r (⨆ a, F a))
    (hf : ∀ a, Overruns (f a) (G a)) (hword : ∀ a, ∃ word, word ∈ G a) :
    Overruns (r >>= f) (⨆ a, F a * G a) := by
  intro c e c' hrun
  rcases error_bind hrun with hfirst | ⟨a, c₁, hfirst, hsecond⟩
  · obtain ⟨hspans, herror, more, hmore, hfinished⟩ := hr c e c' hfirst
    obtain ⟨a, ha⟩ := Language.mem_iSup.1 hfinished
    obtain ⟨word, hword⟩ := hword a
    refine ⟨hspans, herror, more ++ word, List.append_ne_nil_of_left_ne_nil hmore word, ?_⟩
    rw [← List.append_assoc]
    exact Language.mem_iSup.2 ⟨a, Language.append_mem_mul ha hword⟩
  · obtain ⟨first, hmem, hspans⟩ := h.ensures c a c₁ hfirst
    obtain ⟨⟨others, hspans'⟩, herror, more, hmore, hfinished⟩ := hf a c₁ e c' hsecond
    refine ⟨⟨_, hspans.trans hspans'⟩, herror, more, hmore, ?_⟩
    rw [hspans.rest, List.append_assoc]
    exact Language.mem_iSup.2 ⟨a, Language.append_mem_mul hmem hfinished⟩

theorem Overruns.map (h : Overruns r L) (g : α → β) : Overruns (do return g (← r)) L := by
  intro c e c' hrun
  rcases error_bind hrun with hfirst | ⟨a, c₁, -, hpure⟩
  · exact h c e c' hfirst
  · cases hpure

/-- A reader that takes a word does not fail, and one that fails has no word to take: no word of a
format is the beginning of another one. -/
theorem Passes.error_iff (h : Passes r L) (hr : Overruns r L) (c : Cursor) :
    (∃ e c', r c = .error e c') ↔ ∃ more ≠ [], c.rest ++ more ∈ L := by
  constructor
  · rintro ⟨e, c', hrun⟩
    exact (hr c e c' hrun).unfinished
  · rintro ⟨more, hmore, hword⟩
    cases hrun : r c with
    | error e c' => exact ⟨e, c', rfl⟩
    | ok a c' =>
      obtain ⟨bytes, hbytes, hspans⟩ := h.ensures c a c' hrun
      obtain ⟨_, hshort⟩ := h.reads hbytes
      obtain ⟨_, hlong⟩ := h.reads hword
      have hwhole : bytes ++ (c'.rest ++ more) = c.rest ++ more ++ [] := by
        rw [List.append_nil, hspans.rest, List.append_assoc]
      -- on the longer word the reader would have to stop at the end of either
      have hend := hshort 0 (c'.rest ++ more)
      rw [hwhole, hlong 0 []] at hend
      have hposition : 0 + (c.rest ++ more).length = 0 + bytes.length :=
        congrArg Cursor.position (EStateM.Result.ok.inj hend).2
      have hmore := List.length_pos_iff.2 hmore
      rw [hspans.rest, List.length_append, List.length_append] at hposition
      omega

end Sequence

/-! ## Bytes and numbers that break off -/

theorem lacks_here {L : Language UInt8} {c : Cursor} {count : Nat} (hcount : c.remaining < count)
    (hmore : ∃ more ≠ [], c.rest ++ more ∈ L) :
    Lacks L c (.corrupt (.overrun count c.position c.size)) c :=
  ⟨⟨[], .refl c⟩, ⟨count, rfl, hcount⟩, hmore⟩

theorem overruns_byte : Overruns byte Format.anyByte := by
  rintro ⟨position, rest⟩ e c' hrun
  cases rest with
  | nil =>
    cases hrun
    exact lacks_here Nat.one_pos ⟨[0], List.cons_ne_nil _ _, rfl⟩
  | cons b rest => cases hrun

theorem overruns_take (n : Nat) : Overruns (take n) (Format.anyByte ^ n) := by
  rintro c e c' hrun
  rw [take] at hrun
  split at hrun
  · cases hrun
  · rename_i hsplit
    cases hrun
    have hlt : c.rest.length < n := length_lt_of_split?_none hsplit
    refine lacks_here hlt ⟨List.replicate (n - c.rest.length) 0, ?_, ?_⟩
    · rw [ne_eq, List.replicate_eq_nil_iff]
      omega
    · rw [mem_anyByte_pow, List.length_append, List.length_replicate]
      omega

/-- Groups are unfinished as long as each says that another one follows. -/
theorem overruns_groups (count shift : Nat) :
    Overruns (groups count shift) {bytes | ∃ n, Groups count bytes n} := by
  induction count generalizing shift with
  | zero => exact overruns_pure 0
  | succ count ih =>
    intro c e c' hrun
    rcases error_bind hrun with hbyte | ⟨b, c₁, hbyte, hothers⟩
    · obtain ⟨hspans, herror, more, hmore, hlength⟩ := overruns_byte c e c' hbyte
      have hnil : c.rest = [] := by
        have : (c.rest ++ more).length = 1 := hlength
        rw [List.length_append] at this
        have := List.length_pos_iff.2 hmore
        exact List.eq_nil_of_length_eq_zero (by omega)
      refine ⟨hspans, herror, [0], List.cons_ne_nil _ _, ?_⟩
      rw [hnil]
      exact ⟨_, .last (by decide)⟩
    · obtain ⟨_, rfl, hspans⟩ := accepts_byte.ensures c b c₁ hbyte
      extract_lets low at hothers
      split at hothers
      · cases hothers
      · rename_i hb
        obtain ⟨⟨bytes, hspans'⟩, herror, more, hmore, n, hgroups⟩ :=
          (ih (shift + 7)).map (low + ·) c₁ e c' hothers
        refine ⟨⟨_, hspans.trans hspans'⟩, herror, more, hmore, ?_⟩
        rw [hspans.rest, List.append_assoc]
        exact ⟨_, .more hb hgroups⟩

theorem overruns_varint : Overruns varint Format.number := by
  have hgroups : Overruns (groups 5 0) Format.number := by
    refine (overruns_groups 5 0).mono ?_
    rintro bytes ⟨n, hn⟩
    exact Language.mem_iSup.2 ⟨n % 2 ^ 32, n, hn, rfl⟩
  exact hgroups.map _

/-! ## The reads of a cursor -/

/-- The reads that a cursor offers, each with the format of the bytes that it needs. -/
inductive Primitive : {α : Type} → Reader α → Language UInt8 → Prop where
  /-- A byte. -/
  | byte : Primitive byte Format.anyByte
  /-- A word. -/
  | word : Primitive word (Format.anyByte ^ 4)
  /-- A single. -/
  | single : Primitive single (Format.anyByte ^ 4)
  /-- A double. -/
  | double : Primitive double (Format.anyByte ^ 8)
  /-- A number of a variable size. -/
  | varint : Primitive varint Format.number
  /-- A string: a number and as many bytes. -/
  | string : Primitive string (Format.counted Format.anyByte)
  /-- Bytes that are passed over. -/
  | skip (n : Nat) : Primitive (skip n) (Format.anyByte ^ n)

namespace Primitive

variable {α : Type} {r : Reader α} {L : Language UInt8}

theorem passes (h : Primitive r L) : Passes r L := by
  cases h with
  | byte => exact passes_byte
  | word => exact (passes_take 4).map _
  | single => exact ((passes_take 4).map _).map _
  | double => exact (passes_take 8).map _
  | varint => exact accepts_varint.passes
  | string => exact accepts_varint.bind passes_take
  | skip n => exact (passes_take n).map _

theorem overruns (h : Primitive r L) : Overruns r L := by
  cases h with
  | byte => exact overruns_byte
  | word => exact (overruns_take 4).map _
  | single => exact ((overruns_take 4).map _).map _
  | double => exact (overruns_take 8).map _
  | varint => exact overruns_varint
  | string =>
    refine overruns_varint.bind accepts_varint overruns_take fun n => ⟨List.replicate n 0, ?_⟩
    rw [mem_anyByte_pow, List.length_replicate]
  | skip n => exact (overruns_take n).map _

theorem exact (h : Primitive r L) : Exact r := by
  cases h with
  | byte => exact modular_exact.byte
  | word => exact modular_exact.word
  | single => exact modular_exact.single
  | double => exact modular_exact.double
  | varint => exact modular_exact.varint
  | string => exact modular_exact.string
  | skip n => exact modular_exact.skip n

end Primitive

/-! ## The length of a number -/

theorem Groups.lt {count : Nat} {bytes : Bytes} {n : Nat} (h : Groups count bytes n) :
    n < 2 ^ (7 * bytes.length) := by
  induction h with
  | none => exact Nat.one_pos
  | last hb => exact UInt8.lt_iff_toNat_lt.1 hb
  | @more count b bytes n hb _ ih =>
    have hlow : b.toNat % 128 < 128 := Nat.mod_lt _ (by decide)
    have hpow : 2 ^ (7 * (b :: bytes).length) = 128 * 2 ^ (7 * bytes.length) := by
      rw [List.length_cons, Nat.mul_succ, Nat.add_comm, pow_add]
      norm_num
    omega

theorem Groups.length_pos {count : Nat} {bytes : Bytes} {n : Nat} (h : Groups count bytes n)
    (hcount : 0 < count) : 0 < bytes.length := by
  cases h with
  | none => exact absurd hcount (Nat.lt_irrefl 0)
  | last => exact Nat.one_pos
  | more => exact Nat.succ_pos _

theorem length_varint_pos (n : Nat) : 0 < (Encode.varint n).length := by
  rw [Encode.varint]
  split <;> exact Nat.succ_pos _

/-- A number is written in as few groups as its bits need. -/
theorem length_varint_le {k : Nat} (hk : 0 < k) :
    ∀ {n : Nat}, n < 2 ^ (7 * k) → (Encode.varint n).length ≤ k := by
  induction k, hk using Nat.le_induction with
  | base =>
    intro n hn
    rw [Encode.varint, if_pos hn]
    exact le_rfl
  | succ k hk ih =>
    intro n hn
    rw [Encode.varint]
    split
    · exact Nat.succ_le_succ (Nat.zero_le k)
    · rw [Nat.mul_succ, Nat.add_comm, pow_add] at hn
      exact Nat.succ_le_succ (ih (Nat.div_lt_of_lt_mul hn))

/-- What is written anew is no longer than what was read. -/
theorem length_varint_le_of_mem {bytes : Bytes} {n : Nat} (h : bytes ∈ Format.numberOf n) :
    (Encode.varint n).length ≤ bytes.length := by
  obtain ⟨m, hgroups, rfl⟩ := h
  have hle : m % 2 ^ 32 ≤ m := Nat.mod_le m _
  exact length_varint_le (hgroups.length_pos (by decide)) (hle.trans_lt hgroups.lt)

/-! ## Reads at a position -/

section Buffer

variable {α : Type} {r : Reader α} {L : Language UInt8} {buffer bytes : Bytes} {position : Nat}
  {a : α}

theorem Reads.inside (h : Reads r bytes a) (front back : Bytes) :
    r (.inside (front ++ bytes ++ back) front.length) =
      .ok a (.inside (front ++ bytes ++ back) (front.length + bytes.length)) := by
  have hend : Cursor.inside (front ++ bytes ++ back) (front.length + bytes.length) =
      ⟨front.length + bytes.length, back⟩ := by
    rw [← List.length_append, Cursor.inside_append]
  rw [hend, List.append_assoc, Cursor.inside_append]
  exact h front.length back

/-- A read at a position of a buffer ends at a later one.  When it succeeds, it would have given the
same for any buffer with the same bytes between the two positions; when it fails, it is for lack of
bytes behind the second. -/
theorem Primitive.read_inside (h : Primitive r L) (hposition : position ≤ buffer.length) :
    ∃ position', position ≤ position' ∧ position' ≤ buffer.length ∧
      ((∃ a, r (.inside buffer position) = .ok a (.inside buffer position') ∧
          Reads r ((buffer.take position').drop position) a) ∨
        ∃ count, r (.inside buffer position) =
            .error (.corrupt (.overrun count position' buffer.length)) (.inside buffer position') ∧
          buffer.length < position' + count) := by
  cases hrun : r (.inside buffer position) with
  | ok a c' =>
    obtain ⟨bytes, hreads, hspans⟩ := h.exact.ensures _ a c' hrun
    refine ⟨position + bytes.length, Nat.le_add_right _ _, hspans.length_le hposition,
      .inl ⟨a, by rw [← hspans.eq_inside], ?_⟩⟩
    rw [hspans.between]
    exact hreads
  | error e c' =>
    obtain ⟨⟨bytes, hspans⟩, ⟨count, rfl, hcount⟩, -⟩ := h.overruns _ e c' hrun
    have hsize : c'.size = buffer.length := hspans.size_eq.trans (Cursor.size_inside hposition)
    refine ⟨position + bytes.length, Nat.le_add_right _ _, hspans.length_le hposition,
      .inr ⟨count, ?_, ?_⟩⟩
    · rw [hsize, hspans.position, ← hspans.eq_inside]
      rfl
    · rw [← hsize, Cursor.size, hspans.position]
      exact Nat.add_lt_add_left hcount _

end Buffer

/-- Reads keep to their formats.  A number below 2^32 that stands anywhere in a buffer is read back
there, and the cursor goes on by the one to five bytes of it.  Any read at a position of any buffer
ends at a later position of the buffer.  A result comes from the bytes between the two positions
alone: the read gives it wherever these bytes stand and whatever follows them.  A failure tells of
more bytes at the second position than there are, and it comes exactly where the bytes that are
left are the beginning of a longer word of the format.  A number that was read is written anew in
no more bytes than it was read from. -/
theorem reads_keep_to_formats :
    (∀ n < 2 ^ 32, ∀ front back : Bytes,
      varint (.inside (front ++ Encode.varint n ++ back) front.length) =
          .ok n (.inside (front ++ Encode.varint n ++ back)
            (front.length + (Encode.varint n).length)) ∧
        1 ≤ (Encode.varint n).length ∧ (Encode.varint n).length ≤ 5) ∧
    (∀ {α : Type} {r : Reader α} {L : Language UInt8}, Primitive r L →
      ∀ buffer position, position ≤ buffer.length →
        (∃ position', position ≤ position' ∧ position' ≤ buffer.length ∧
          ((∃ a, r (.inside buffer position) = .ok a (.inside buffer position') ∧
              Reads r ((buffer.take position').drop position) a) ∨
            ∃ count, r (.inside buffer position) =
                .error (.corrupt (.overrun count position' buffer.length))
                  (.inside buffer position') ∧
              buffer.length < position' + count)) ∧
        ((∃ e c', r (.inside buffer position) = .error e c') ↔
          ∃ more ≠ [], buffer.drop position ++ more ∈ L)) ∧
    ∀ buffer position n c', varint (.inside buffer position) = .ok n c' →
      (Encode.varint n).length ≤ c'.position - position := by
  refine ⟨fun n hn front back => ⟨(reads_varint hn).inside front back, length_varint_pos n, ?_⟩,
    fun h buffer position hposition =>
      ⟨h.read_inside hposition, h.passes.error_iff h.overruns _⟩, ?_⟩
  · exact length_varint_le (by decide) (hn.trans (by decide))
  · intro buffer position n c' hrun
    obtain ⟨bytes, hbytes, hspans⟩ := accepts_varint.ensures _ n c' hrun
    have hposition : c'.position = position + bytes.length := hspans.position
    rw [hposition, Nat.add_sub_cancel_left]
    exact length_varint_le_of_mem hbytes

/-- Five is written in one byte and read from three, of which two are not needed; a string that
begins there lacks four of its five bytes. -/
theorem reads_keep_to_formats_of_padded_number :
    let buffer : Bytes := [7, 0x85, 0x80, 0x00, 9]
    varint (.inside buffer 1) = .ok 5 (.inside buffer 4) ∧ (Encode.varint 5).length ≤ 4 - 1 ∧
      string (.inside buffer 1) = .error (.corrupt (.overrun 5 4 5)) (.inside buffer 4) ∧
      ∃ more ≠ [], buffer.drop 1 ++ more ∈ Format.counted Format.anyByte := by
  intro buffer
  obtain ⟨-, hreads, hlength⟩ := reads_keep_to_formats
  have hnumber : varint (.inside buffer 1) = .ok 5 (.inside buffer 4) := rfl
  have hstring : string (.inside buffer 1) =
      .error (.corrupt (.overrun 5 4 5)) (.inside buffer 4) := bind_of_ok hnumber
  exact ⟨hnumber, hlength buffer 1 5 _ hnumber, hstring,
    (hreads .string buffer 1 (by decide)).2.1 ⟨_, _, hstring⟩⟩

end Reader

end ScriptMachine
