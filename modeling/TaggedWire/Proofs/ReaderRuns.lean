import Mathlib.Logic.Function.Basic
import TaggedWire.Proofs.Ranges

/-!
# Runs of reads

Any number of cursors over one string are considered at once, numbered from zero on and all at the
start. A command reads from one of them or makes one a copy of another, which is how a position is
saved and restored. `Cursor.trace` performs commands one after the other, whatever fails on the way,
and records what each returned and where the cursors stood before and after it. Positions stay in
the string, sizes stay in range, and a primitive read moves its cursor past what it read or not at
all. A failed one can therefore be left out of a run, and nothing else changes.
-/

namespace TaggedWire

namespace Cursor

/-! ## Operations -/

/-- What one call can read. A slice is a byte string that is not copied. -/
inductive Operation where
  | leaf (k : Primitive)
  | varint
  | slice
  | value (l : Layout)

namespace Operation

@[reducible] def Value : Operation → Type
  | leaf k => k.Value
  | varint => UInt64
  | slice => Bytes
  | value l => l.Value

def read : (op : Operation) → ReadM op.Value
  | leaf k => k.read
  | varint => ReadM.varint
  | slice => ReadM.bytes
  | value l => l.read

/-- The read with sizes that can go out of range. -/
def read? : (op : Operation) → Cursor → Option (ReadM.Result op.Value)
  | leaf (.scalar t), c => ReadM.scalar? t c
  | leaf .text, c => ReadM.text? c
  | leaf .bytes, c => ReadM.bytes? c
  | varint, c => ReadM.varint? c
  | slice, c => ReadM.bytes? c
  | value l, c => l.read? c

/-- The strings that are read as a value. -/
def Form : (op : Operation) → op.Value → Bytes → Prop
  | leaf k => k.Form
  | varint => fun v g ↦ Varint.LengthPrefix v.toNat g
  | slice => Primitive.bytes.Form
  | value l => l.WireForm

/-- Whether the operation reads one leaf or one varint, directly or as a layout. -/
def isPrimitive : Operation → Bool
  | value (.record _) => false
  | value (.message _ _) => false
  | _ => true

theorem accepts_read (op : Operation) : ReadM.Accepts op.read op.Form := by
  cases op with
  | leaf k => exact k.accepts_read
  | varint => exact ReadM.accepts_varint
  | slice => exact ReadM.accepts_bytes
  | value l => exact l.accepts_read

theorem read?_eq_some (op : Operation) {c : Cursor} (hc : c.InRange) :
    op.read? c = some (op.read c) := by
  cases op with
  | leaf k =>
      cases k with
      | scalar t => exact ReadM.scalar?_eq_some hc t
      | text => exact ReadM.text?_eq_some hc
      | bytes => exact ReadM.bytes?_eq_some hc
  | varint => exact ReadM.varint?_eq_some hc
  | slice => exact ReadM.bytes?_eq_some hc
  | value l => exact l.read?_eq_some hc

theorem stable_read (op : Operation) : ReadM.Stable op.read := by
  cases op with
  | leaf k => exact k.stable_read
  | varint => exact ReadM.stable_varint
  | slice => exact ReadM.stable_bytes
  | value l => exact l.stable_read

theorem read_error {op : Operation} (hop : op.isPrimitive) {c c' : Cursor} {e : Fault}
    (h : op.read c = .error e c') : c' = c := by
  cases op with
  | leaf k => exact k.read_error h
  | varint => exact (ReadM.varint_error h).1
  | slice => exact (ReadM.bytes_error h).1
  | value l =>
      cases l with
      | scalar t => exact (ReadM.scalar_error h).2
      | text => exact (ReadM.text_error h).1
      | bytes => exact (ReadM.bytes_error h).1
      | record fs => cases hop
      | message tag fs => cases hop

theorem Form.length_pos {op : Operation} (hop : op.isPrimitive) {v : op.Value} {g : Bytes}
    (h : op.Form v g) : 0 < g.length := by
  cases op with
  | leaf k => exact Primitive.Form.length_pos h
  | varint => exact Varint.LengthPrefix.length_pos h
  | slice => exact Primitive.Form.length_pos (k := .bytes) h
  | value l =>
      cases l with
      | scalar t =>
          exact Primitive.Form.length_pos (k := .scalar t) (Layout.wireForm_scalar_iff.mp h)
      | text => exact Primitive.Form.length_pos (k := .text) (Layout.wireForm_text_iff.mp h)
      | bytes => exact Primitive.Form.length_pos (k := .bytes) (Layout.wireForm_bytes_iff.mp h)
      | record fs => cases hop
      | message tag fs => cases hop

end Operation

/-! ## Commands and their traces -/

/-- The cursors by number. -/
abbrev Readers := Nat → Cursor

inductive Command where
  | read (i : Nat) (op : Operation)
  /-- The first cursor becomes a copy of the second. -/
  | copy (i j : Nat)

/-- A command that was performed, what it returned and the cursors before and after it. -/
inductive Step where
  | read (i : Nat) (op : Operation) (reply : Except Fault op.Value) (before after : Readers)
  | copy (i j : Nat) (before after : Readers)

namespace Step

def command : Step → Command
  | read i op _ _ _ => .read i op
  | copy i j _ _ => .copy i j

def before : Step → Readers
  | read _ _ _ before _ => before
  | copy _ _ before _ => before

def after : Step → Readers
  | read _ _ _ _ after => after
  | copy _ _ _ after => after

def isFailedPrimitive : Step → Bool
  | read _ op (.error _) _ _ => op.isPrimitive
  | _ => false

def ofResult (i : Nat) (op : Operation) (rs : Readers) : ReadM.Result op.Value → Step
  | .ok v c => read i op (.ok v) rs (Function.update rs i c)
  | .error e c => read i op (.error e) rs (Function.update rs i c)

end Step

namespace Command

def step : Command → Readers → Step
  | read i op, rs => .ofResult i op rs (op.read (rs i))
  | copy i j, rs => .copy i j rs (Function.update rs i (rs j))

/-- The step with sizes that can go out of range. -/
def step? : Command → Readers → Option Step
  | read i op, rs => (op.read? (rs i)).map (.ofResult i op rs)
  | copy i j, rs => some (.copy i j rs (Function.update rs i (rs j)))

end Command

def trace : Readers → List Command → List Step
  | _, [] => []
  | rs, cmd :: cmds => cmd.step rs :: trace (cmd.step rs).after cmds

@[inherit_doc Command.step?]
def trace? : Readers → List Command → Option (List Step)
  | _, [] => some []
  | rs, cmd :: cmds => do
      let σ ← cmd.step? rs
      return σ :: (← trace? σ.after cmds)

/-! ## One step -/

/-- All cursors stand in the string `b`. -/
def Over (b : Bytes) (rs : Readers) : Prop := ∀ i, (rs i).buffer = b ∧ (rs i).Inside

theorem Over.update {b : Bytes} {rs : Readers} (h : Over b rs) (i : Nat) {c : Cursor}
    (hc : c.buffer = b ∧ c.Inside) : Over b (Function.update rs i c) := by
  intro j
  by_cases hij : j = i
  · rw [hij, Function.update_self]
    exact hc
  · rw [Function.update_of_ne hij]
    exact h j

theorem Over.inRange {b : Bytes} {rs : Readers} (h : Over b rs) (hb : b.length ≤ Size.largest)
    (i : Nat) : (rs i).InRange := by
  refine ⟨(h i).2, ?_⟩
  rw [(h i).1]
  exact hb

namespace Command

variable {cmd : Command} {rs : Readers}

@[simp] theorem command_step (cmd : Command) (rs : Readers) : (cmd.step rs).command = cmd := by
  cases cmd with
  | read i op =>
      rw [step]
      cases op.read (rs i) <;> rfl
  | copy i j => rfl

@[simp] theorem before_step (cmd : Command) (rs : Readers) : (cmd.step rs).before = rs := by
  cases cmd with
  | read i op =>
      rw [step]
      cases op.read (rs i) <;> rfl
  | copy i j => rfl

theorem after_step_read (i : Nat) (op : Operation) :
    ((read i op).step rs).after = Function.update rs i (op.read.final (rs i)) := by
  rw [step]
  cases hread : op.read (rs i) with
  | ok v c => rw [ReadM.final_of_ok hread]; rfl
  | error e c => rw [ReadM.final_of_error hread]; rfl

theorem over_after_step {b : Bytes} (h : Over b rs) (cmd : Command) :
    Over b (cmd.step rs).after := by
  cases cmd with
  | read i op =>
      rw [after_step_read]
      obtain ⟨k, hk, hfinal⟩ := op.stable_read.forward (rs i)
      rw [hfinal]
      exact h.update i ⟨(h i).1, (h i).2.advance hk⟩
  | copy i j => exact h.update i (h j)

theorem step?_eq_some {b : Bytes} (h : Over b rs) (hb : b.length ≤ Size.largest)
    (cmd : Command) : cmd.step? rs = some (cmd.step rs) := by
  cases cmd with
  | read i op =>
      rw [step?, op.read?_eq_some (h.inRange hb i)]
      rfl
  | copy i j => rfl

theorem read_of_step_eq {i : Nat} {op : Operation} {r : Except Fault op.Value}
    {before after : Readers} (h : cmd.step rs = .read i op r before after) :
    Step.ofResult i op before (op.read (before i)) = .read i op r before after := by
  have hcommand : cmd = .read i op := by
    rw [← cmd.command_step rs, h]
    rfl
  have hbefore : rs = before := by
    rw [← cmd.before_step rs, h]
    rfl
  rw [hcommand, hbefore] at h
  exact h

theorem read_ok_of_step_eq {i : Nat} {op : Operation} {v : op.Value} {before after : Readers}
    (h : cmd.step rs = .read i op (.ok v) before after) :
    ∃ c, op.read (before i) = .ok v c ∧ after = Function.update before i c := by
  have hresult := read_of_step_eq h
  cases hread : op.read (before i) with
  | ok w c =>
      rw [hread] at hresult
      cases hresult
      exact ⟨c, rfl, rfl⟩
  | error e c =>
      rw [hread] at hresult
      cases hresult

theorem read_error_of_step_eq {i : Nat} {op : Operation} {e : Fault} {before after : Readers}
    (h : cmd.step rs = .read i op (.error e) before after) :
    ∃ c, op.read (before i) = .error e c ∧ after = Function.update before i c := by
  have hresult := read_of_step_eq h
  cases hread : op.read (before i) with
  | ok w c =>
      rw [hread] at hresult
      cases hresult
  | error e' c =>
      rw [hread] at hresult
      cases hresult
      exact ⟨c, rfl, rfl⟩

/-- A read that succeeds moves its cursor past a form of the value and leaves the others alone. -/
theorem exists_form_of_step_eq {i : Nat} {op : Operation} {v : op.Value} {before after : Readers}
    (h : cmd.step rs = .read i op (.ok v) before after) :
    ∃ g, op.Form v g ∧ g <+: (before i).unread ∧ (op.isPrimitive → 1 ≤ g.length) ∧
      after = Function.update before i ((before i).advance g.length) := by
  obtain ⟨c, hread, rfl⟩ := read_ok_of_step_eq h
  obtain ⟨g, hg, hpre, rfl⟩ := (op.accepts_read (before i) v c).mp hread
  refine ⟨g, hg, hpre, ?_, rfl⟩
  intro hop
  exact Operation.Form.length_pos hop hg

theorem after_eq_before_of_step_eq {i : Nat} {op : Operation} {e : Fault} {before after : Readers}
    (hop : op.isPrimitive) (h : cmd.step rs = .read i op (.error e) before after) :
    after = before := by
  obtain ⟨c, hread, rfl⟩ := read_error_of_step_eq h
  rw [Operation.read_error hop hread, Function.update_eq_self]

theorem after_step_of_isFailedPrimitive (h : (cmd.step rs).isFailedPrimitive) :
    (cmd.step rs).after = rs := by
  cases hstep : cmd.step rs with
  | copy i j before after =>
      rw [hstep] at h
      cases h
  | read i op r before after =>
      cases r with
      | ok v =>
          rw [hstep] at h
          cases h
      | error e =>
          have hbefore := cmd.before_step rs
          rw [hstep] at h hbefore
          exact (after_eq_before_of_step_eq h hstep).trans hbefore

end Command

/-! ## Whole runs -/

theorem exists_step_of_mem_trace {b : Bytes} {rs : Readers} (h : Over b rs) {cmds : List Command}
    {σ : Step} (hσ : σ ∈ trace rs cmds) : ∃ rs' cmd, Over b rs' ∧ Command.step cmd rs' = σ := by
  induction cmds generalizing rs with
  | nil => cases hσ
  | cons cmd cmds ih =>
      rw [trace, List.mem_cons] at hσ
      rcases hσ with rfl | hσ
      · exact ⟨rs, cmd, h, rfl⟩
      · exact ih (Command.over_after_step h cmd) hσ

theorem trace?_eq_some {b : Bytes} {rs : Readers} (h : Over b rs) (hb : b.length ≤ Size.largest)
    (cmds : List Command) : trace? rs cmds = some (trace rs cmds) := by
  induction cmds generalizing rs with
  | nil => rfl
  | cons cmd cmds ih =>
      rw [trace?, trace, Command.step?_eq_some h hb, Option.bind_eq_bind, Option.bind_some,
        ih (Command.over_after_step h cmd)]
      rfl

/-- Steps that leave the cursors where they were can be taken out of a run. -/
theorem trace_map_command_filter {keep : Step → Bool}
    (hkeep : ∀ cmd rs, keep (Command.step cmd rs) = false → (Command.step cmd rs).after = rs)
    (rs : Readers) (cmds : List Command) :
    trace rs (((trace rs cmds).filter keep).map Step.command) = (trace rs cmds).filter keep := by
  induction cmds generalizing rs with
  | nil => rfl
  | cons cmd cmds ih =>
      rw [trace]
      cases hcmd : keep (cmd.step rs) with
      | true =>
          rw [List.filter_cons_of_pos hcmd, List.map_cons, Command.command_step, trace, ih]
      | false =>
          have hnot : ¬keep (cmd.step rs) := by simp [hcmd]
          rw [List.filter_cons_of_neg hnot, hkeep cmd rs hcmd, ih]

/-- In every run of reads over one string all positions stay in it and no size leaves its range. A
read that succeeds moves its cursor by exactly the bytes that it read, at least one if it is
primitive, and a primitive read that fails moves nothing. So the failed primitive reads can be left
out: every other step returns what it returned, between the same positions. -/
theorem trace_invariant (b : Bytes) (hb : b.length < 2 ^ 63) (cmds : List Command) :
    let run := trace (fun _ ↦ .ofBytes b) cmds
    (∀ σ ∈ run, ∀ i,
      ((σ.before i).buffer = b ∧ (σ.before i).pos ≤ b.length) ∧
        (σ.after i).buffer = b ∧ (σ.after i).pos ≤ b.length) ∧
    trace? (fun _ ↦ .ofBytes b) cmds = some run ∧
    (∀ i op v before after, Step.read i op (.ok v) before after ∈ run →
      ∃ g, op.Form v g ∧ g <+: (before i).unread ∧ (op.isPrimitive → 1 ≤ g.length) ∧
        after = Function.update before i ((before i).advance g.length)) ∧
    (∀ i op e before after, Step.read i op (.error e) before after ∈ run → op.isPrimitive →
      after = before) ∧
    trace (fun _ ↦ .ofBytes b) ((run.filter fun σ ↦ !σ.isFailedPrimitive).map Step.command) =
      run.filter fun σ ↦ !σ.isFailedPrimitive := by
  intro run
  have hstart : Over b fun _ ↦ .ofBytes b := fun _ ↦ ⟨rfl, inside_ofBytes b⟩
  have hbound : ∀ {rs : Readers}, Over b rs → ∀ i, (rs i).buffer = b ∧ (rs i).pos ≤ b.length := by
    intro rs h i
    obtain ⟨hbuffer, hinside⟩ := h i
    rw [Inside, hbuffer] at hinside
    exact ⟨hbuffer, hinside⟩
  refine ⟨?_, ?_, ?_, ?_, ?_⟩
  · intro σ hσ i
    obtain ⟨rs, cmd, hrs, rfl⟩ := exists_step_of_mem_trace hstart hσ
    rw [Command.before_step]
    exact ⟨hbound hrs i, hbound (Command.over_after_step hrs cmd) i⟩
  · apply trace?_eq_some hstart
    rw [Size.largest]
    omega
  · intro i op v before after hmem
    obtain ⟨rs, cmd, -, hstep⟩ := exists_step_of_mem_trace hstart hmem
    exact Command.exists_form_of_step_eq hstep
  · intro i op e before after hmem hop
    obtain ⟨rs, cmd, -, hstep⟩ := exists_step_of_mem_trace hstart hmem
    exact Command.after_eq_before_of_step_eq hop hstep
  · apply trace_map_command_filter
    intro cmd rs hdrop
    apply Command.after_step_of_isFailedPrimitive
    simpa using hdrop

/-- A string that begins with the largest length of all. A slice of that length fails, a record
fails at its second field, and after the position is restored the length itself can be read. -/
theorem trace_invariant_restore :
    let b : Bytes := [0x81, 0xFF, 0xFF, 0xFF, 0xFF, 0xFF, 0xFF, 0xFF, 0xFF, 0x7F, 7]
    let pair : Layout := .record <| .cons "w" (.scalar .uint16) <| .cons "name" .text .nil
    let cmds : List Command :=
      [.read 0 .slice, .copy 1 0, .read 0 (.value pair), .read 0 (.leaf .text), .copy 0 1,
        .read 0 .varint]
    b.length < 2 ^ 63 ∧
      trace? (fun _ ↦ .ofBytes b) cmds = some (trace (fun _ ↦ .ofBytes b) cmds) ∧
      trace (fun _ ↦ .ofBytes b) [.copy 1 0, .read 0 (.value pair), .copy 0 1, .read 0 .varint] =
        (trace (fun _ ↦ .ofBytes b) cmds).filter fun σ ↦ !σ.isFailedPrimitive := by
  intro b pair cmds
  have hb : b.length < 2 ^ 63 := by decide
  have hkept : ((trace (fun _ ↦ .ofBytes b) cmds).filter
      fun σ ↦ !σ.isFailedPrimitive).map Step.command =
        [.copy 1 0, .read 0 (.value pair), .copy 0 1, .read 0 .varint] := by
    cbv
  obtain ⟨-, hrange, -, -, hrest⟩ := trace_invariant b hb cmds
  rw [hkept] at hrest
  exact ⟨hb, hrange, hrest⟩

end Cursor

end TaggedWire
