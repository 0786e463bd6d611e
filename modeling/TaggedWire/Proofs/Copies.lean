import TaggedWire.Proofs.Growth

/-!
# Buffers and their copies

How a buffer grows never shows in its bytes. Several buffers are considered at once, numbered from
zero on: a command performs an operation on one of them, or copies one and gives the copy the next
number. Whatever the commands, each buffer holds the wire forms of what was written to it, one after
the other, and a copy begins with what its original held.
-/

namespace TaggedWire.Buffer

inductive Command where
  | perform (i : Nat) (op : Operation)
  | copy (i : Nat)

namespace Command

/-- Nothing if there is no buffer with the number, or if its operation is refused. -/
def step? : Command → List Buffer → Option (List Buffer)
  | perform i op, bs => (bs[i]?.bind op.step?).map (bs.set i)
  | copy i, bs => bs[i]?.map fun b ↦ bs ++ [b]

def writtenTo (i : Nat) : Command → List Item
  | perform j op => if j = i then op.items else []
  | copy _ => []

/-- A command adds to each buffer what it writes to that buffer. -/
theorem bytes_of_step? {cmd : Command} {bs bs' : List Buffer} (h : cmd.step? bs = some bs')
    {i : Nat} {b : Buffer} (hb : bs[i]? = some b) :
    ∃ b', bs'[i]? = some b' ∧ b'.bytes = b.bytes ++ (cmd.writtenTo i).flatMap Item.encode := by
  have hlt : i < bs.length := (List.getElem?_eq_some_iff.mp hb).1
  cases cmd with
  | perform j op =>
      obtain ⟨b₁, hop, rfl⟩ := Option.map_eq_some_iff.mp h
      obtain ⟨b₀, hj, hop⟩ := Option.bind_eq_some_iff.mp hop
      by_cases hij : j = i
      · subst hij
        obtain rfl : b₀ = b := Option.some_inj.mp (hj.symm.trans hb)
        refine ⟨b₁, List.getElem?_set_self hlt, ?_⟩
        rw [writtenTo, if_pos rfl]
        exact Operation.bytes_of_step? hop
      · refine ⟨b, ?_, ?_⟩
        · rw [List.getElem?_set_ne hij, hb]
        · simp [writtenTo, hij]
  | copy j =>
      obtain ⟨b₀, -, rfl⟩ := Option.map_eq_some_iff.mp h
      refine ⟨b, ?_, ?_⟩
      · rw [List.getElem?_append_left hlt, hb]
      · simp [writtenTo]

end Command

def runAll? (bs : List Buffer) (cmds : List Command) : Option (List Buffer) :=
  cmds.foldlM (fun bs cmd ↦ cmd.step? bs) bs

/-- What the commands write to the buffer with number `i`. -/
def written (i : Nat) (cmds : List Command) : List Item := cmds.flatMap (·.writtenTo i)

theorem runAll?_append (bs : List Buffer) (pre post : List Command) :
    runAll? bs (pre ++ post) = (runAll? bs pre).bind fun bs ↦ runAll? bs post :=
  List.foldlM_append

/-- Commands add to each buffer what they write to that buffer, in order. -/
theorem bytes_of_runAll? {bs bs' : List Buffer} {cmds : List Command}
    (h : runAll? bs cmds = some bs') {i : Nat} {b : Buffer} (hb : bs[i]? = some b) :
    ∃ b', bs'[i]? = some b' ∧ b'.bytes = b.bytes ++ (written i cmds).flatMap Item.encode := by
  induction cmds generalizing bs b with
  | nil =>
      cases h
      exact ⟨b, hb, by simp [written]⟩
  | cons cmd cmds ih =>
      obtain ⟨bs₁, hcmd, hcmds⟩ := Option.bind_eq_some_iff.mp h
      obtain ⟨b₁, hb₁, hbytes₁⟩ := Command.bytes_of_step? hcmd hb
      obtain ⟨b', hb', hbytes'⟩ := ih hcmds hb₁
      refine ⟨b', hb', ?_⟩
      rw [hbytes', hbytes₁, List.append_assoc, ← List.flatMap_append]
      rfl

/-- Every buffer holds what was written to it, one item after the other as each would stand alone on
an empty buffer. Bytes that are there stay, and a copy and its original go on separately. -/
theorem bytes_of_runAll?_ofCapacity? (c : Nat) (start : Buffer)
    (hstart : ofCapacity? c = some start) (cmds : List Command) (bs : List Buffer)
    (hrun : runAll? [start] cmds = some bs) :
    (∃ b, bs[0]? = some b ∧ b.bytes = (written 0 cmds).flatMap Item.encode) ∧
    (∀ pre post mid i b, cmds = pre ++ post → runAll? [start] pre = some mid → mid[i]? = some b →
      ∃ b', bs[i]? = some b' ∧ b'.bytes = b.bytes ++ (written i post).flatMap Item.encode) ∧
    (∀ pre post i, cmds = pre ++ .copy i :: post →
      ∃ mid b original copy, runAll? [start] pre = some mid ∧ mid[i]? = some b ∧
        bs[i]? = some original ∧
        original.bytes = b.bytes ++ (written i post).flatMap Item.encode ∧
        bs[mid.length]? = some copy ∧
        copy.bytes = b.bytes ++ (written mid.length post).flatMap Item.encode) ∧
    ∀ x : Item,
      (∀ b, x.write? b = x.append? b) ∧
      (∀ b, x.append? .empty = some b → b.bytes = x.encode) ∧
      ((∃ b, x.append? .empty = some b) ↔ x.encode.length ≤ 2 ^ 62) := by
  refine ⟨?_, ?_, ?_, ?_⟩
  · have hempty : start.bytes = [] := by
      obtain ⟨-, hstart⟩ := Option.ite_none_right_eq_some.mp hstart
      cases hstart
      rfl
    obtain ⟨b, hb, hbytes⟩ := bytes_of_runAll? hrun (i := 0) (b := start) rfl
    rw [hempty, List.nil_append] at hbytes
    exact ⟨b, hb, hbytes⟩
  · intro pre post mid i b hsplit hpre hb
    rw [hsplit, runAll?_append, hpre, Option.bind_some] at hrun
    exact bytes_of_runAll? hrun hb
  · intro pre post i hsplit
    rw [hsplit, runAll?_append] at hrun
    obtain ⟨mid, hpre, hpost⟩ := Option.bind_eq_some_iff.mp hrun
    obtain ⟨mid', hcopy, hpost⟩ := Option.bind_eq_some_iff.mp hpost
    obtain ⟨b, hb, rfl⟩ := Option.map_eq_some_iff.mp hcopy
    have hlt : i < mid.length := (List.getElem?_eq_some_iff.mp hb).1
    obtain ⟨original, horiginal, hbytes⟩ := bytes_of_runAll? hpost (i := i) (b := b)
      (by rw [List.getElem?_append_left hlt, hb])
    obtain ⟨copy, hcopy, hbytes'⟩ := bytes_of_runAll? hpost (i := mid.length) (b := b)
      (by simp)
    exact ⟨mid, b, original, copy, hpre, hb, horiginal, hbytes, hcopy, hbytes'⟩
  · intro x
    refine ⟨x.write?_eq_append?, ?_, exists_append?_empty_iff x⟩
    intro b hb
    exact Item.bytes_of_append? hb

/-- A buffer of the least capacity and a copy of it that is given more room. -/
theorem bytes_of_runAll?_ofCapacity?_zero :
    let cmds : List Command :=
      [.perform 0 (.write (.scalar .uint8 1)), .copy 0, .perform 1 (.reserve 100),
        .perform 0 (.write (.text "a")), .perform 1 (.write (.varint 300))]
    ofCapacity? 0 = some ⟨[], 1⟩ ∧
      runAll? [⟨[], 1⟩] cmds = some [⟨[1, 1, 97], 4⟩, ⟨[1, 0x82, 0x2C], 128⟩] ∧
      [1, 1, 97] = (written 0 cmds).flatMap Item.encode := by
  intro cmds
  have hstart : ofCapacity? 0 = some ⟨[], 1⟩ := by decide
  have hrun : runAll? [⟨[], 1⟩] cmds = some [⟨[1, 1, 97], 4⟩, ⟨[1, 0x82, 0x2C], 128⟩] := by
    decide +kernel
  obtain ⟨b, hb, hbytes⟩ := (bytes_of_runAll?_ofCapacity? 0 _ hstart cmds _ hrun).1
  cases hb
  exact ⟨hstart, hrun, hbytes⟩

end TaggedWire.Buffer
