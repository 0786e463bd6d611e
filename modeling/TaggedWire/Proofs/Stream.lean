import Mathlib.Algebra.GroupWithZero.Nat
import TaggedWire.Proofs.Dispatch
import TaggedWire.Proofs.Truncation

/-!
# Messages one after the other

Messages that are written one after the other need nothing between them. `readAll` takes messages
from a cursor until it is at the end: a tag, then the fields of the kind with that tag. From a
string of messages that is cut anywhere it gets those that lie before the cut, and it fails only if
the cut falls inside a message.
-/

namespace TaggedWire.Presence

/-- Reads the fields of the kind with the given tag. A tag that no kind has is returned instead. -/
def readBody (tag : UInt8) : ReadM (Except UInt8 Message) :=
  match Kind.ofTag? tag with
  | none => return .error tag
  | some kind => return .ok (.ofBody kind (← kind.layout.read))

def readTagged : ReadM (Except UInt8 Message) := ReadM.scalar .uint8 >>= readBody

/-! ## One message -/

theorem stable_readBody (tag : UInt8) : ReadM.Stable (readBody tag) := by
  rw [readBody]
  cases Kind.ofTag? tag with
  | none => exact ReadM.stable_pure _
  | some kind => exact kind.layout.stable_read.bind fun _ ↦ ReadM.stable_pure _

theorem stable_readTagged : ReadM.Stable readTagged :=
  (ReadM.stable_scalar .uint8).bind stable_readBody

theorem remaining_lt_of_readTagged {c c' : Cursor} {r : Except UInt8 Message}
    (hc : ¬c.atEnd) (h : readTagged c = .ok r c') : c'.remaining < c.remaining := by
  obtain ⟨tag, c₁, htag, hbody⟩ := ReadM.bind_eq_ok_iff.mp h
  obtain ⟨g, rfl, -, rfl⟩ := (ReadM.accepts_scalar .uint8 c tag c₁).mp htag
  obtain ⟨k, -, hfinal⟩ := (stable_readBody tag).forward (c.advance 1)
  have hc' : c' = (c.advance 1).advance k := (ReadM.final_of_ok hbody).symm.trans hfinal
  have hlt : c.pos < c.buffer.length := by simpa [Cursor.atEnd] using hc
  simp only [hc', Cursor.advance, Cursor.remaining]
  omega

theorem readBody_of_wireForm {m : Message} {e : Bytes} (he : m.kind.layout.WireForm m.body e)
    (p s : Bytes) :
    readBody m.tag ⟨p ++ e ++ s, p.length⟩ = .ok (.ok m) ⟨p ++ e ++ s, p.length + e.length⟩ := by
  have hkind : Kind.ofTag? m.tag = some m.kind := Kind.ofTag?_tag m.kind
  simp only [readBody, hkind]
  rw [ReadM.bind_ok (Layout.read_of_wireForm he p s), m.ofBody_body]
  rfl

/-- A message can be read where it stands between other bytes. -/
theorem readTagged_encode (m : Message) (hm : ∀ t ∈ m.texts, (Text.encode t).length < 2 ^ 63)
    (p s : Bytes) :
    readTagged ⟨p ++ m.encode ++ s, p.length⟩ =
      .ok (.ok m) ⟨p ++ m.encode ++ s, p.length + m.encode.length⟩ := by
  obtain ⟨e, hencode, he⟩ := m.exists_wireForm hm
  have hbuffer : p ++ m.encode ++ s = p ++ [m.tag] ++ e ++ s := by simp [hencode]
  have hend : p.length + m.encode.length = p.length + 1 + e.length := by
    rw [hencode, List.length_cons]
    omega
  have htag : ReadM.scalar .uint8 ⟨p ++ [m.tag] ++ e ++ s, p.length⟩ =
      .ok m.tag ⟨p ++ [m.tag] ++ e ++ s, p.length + 1⟩ := by
    apply (ReadM.accepts_scalar .uint8 _ m.tag _).mpr
    refine ⟨[m.tag], (Scalar.encode_uint8 m.tag).symm, ?_, rfl⟩
    simp [Cursor.unread]
  have hbody := readBody_of_wireForm he (p ++ [m.tag]) s
  rw [List.length_append, List.length_singleton] at hbody
  rw [hbuffer, hend, readTagged, ReadM.bind_ok htag, hbody]

/-- A message that is cut wants input. -/
theorem readTagged_take (m : Message) (hm : ∀ t ∈ m.texts, (Text.encode t).length < 2 ^ 63)
    (p : Bytes) {k : Nat} (hk : k < m.encode.length) :
    ∃ c, readTagged ⟨p ++ m.encode.take k, p.length⟩ = .error .truncatedInput c := by
  have hwhole : readTagged (Cursor.extend ⟨p ++ m.encode.take k, p.length⟩ (m.encode.drop k)) =
      .ok (.ok m) ⟨p ++ m.encode, p.length + m.encode.length⟩ := by
    simpa [Cursor.extend] using readTagged_encode m hm p []
  apply ReadM.outcome_fst_eq_error_iff.mp
  apply stable_readTagged.truncated_of_short _ hwhole
  · simp only [List.length_append, List.length_take]
    omega
  · simp [Cursor.Inside]

/-! ## Many messages -/

/-- How the reading of messages ends. -/
inductive Ending where
  | atEnd
  | fault (fault : Fault)
  | unknownTag (tag : UInt8)
  deriving DecidableEq, Repr

/-- The messages that were read, each with the position behind it, and how the reading ended. -/
structure Transcript where
  messages : List (Message × Nat)
  ending : Ending
  deriving DecidableEq, Repr

def Transcript.cons (m : Message) (pos : Nat) (t : Transcript) : Transcript :=
  ⟨(m, pos) :: t.messages, t.ending⟩

/-- Reads messages until the cursor is at the end or no message can be read. -/
def readAll (c : Cursor) : Transcript :=
  if hc : c.atEnd then
    ⟨[], .atEnd⟩
  else
    match h : readTagged c with
    | .ok (.ok m) c' =>
        have := remaining_lt_of_readTagged hc h
        (readAll c').cons m c'.pos
    | .ok (.error tag) _ => ⟨[], .unknownTag tag⟩
    | .error e _ => ⟨[], .fault e⟩
termination_by c.remaining

theorem readAll_of_atEnd {c : Cursor} (hc : c.atEnd) : readAll c = ⟨[], .atEnd⟩ := by
  rw [readAll, dif_pos hc]

theorem readAll_of_message {c c' : Cursor} {m : Message} (hc : ¬c.atEnd)
    (h : readTagged c = .ok (.ok m) c') : readAll c = (readAll c').cons m c'.pos := by
  rw [readAll, dif_neg hc]
  split <;> simp_all

theorem readAll_of_error {c c' : Cursor} {e : Fault} (hc : ¬c.atEnd)
    (h : readTagged c = .error e c') : readAll c = ⟨[], .fault e⟩ := by
  rw [readAll, dif_neg hc]
  split <;> simp_all

/-- Messages with the positions behind them when they are written from position `start` on. -/
def stamped (start : Nat) : List Message → List (Message × Nat)
  | [] => []
  | m :: ms => (m, start + m.encode.length) :: stamped (start + m.encode.length) ms

theorem Message.length_encode_pos (m : Message) : 0 < m.encode.length := by
  rw [m.encode_eq_cons]
  exact Nat.zero_lt_succ _

theorem start_lt_of_mem_stamped {start : Nat} {ms : List Message} {x : Message × Nat}
    (hx : x ∈ stamped start ms) : start < x.2 := by
  induction ms generalizing start with
  | nil => cases hx
  | cons m ms ih =>
      have hpos := m.length_encode_pos
      rcases List.mem_cons.mp hx with rfl | hx
      · exact Nat.lt_add_of_pos_right hpos
      · have hlt := ih hx
        omega

theorem stamped_eq_mapIdx (start : Nat) (ms : List Message) :
    stamped start ms = ms.mapIdx fun i m ↦
      (m, start + ((ms.take (i + 1)).map fun m ↦ m.encode.length).sum) := by
  induction ms generalizing start with
  | nil => rfl
  | cons m ms ih => simp [stamped, ih, List.mapIdx_cons, Nat.add_assoc]

/-- What can be read of messages that are written from position `start` on, in a string that ends at
position `stop`. -/
def complete (start stop : Nat) (ms : List Message) : Transcript where
  messages := (stamped start ms).takeWhile (·.2 ≤ stop)
  ending :=
    if stop = start ∨ stop ∈ (stamped start ms).map (·.2) then .atEnd else .fault .truncatedInput

theorem takeWhile_stamped_eq_nil {start stop : Nat} (ms : List Message)
    (h : ∀ m ∈ ms.head?, stop < start + m.encode.length) :
    (stamped start ms).takeWhile (·.2 ≤ stop) = [] := by
  cases ms with
  | nil => rfl
  | cons m ms =>
      have hlt : stop < start + m.encode.length := h m rfl
      rw [stamped, List.takeWhile_cons_of_neg]
      simpa using hlt

theorem complete_self (start : Nat) (ms : List Message) :
    complete start start ms = ⟨[], .atEnd⟩ := by
  have hnone : (stamped start ms).takeWhile (·.2 ≤ start) = [] := by
    apply takeWhile_stamped_eq_nil
    intro m _
    exact Nat.lt_add_of_pos_right m.length_encode_pos
  simp [complete, hnone]

theorem complete_cons_of_le {start stop : Nat} {m : Message} (ms : List Message)
    (h : start + m.encode.length ≤ stop) :
    complete start stop (m :: ms) =
      (complete (start + m.encode.length) stop ms).cons m (start + m.encode.length) := by
  have hpos := m.length_encode_pos
  have hne : stop ≠ start := by omega
  simp only [complete, stamped, Transcript.cons, List.takeWhile_cons, decide_eq_true h, if_true,
    List.map_cons, List.mem_cons, hne, false_or]

theorem complete_cons_of_lt {start stop : Nat} {m : Message} (ms : List Message)
    (hstart : start < stop) (h : stop < start + m.encode.length) :
    complete start stop (m :: ms) = ⟨[], .fault .truncatedInput⟩ := by
  have hnone : (stamped start (m :: ms)).takeWhile (·.2 ≤ stop) = [] := by
    apply takeWhile_stamped_eq_nil
    simpa using h
  have hnot : ¬(stop = start ∨ stop ∈ (stamped start (m :: ms)).map (·.2)) := by
    rw [stamped, List.map_cons, List.mem_cons, List.mem_map]
    rintro (hstop | hstop | ⟨x, hx, hstop⟩)
    · omega
    · omega
    · have hlt := start_lt_of_mem_stamped hx
      omega
  rw [complete, hnone, if_neg hnot]

theorem readAll_append_take (ms : List Message)
    (hms : ∀ m ∈ ms, ∀ t ∈ m.texts, (Text.encode t).length < 2 ^ 63) (p : Bytes) {c : Nat}
    (hc : c ≤ (ms.flatMap Message.encode).length) :
    readAll ⟨p ++ (ms.flatMap Message.encode).take c, p.length⟩ =
      complete p.length (p.length + c) ms := by
  induction ms generalizing p c with
  | nil =>
      have hzero : c = 0 := by simpa using hc
      rw [hzero, Nat.add_zero, complete_self]
      apply readAll_of_atEnd
      simp [Cursor.atEnd]
  | cons m ms ih =>
      obtain ⟨hm, hms⟩ := List.forall_mem_cons.mp hms
      rw [List.flatMap_cons, List.length_append] at hc
      rw [List.flatMap_cons]
      by_cases hle : m.encode.length ≤ c
      · -- The message lies before the cut, and the rest is read from behind a longer prefix.
        obtain ⟨d, rfl⟩ := Nat.exists_eq_add_of_le hle
        have hpos := m.length_encode_pos
        have hread := readTagged_encode m hm p ((ms.flatMap Message.encode).take d)
        have hrest := ih hms (p ++ m.encode) (c := d) (by omega)
        rw [List.length_append, Nat.add_assoc] at hrest
        rw [List.take_length_add_append, ← List.append_assoc, complete_cons_of_le ms (by omega),
          ← hrest]
        apply readAll_of_message _ hread
        simp only [Cursor.atEnd, List.length_append, decide_eq_true_eq]
        omega
      · have hlt : c < m.encode.length := Nat.lt_of_not_le hle
        rw [List.take_append_of_le_length (Nat.le_of_lt hlt)]
        by_cases hzero : c = 0
        · rw [hzero, Nat.add_zero, complete_self]
          apply readAll_of_atEnd
          simp [Cursor.atEnd]
        · obtain ⟨c', herror⟩ := readTagged_take m hm p hlt
          rw [complete_cons_of_lt ms (by omega) (by omega)]
          apply readAll_of_error _ herror
          simp only [Cursor.atEnd, List.length_append, List.length_take, decide_eq_true_eq]
          omega

theorem complete_of_length (start : Nat) (ms : List Message) :
    complete start (start + (ms.flatMap Message.encode).length) ms =
      ⟨stamped start ms, .atEnd⟩ := by
  induction ms generalizing start with
  | nil => rw [List.flatMap_nil, List.length_nil, Nat.add_zero, complete_self]; rfl
  | cons m ms ih =>
      rw [List.flatMap_cons, List.length_append, ← Nat.add_assoc,
        complete_cons_of_le ms (Nat.le_add_right _ _), ih]
      rfl

/-- Of messages that are written one after the other, in a string that is cut at any place, all that
lie before the cut are read, and the reader wants input exactly if the cut is inside a message. -/
theorem readAll_take_flatMap_encode (ms : List Message)
    (hms : ∀ m ∈ ms, ∀ t ∈ m.texts, (Text.encode t).length < 2 ^ 63) :
    let whole := ms.flatMap Message.encode
    let stamps := ms.mapIdx fun i m ↦ (m, ((ms.take (i + 1)).map fun m ↦ m.encode.length).sum)
    (∀ c ≤ whole.length,
      readAll (.ofBytes (whole.take c)) =
        ⟨stamps.takeWhile (·.2 ≤ c),
          if c = 0 ∨ c ∈ stamps.map (·.2) then .atEnd else .fault .truncatedInput⟩) ∧
    readAll (.ofBytes whole) = ⟨stamps, .atEnd⟩ := by
  intro whole stamps
  have hstamps : stamped 0 ms = stamps := by
    rw [stamped_eq_mapIdx]
    simp only [Nat.zero_add, stamps]
  have hcut : ∀ c ≤ whole.length, readAll (.ofBytes (whole.take c)) = complete 0 c ms := by
    intro c hc
    have hread := readAll_append_take ms hms [] hc
    simpa [Cursor.ofBytes] using hread
  constructor
  · intro c hc
    rw [hcut c hc, complete, hstamps]
  · have hwhole := complete_of_length 0 ms
    rw [Nat.zero_add, hstamps] at hwhole
    rw [← hwhole, ← hcut whole.length (Nat.le_refl _), List.take_length]

/-- Three messages in eight bytes, cut in the middle of a character of the last. -/
theorem readAll_take_flatMap_encode_accent :
    let ms : List Message := [.serverDelete "a", .serverRegister, .clientRegister "é"]
    (∀ m ∈ ms, ∀ t ∈ m.texts, (Text.encode t).length < 2 ^ 63) ∧
      readAll (.ofBytes [4, 1, 97, 1, 0, 2, 0xC3]) =
        ⟨[(.serverDelete "a", 3), (.serverRegister, 4)], .fault .truncatedInput⟩ := by
  intro ms
  have hshort : ∀ m ∈ ms, ∀ t ∈ m.texts, (Text.encode t).length < 2 ^ 63 := by decide
  have hlength : 7 ≤ (ms.flatMap Message.encode).length := by decide +kernel
  have hread := (readAll_take_flatMap_encode ms hshort).1 7 hlength
  have hcut : (ms.flatMap Message.encode).take 7 = [4, 1, 97, 1, 0, 2, 0xC3] := by decide +kernel
  rw [hcut] at hread
  refine ⟨hshort, hread.trans ?_⟩
  decide +kernel

end TaggedWire.Presence
