import Intake.Columns.FlatStream
import Intake.Proofs.Columns.Places
/-!
# What passes for a stream

A grammar says of bytes that they are a stream without saying how they are
walked (`IsStream`): messages one behind the other, each an opening that
tells the length of the metadata, the metadata, and a body as long as it is
told there, of a kind that a stream of batches has; and behind them nothing,
or one mark that ends the stream. The cutting into frames takes the bytes of
which this holds and no others (`frames_iff_isStream`). It also never looks
outside of them: it is the walk over places in the data in which a slice
outside would be an outcome of its own (`walkFrom_eq`).
-/

namespace Intake

namespace Bytes

variable {n width : Nat} {bs w rest : Bytes}

theorem cut?_eq_some_iff : cut? n bs = some (w, rest) ↔ bs = w ++ rest ∧ w.length = n := by
  constructor
  · intro h
    unfold cut? at h
    split at h
    · rename_i hle
      cases h
      exact ⟨(List.take_append_drop n bs).symm, List.length_take_of_le hle⟩
    · cases h
  · rintro ⟨rfl, rfl⟩
    exact Rows.cut?_append w rest

theorem word?_eq_some_iff :
    word? width bs = some (n, rest) ↔ bs = ofNat width n ++ rest ∧ n < Nat.pow 256 width := by
  constructor
  · intro h
    obtain ⟨⟨w, r⟩, hcut, heq⟩ := Option.map_eq_some_iff.1 h
    obtain ⟨rfl, rfl⟩ := cut?_eq_some_iff.1 hcut
    cases heq
    exact ⟨by rw [ofNat_toNat], toNat_lt w⟩
  · rintro ⟨rfl, hn⟩
    have hcut : cut? width (ofNat width n ++ rest) = some (ofNat width n, rest) :=
      cut?_eq_some_iff.2 ⟨rfl, length_ofNat width n⟩
    rw [word?, hcut, Option.map_some]
    dsimp only
    rw [toNat_ofNat_of_lt width hn]

end Bytes

namespace Columns

variable {data rest : Bytes} {index start pos size next limit : Nat}

/-! ## The grammar -/

/-- What opens a message and tells how long its metadata is: a word of four
bytes, with or without the marker in front of it. Without the marker the
length is below `limit`. -/
inductive Tells (limit : Nat) : Bytes → Nat → Prop where
  | marked {size : Nat} (h : size < UInt32.size) :
    Tells limit (Bytes.ofNat 4 marker ++ Bytes.ofNat 4 size) size
  | bare {size : Nat} (h : size < limit) : Tells limit (Bytes.ofNat 4 size) size

/-- The bytes of one message. -/
def IsFramed (limit : Nat) (bytes : Bytes) : Prop :=
  ∃ opening metadata body message, bytes = opening ++ (metadata ++ body) ∧
    Tells limit opening metadata.length ∧ metadata ≠ [] ∧
    Message.ofBytes? metadata = some message ∧ message.bodyLength = body.length ∧
    message.header.IsTaken body.length

/-- The bytes of a stream: messages, and behind them nothing or a length of
zero. -/
def IsStream (limit : Nat) (data : Bytes) : Prop :=
  ∃ (messages : List Bytes) (mark : Bytes), data = messages.flatten ++ mark ∧
    (∀ bytes ∈ messages, IsFramed limit bytes) ∧ (mark = [] ∨ Tells limit mark 0)

/-! ## One message -/

/-- **A length that opens a message is read**, and what is read as one
opens it. -/
theorem readLength_eq_ok_iff :
    readLength start data = .ok (size, next, rest) ↔
      ∃ opening, data = opening ++ rest ∧ Tells marker opening size ∧
        next = start + opening.length := by
  constructor
  · intro h
    unfold readLength at h
    split at h
    · cases h
    rename_i n rest' hword
    obtain ⟨rfl, hn⟩ := Bytes.word?_eq_some_iff.1 hword
    split at h
    · rename_i hmarker
      subst hmarker
      split at h
      · cases h
      rename_i n' rest'' hword'
      obtain ⟨rfl, hn'⟩ := Bytes.word?_eq_some_iff.1 hword'
      cases h
      refine ⟨_, (List.append_assoc _ _ _).symm, .marked hn', ?_⟩
      simp
    · rename_i hmarker
      cases h
      have hlt : size < marker := by
        have hpow : Nat.pow 256 4 = 0x100000000 := rfl
        unfold marker at hmarker ⊢
        omega
      exact ⟨_, rfl, .bare hlt, by simp⟩
  · rintro ⟨opening, rfl, htells, rfl⟩
    cases htells with
    | marked h =>
      rw [readLength, List.append_assoc, word?_ofNat (by decide)]
      dsimp only
      rw [if_pos rfl, word?_ofNat h]
      simp
    | bare h =>
      rw [readLength, word?_ofNat (Nat.lt_trans h (by decide))]
      dsimp only
      rw [if_neg (Nat.ne_of_lt h)]
      simp

/-- **What is cut off as a message** is its metadata and its body. -/
theorem readFrame_eq_ok_iff {f : Frame} :
    readFrame index start next size data = .ok (f, rest) ↔
      ∃ metadata message body, data = metadata ++ (body ++ rest) ∧ metadata.length = size ∧
        Message.ofBytes? metadata = some message ∧ message.bodyLength = body.length ∧
        message.header.IsTaken body.length ∧ f = ⟨start, message, next + size, body⟩ := by
  constructor
  · intro h
    unfold readFrame at h
    split at h
    · cases h
    rename_i metadata rest' hcut
    obtain ⟨rfl, hsize⟩ := Bytes.cut?_eq_some_iff.1 hcut
    split at h
    · cases h
    rename_i message hmessage
    dsimp only at h
    split at h
    · cases h
    rename_i body rest'' hbody
    split at hbody
    · rename_i hnonneg
      obtain ⟨rfl, hlength⟩ := Bytes.cut?_eq_some_iff.1 hbody
      split at h
      · cases h
      rename_i hcheck
      cases h
      exact ⟨metadata, message, body, rfl, hsize, hmessage, by omega,
        (Message.check_eq_ok_iff hmessage index body.length).1 hcheck, rfl⟩
    · cases hbody
  · rintro ⟨metadata, message, body, rfl, rfl, hmessage, hlength, htaken, rfl⟩
    exact readFrame_of_message hmessage hlength
      ((Message.check_eq_ok_iff hmessage index body.length).2 htaken) start next rest

/-! ## Streams -/

theorem Tells.length_pos {opening : Bytes} (h : Tells limit opening size) :
    0 < opening.length := by
  cases h <;> simp

/-- **What is cut into frames is a stream.** -/
theorem isStream_of_framesFrom {fs : Frames} (h : framesFrom index start data = .ok fs) :
    IsStream marker data := by
  fun_induction framesFrom index start data generalizing fs with
  | case1 index start data hempty =>
    obtain rfl : data = [] := by simpa using hempty
    exact ⟨[], [], rfl, List.forall_mem_nil _, .inl rfl⟩
  | case2 | case4 | case5 => cases h
  | case3 index start data hne next rest hrest hlength =>
    obtain rfl : rest = [] := by simpa using hrest
    obtain ⟨mark, hdata, htells, -⟩ := readLength_eq_ok_iff.1 hlength
    exact ⟨[], mark, by simpa using hdata, List.forall_mem_nil _, .inr htells⟩
  | case6 index start data hne size next rest hlength hsize f rest' hframe ih =>
    obtain ⟨gs, hgs, -⟩ := exists_of_map_eq_ok h
    obtain ⟨opening, rfl, htells, -⟩ := readLength_eq_ok_iff.1 hlength
    obtain ⟨metadata, message, body, rfl, rfl, hmessage, hbody, htaken, -⟩ :=
      readFrame_eq_ok_iff.1 hframe
    obtain ⟨messages, mark, rfl, hmessages, hmark⟩ := ih hgs
    refine ⟨(opening ++ (metadata ++ body)) :: messages, mark, by simp,
      List.forall_mem_cons.2 ⟨?_, hmessages⟩, hmark⟩
    exact ⟨opening, metadata, body, message, rfl, htells, fun hnil => hsize (by rw [hnil]; rfl),
      hmessage, hbody, htaken⟩

/-- A message at the front of bytes is cut off, and the rest is cut after
it. -/
theorem exists_framesFrom_append {bytes : Bytes} (h : IsFramed marker bytes) (index start : Nat)
    (rest : Bytes) : ∃ f, framesFrom index start (bytes ++ rest) =
      (framesFrom (index + 1) (start + bytes.length) rest).map fun fs =>
        ⟨f :: fs.frames, fs.ended⟩ := by
  obtain ⟨opening, metadata, body, message, rfl, htells, hne, hmessage, hbody, htaken⟩ := h
  have hlength : readLength start (opening ++ (metadata ++ (body ++ rest))) =
      .ok (metadata.length, start + opening.length, metadata ++ (body ++ rest)) :=
    readLength_eq_ok_iff.2 ⟨opening, rfl, htells, rfl⟩
  have hcheck := (Message.check_eq_ok_iff hmessage index body.length).2 htaken
  refine ⟨⟨start, message, start + opening.length + metadata.length, body⟩, ?_⟩
  rw [List.append_assoc, List.append_assoc,
    framesFrom_of_message hlength hne hmessage hbody hcheck]
  simp only [List.length_append, Nat.add_assoc]

/-- **A stream is cut into frames**, and so is what is left of it behind
any of its messages. -/
theorem exists_framesFrom (h : IsStream marker data) (index start : Nat) :
    ∃ fs, framesFrom index start data = .ok fs := by
  obtain ⟨messages, mark, rfl, hmessages, hmark⟩ := h
  induction messages generalizing index start with
  | nil =>
    rcases hmark with rfl | hmark
    · exact ⟨_, framesFrom_nil index start⟩
    · have hnonempty : mark ≠ [] := List.length_pos_iff.1 hmark.length_pos
      have hlength : readLength start mark = .ok (0, start + mark.length, []) :=
        readLength_eq_ok_iff.2 ⟨mark, (List.append_nil mark).symm, hmark, rfl⟩
      refine ⟨⟨[], true⟩, ?_⟩
      rw [List.flatten_nil, List.nil_append, framesFrom_eq hnonempty, hlength]
      rfl
  | cons bytes messages ih =>
    obtain ⟨hbytes, hmessages⟩ := List.forall_mem_cons.1 hmessages
    obtain ⟨f, hf⟩ :=
      exists_framesFrom_append hbytes index start (messages.flatten ++ mark)
    obtain ⟨fs, hfs⟩ := ih (index + 1) (start + bytes.length) hmessages
    refine ⟨⟨f :: fs.frames, fs.ended⟩, ?_⟩
    rw [List.flatten_cons, List.append_assoc, hf, hfs]
    rfl

/-! ## Lengths that read as the marker -/

variable {limit' : Nat} {opening bytes : Bytes}

theorem Tells.of_lt (h : Tells limit opening size) (hlt : size < limit') :
    Tells limit' opening size := by
  cases h with
  | marked h => exact .marked h
  | bare h => exact .bare hlt

theorem IsFramed.of_lt (h : IsFramed limit bytes) (hlt : bytes.length ≤ limit') :
    IsFramed limit' bytes := by
  obtain ⟨opening, metadata, body, message, rfl, htells, hrest⟩ := h
  have hpos := htells.length_pos
  simp only [List.length_append] at hlt
  exact ⟨opening, metadata, body, message, rfl, htells.of_lt (by omega), hrest⟩

/-- **Only in bytes of four gigabytes is there a length that reads as the
marker.** -/
theorem IsStream.of_length_le (h : IsStream limit data) (hpos : 0 < limit')
    (hle : data.length ≤ limit') : IsStream limit' data := by
  obtain ⟨messages, mark, rfl, hmessages, hmark⟩ := h
  refine ⟨messages, mark, rfl, fun bytes hbytes => (hmessages bytes hbytes).of_lt ?_,
    hmark.imp_right fun h => h.of_lt hpos⟩
  obtain ⟨front, back, rfl⟩ := List.append_of_mem hbytes
  simp only [List.flatten_append, List.flatten_cons, List.length_append] at hle
  omega

/-! ## What is taken -/

/-- **What passes for a stream.** For any bytes, the walk over places never
takes a slice outside of them, and is the cutting into frames. That comes
out without an error just when the bytes are a stream: messages one behind
the other from the first byte on, and behind them nothing or the mark that
ends a stream. Below four gigabytes it is no matter that a length without a
marker in front may not read as the marker. -/
theorem frames_iff_isStream (data : Bytes) :
    walk data = some (frames data) ∧
      ((∃ fs, frames data = .ok fs) ↔ IsStream marker data) ∧
      (data.length < UInt32.size →
        ((∃ fs, frames data = .ok fs) ↔ IsStream UInt32.size data)) := by
  have hiff : (∃ fs, frames data = .ok fs) ↔ IsStream marker data :=
    ⟨fun ⟨fs, hfs⟩ => isStream_of_framesFrom hfs, fun h => exists_framesFrom h 0 0⟩
  refine ⟨walkFrom_eq (Nat.zero_le _) 0, hiff, fun hshort => hiff.trans ⟨fun h => ?_, fun h => ?_⟩⟩
  · exact h.of_length_le (by decide) (Nat.le_of_lt hshort)
  · exact h.of_length_le (by decide) (Nat.le_of_lt_succ hshort)

end Columns

/-- A stream stays one when the mark at its end is written without the
marker, and the mark is none with a byte behind it. -/
theorem Columns.isStream_of_bareMark :
    ∃ data, Columns.encode Columns.flatWriter Sample.named [[⟨[.int64 5, .string "ab"]⟩]] =
        .ok (data ++ Columns.endMark) ∧
      Columns.IsStream Columns.marker (data ++ [0, 0, 0, 0]) ∧
      Columns.IsStream UInt32.size (data ++ [0, 0, 0, 0]) ∧
      ¬Columns.IsStream Columns.marker [0, 0, 0, 0, 0] ∧
      Columns.walk [0, 0, 0, 0, 0] = some (.error ⟨.bytesAfterEnd 1, some 4⟩) := by
  have hrun : (Columns.encode Columns.flatWriter Sample.named
      [[⟨[.int64 5, .string "ab"]⟩]]).map (fun data =>
        (data.length, data.drop 576, (Columns.frames (data.take 576 ++ [0, 0, 0, 0])).map
          fun fs => fs.frames.length)) = .ok (584, Columns.endMark, .ok 2) := by decide +kernel
  have hbehind : Columns.frames [0, 0, 0, 0, 0] = .error ⟨.bytesAfterEnd 1, some 4⟩ := by
    rw [Columns.frames, Columns.framesFrom_eq (List.cons_ne_nil _ _)]
    rfl
  obtain ⟨data, hdata, heq⟩ := exists_of_map_eq_ok hrun
  obtain ⟨hlen, heq⟩ := Prod.mk.inj heq
  obtain ⟨hmark, hbare⟩ := Prod.mk.inj heq
  obtain ⟨fs, hfs, -⟩ := exists_of_map_eq_ok hbare
  obtain ⟨-, hiff, hshort⟩ := frames_iff_isStream (data.take 576 ++ [0, 0, 0, 0])
  obtain ⟨hwalk, hiff', -⟩ := frames_iff_isStream [0, 0, 0, 0, 0]
  refine ⟨data.take 576, ?_, hiff.1 ⟨fs, hfs⟩, (hshort ?_).1 ⟨fs, hfs⟩, fun h => ?_, ?_⟩
  · rw [hdata, ← hmark, List.take_append_drop]
  · rw [List.length_append, List.length_take, hlen]
    decide
  · obtain ⟨gs, hgs⟩ := hiff'.2 h
    rw [hbehind] at hgs
    cases hgs
  · rw [hwalk, hbehind]

end Intake
