import Intake.Columns.Message
import Intake.Failure
/-!
# The frames of a column stream

A stream is a sequence of messages: an optional marker, the length of the
metadata, the metadata, and a body whose length the metadata tells. A
length of zero ends the stream. The cutting into frames looks at nothing
behind a length before the length has been held against the bytes there
are, and refuses the messages that no stream of batches has: compressed
blocks, blocks with more rows than their body has bits, and every kind
but schemas, blocks and empty messages.
-/

namespace Intake.Columns

/-- A message of a stream. -/
structure Frame where
  /-- where the message starts in the stream -/
  start : Nat
  message : Message
  /-- where the body starts in the stream -/
  bodyStart : Nat
  body : Bytes

/-- The messages of a stream. -/
structure Frames where
  frames : List Frame
  /-- whether the mark that ends a stream has been read -/
  ended : Bool

/-- What may stand in front of the length of a message. -/
def marker : Nat := 0xFFFFFFFF

/-- The length of a message's metadata, with where it ends and what
follows; the marker in front may be missing. -/
def readLength (pos : Nat) (data : Bytes) : Except DecodeError (Nat × Nat × Bytes) :=
  match Bytes.word? 4 data with
  | none => .error ⟨.cutMarker, some pos⟩
  | some (n, rest) =>
    if n = marker then
      match Bytes.word? 4 rest with
      | none => .error ⟨.cutMarker, some (pos + 4)⟩
      | some (n, rest) => .ok (n, pos + 8, rest)
    else .ok (n, pos + 4, rest)

/-- A number of rows or nulls that a body of `body` bytes may have. -/
def fitsBody (body : Nat) (n : Int) : Bool := 0 ≤ n && n ≤ (min (8 * body) 0x7FFFFFFFFFFFFFFF : Nat)

/-- Whether the counts of a block fit a body of `body` bytes. -/
def BlockTable.isPlausible (b : BlockTable) (body : Nat) : Bool :=
  fitsBody body b.length &&
    (b.nodes.getD []).all fun n => fitsBody body n.1 && fitsBody body n.2

/-- What keeps message number `index`, with a body of `body` bytes, out of
a stream of batches. -/
def Header.check (index body : Nat) : Header → Except DecodeCause Unit
  | .none | .schema _ => .ok ()
  | .block b =>
    if b.compressed then .error .compressed
    else if b.isPlausible body then .ok ()
    else .error (.implausibleRows index body)
  | .other code => .error (.unsupported (Header.otherTitle code))

/-- Message number `index`, which starts at `start`, from its metadata on,
which is at `pos`, and what follows it. -/
def readFrame (index start pos size : Nat) (data : Bytes) :
    Except DecodeError (Frame × Bytes) :=
  match Bytes.cut? size data with
  | none => .error ⟨.metadataLength index size data.length, some start⟩
  | some (metadata, rest) =>
    match Message.ofBytes? metadata with
    | none => .error ⟨.invalidMessage index, some start⟩
    | some message =>
      let body? := if 0 ≤ message.bodyLength then Bytes.cut? message.bodyLength.toNat rest else none
      match body? with
      | none => .error ⟨.bodyLength index message.bodyLength rest.length, some start⟩
      | some (body, rest) =>
        match message.header.check index body.length with
        | .error cause => .error ⟨cause, some start⟩
        | .ok () => .ok (⟨start, message, pos + size, body⟩, rest)

theorem length_of_cut? {n : Nat} {bs w rest : Bytes} (h : Bytes.cut? n bs = some (w, rest)) :
    w.length = n ∧ w.length + rest.length = bs.length := by
  unfold Bytes.cut? at h
  split at h
  · simp only [Option.some.injEq, Prod.mk.injEq] at h
    obtain ⟨rfl, rfl⟩ := h
    simp only [List.length_take, List.length_drop]
    omega
  · contradiction

theorem length_of_word? {width n : Nat} {bs rest : Bytes}
    (h : Bytes.word? width bs = some (n, rest)) : width + rest.length = bs.length := by
  unfold Bytes.word? at h
  obtain ⟨⟨w, r⟩, hc, he⟩ := Option.map_eq_some_iff.1 h
  have := length_of_cut? hc
  simp only [Prod.mk.injEq] at he
  obtain ⟨-, rfl⟩ := he
  omega

/-- The length of a message takes at least four bytes. -/
theorem length_of_readLength {pos size next : Nat} {data rest : Bytes}
    (h : readLength pos data = .ok (size, next, rest)) : rest.length + 4 ≤ data.length := by
  unfold readLength at h
  split at h
  · contradiction
  · rename_i n r hw
    have h₁ := length_of_word? hw
    split at h
    · split at h
      · contradiction
      · rename_i m s hw'
        have h₂ := length_of_word? hw'
        cases h
        omega
    · cases h
      omega

/-- A frame does not leave more bytes than it found. -/
theorem length_of_readFrame {index start pos size : Nat} {data rest : Bytes} {f : Frame}
    (h : readFrame index start pos size data = .ok (f, rest)) :
    size + f.body.length + rest.length = data.length := by
  unfold readFrame at h
  split at h
  · contradiction
  · rename_i metadata r hc
    have h₁ := length_of_cut? hc
    split at h
    · contradiction
    · dsimp only at h
      split at h
      · contradiction
      · rename_i body s hb
        split at hb
        · have h₂ := length_of_cut? hb
          split at h
          · contradiction
          · cases h
            dsimp only
            omega
        · contradiction

/-- The frames of a stream from message number `index` on, which starts at
`pos`. -/
def framesFrom (index pos : Nat) (data : Bytes) : Except DecodeError Frames :=
  if data.isEmpty then .ok ⟨[], false⟩
  else
    match _hl : readLength pos data with
    | .error e => .error e
    | .ok (size, next, rest) =>
      if size = 0 then
        if rest.isEmpty then .ok ⟨[], true⟩
        else .error ⟨.bytesAfterEnd rest.length, some next⟩
      else
        match _hf : readFrame index pos next size rest with
        | .error e => .error e
        | .ok (frame, rest') =>
          (framesFrom (index + 1) (next + size + frame.body.length) rest').map fun fs =>
            ⟨frame :: fs.frames, fs.ended⟩
termination_by data.length
decreasing_by
  have h₁ := length_of_readLength _hl
  have h₂ := length_of_readFrame _hf
  omega

/-- The frames of a whole stream. -/
def frames (data : Bytes) : Except DecodeError Frames := framesFrom 0 0 data

end Intake.Columns
