import Intake.Proofs.Columns.Truncation
/-!
# The walk over the places of a stream

The cutting into frames takes what it has cut off away from the bytes. Here
the same walk goes over places in the whole data and takes slices between
two of them, with a slice that would be outside of the data as an outcome of
its own. That outcome never comes about, whatever lengths the data tells,
and the walk is the cutting into frames (`walkFrom_eq`).
-/

namespace Intake.Columns

variable {data : Bytes} {index start pos size next : Nat}

/-! ## The walk -/

/-- The bytes from a place up to another, if both are places in the data. -/
def slice? (data : Bytes) (start stop : Nat) : Option Bytes :=
  if start ≤ stop ∧ stop ≤ data.length then some ((data.drop start).take (stop - start)) else none

/-- How many bytes there are from a place on, if it is one in the data. -/
def left? (data : Bytes) (pos : Nat) : Option Nat :=
  if pos ≤ data.length then some (data.length - pos) else none

/-- The word at a place, and where it ends. -/
def wordAt (data : Bytes) (pos : Nat) : Except DecodeError (Nat × Nat) :=
  match slice? data pos (pos + 4) with
  | none => .error ⟨.cutMarker, some pos⟩
  | some w => .ok (Bytes.toNat w, pos + 4)

/-- The length told by the opening at a place, and where the opening ends. -/
def lengthAt (data : Bytes) (pos : Nat) : Except DecodeError (Nat × Nat) :=
  match wordAt data pos with
  | .error e => .error e
  | .ok (n, next) => if n = marker then wordAt data next else .ok (n, next)

/-- Message number `index`, which starts at `start`, with its body at
`pos`; nothing where a slice would be outside of the data. -/
def bodyAt (data : Bytes) (index start pos : Nat) (message : Message) :
    Option (Except DecodeError Frame) := do
  let remaining ← left? data pos
  let length := message.bodyLength.toNat
  if message.bodyLength < 0 ∨ remaining < length then
    return .error ⟨.bodyLength index message.bodyLength remaining, some start⟩
  match message.header.check index length with
  | .error cause => return .error ⟨cause, some start⟩
  | .ok () => return .ok ⟨start, message, pos, ← slice? data pos (pos + length)⟩

/-- The same with `size` bytes of metadata at `pos`. -/
def messageAt (data : Bytes) (index start pos size : Nat) : Option (Except DecodeError Frame) := do
  let remaining ← left? data pos
  if remaining < size then return .error ⟨.metadataLength index size remaining, some start⟩
  match Message.ofBytes? (← slice? data pos (pos + size)) with
  | none => return .error ⟨.invalidMessage index, some start⟩
  | some message => bodyAt data index start (pos + size) message

theorem le_of_slice?_eq_some {stop : Nat} {w : Bytes} (h : slice? data start stop = some w) :
    stop ≤ data.length := by
  unfold slice? at h
  split at h
  · rename_i hplaces
    exact hplaces.2
  · cases h

theorem le_of_wordAt {n : Nat} (h : wordAt data pos = .ok (n, next)) :
    next = pos + 4 ∧ next ≤ data.length := by
  unfold wordAt at h
  split at h
  · cases h
  rename_i w hslice
  cases h
  exact ⟨rfl, le_of_slice?_eq_some hslice⟩

theorem eq_of_wordAt_eq_error {e : DecodeError} (h : wordAt data pos = .error e) :
    e = ⟨.cutMarker, some pos⟩ := by
  unfold wordAt at h
  split at h <;> cases h
  rfl

/-- An opening lies in the data, and behind it the walk has moved on. -/
theorem le_of_lengthAt (h : lengthAt data pos = .ok (size, next)) :
    pos < next ∧ next ≤ data.length := by
  unfold lengthAt at h
  split at h
  · cases h
  rename_i n next' hword
  obtain ⟨hnext, hle⟩ := le_of_wordAt hword
  split at h
  · obtain ⟨hnext', hle'⟩ := le_of_wordAt h
    omega
  · cases h
    omega

/-- The frames from message number `index` on, which starts at the place
`pos` of the data; nothing where a slice would be outside of the data. -/
def walkFrom (data : Bytes) (index pos : Nat) : Option (Except DecodeError Frames) :=
  if pos < data.length then
    match _h : lengthAt data pos with
    | .error e => some (.error e)
    | .ok (size, next) =>
      if size = 0 then
        (left? data next).map fun remaining =>
          if remaining = 0 then .ok ⟨[], true⟩ else .error ⟨.bytesAfterEnd remaining, some next⟩
      else
        match messageAt data index pos next size with
        | none => none
        | some (.error e) => some (.error e)
        | some (.ok f) =>
          (walkFrom data (index + 1) (next + size + f.body.length)).map fun walked =>
            walked.map fun fs => ⟨f :: fs.frames, fs.ended⟩
  else some (.ok ⟨[], false⟩)
termination_by data.length - pos
decreasing_by
  have := le_of_lengthAt _h
  omega

/-- The walk over a whole stream. -/
def walk (data : Bytes) : Option (Except DecodeError Frames) := walkFrom data 0 0

/-! ## It is the cutting into frames -/

/-- What is cut off the bytes from a place on is a slice. -/
theorem cut?_drop (h : pos ≤ data.length) (n : Nat) :
    Bytes.cut? n (data.drop pos) =
      (slice? data pos (pos + n)).map fun w => (w, data.drop (pos + n)) := by
  rw [Bytes.cut?, slice?, List.length_drop, List.drop_drop, Nat.add_sub_cancel_left]
  by_cases hn : n ≤ data.length - pos
  · rw [if_pos hn, if_pos (by omega)]
    rfl
  · rw [if_neg hn, if_neg (by omega)]
    rfl

theorem word?_drop (h : pos ≤ data.length) :
    Bytes.word? 4 (data.drop pos) =
      ((wordAt data pos).map fun p => (p.1, data.drop p.2)).toOption := by
  rw [Bytes.word?, cut?_drop h, wordAt]
  cases slice? data pos (pos + 4) <;> rfl

/-- **The opening at a place** is the one in front of the bytes from there
on. -/
theorem readLength_drop (h : pos ≤ data.length) :
    readLength pos (data.drop pos) =
      (lengthAt data pos).map fun p => (p.1, p.2, data.drop p.2) := by
  rw [readLength, word?_drop h, lengthAt]
  cases hword : wordAt data pos with
  | error e =>
    obtain rfl := eq_of_wordAt_eq_error hword
    rfl
  | ok p =>
    obtain ⟨n, next⟩ := p
    obtain ⟨rfl, hle⟩ := le_of_wordAt hword
    dsimp only [Except.map, Except.toOption]
    split
    · rw [word?_drop hle]
      cases hword' : wordAt data (pos + 4) with
      | error e =>
        obtain rfl := eq_of_wordAt_eq_error hword'
        rfl
      | ok p =>
        obtain ⟨n', next'⟩ := p
        obtain ⟨rfl, -⟩ := le_of_wordAt hword'
        rfl
    · rfl

theorem left?_eq (h : pos ≤ data.length) : left? data pos = some (data.drop pos).length := by
  rw [left?, if_pos h, List.length_drop]

theorem slice?_of_le {size : Nat} (h : pos + size ≤ data.length) :
    slice? data pos (pos + size) = some ((data.drop pos).take size) := by
  rw [slice?, if_pos ⟨Nat.le_add_right _ _, h⟩, Nat.add_sub_cancel_left]

/-- The body at a place is the one in front of the bytes from there on. -/
theorem exists_bodyAt (h : pos ≤ data.length) (index start : Nat) (message : Message) :
    ∃ cut, bodyAt data index start pos message = some cut ∧
      (match if 0 ≤ message.bodyLength then Bytes.cut? message.bodyLength.toNat (data.drop pos)
          else none with
        | none => .error
          ⟨.bodyLength index message.bodyLength (data.drop pos).length, some start⟩
        | some (body, rest) =>
          match message.header.check index body.length with
          | .error cause => .error ⟨cause, some start⟩
          | .ok () => .ok (⟨start, message, pos, body⟩, rest)) =
        cut.map fun f => (f, data.drop (pos + f.body.length)) := by
  rw [bodyAt, left?_eq h]
  simp only [Option.bind_eq_bind, Option.bind_some]
  by_cases hbody : message.bodyLength < 0 ∨ (data.drop pos).length < message.bodyLength.toNat
  · refine ⟨_, if_pos hbody, ?_⟩
    have hnone : (if 0 ≤ message.bodyLength then
        Bytes.cut? message.bodyLength.toNat (data.drop pos) else none) = none := by
      rcases hbody with hneg | hlong
      · exact if_neg (Int.not_le.2 hneg)
      · rw [Bytes.cut?, if_neg (Nat.not_le.2 hlong), ite_self]
    rw [hnone]
    rfl
  · obtain ⟨hnonneg, hfits⟩ := not_or.1 hbody
    rw [List.length_drop] at hfits
    have hstop : pos + message.bodyLength.toNat ≤ data.length := by omega
    have hlength : ((data.drop pos).take message.bodyLength.toNat).length =
        message.bodyLength.toNat := by
      rw [List.length_take, List.length_drop]
      omega
    rw [if_neg hbody, if_pos (Int.not_lt.1 hnonneg), cut?_drop h, slice?_of_le hstop,
      Option.map_some]
    dsimp only
    rw [hlength]
    cases message.header.check index message.bodyLength.toNat with
    | error cause => exact ⟨_, rfl, rfl⟩
    | ok _ =>
      refine ⟨_, rfl, ?_⟩
      dsimp only [Except.map]
      rw [hlength]

/-- **The message at a place** is the one in front of the bytes from there
on, and none of its parts is outside of the data. -/
theorem exists_messageAt (h : pos ≤ data.length) (index start size : Nat) :
    ∃ cut, messageAt data index start pos size = some cut ∧
      readFrame index start pos size (data.drop pos) =
        cut.map fun f => (f, data.drop (pos + size + f.body.length)) := by
  rw [messageAt, left?_eq h, readFrame]
  simp only [Option.bind_eq_bind, Option.bind_some]
  by_cases hsize : (data.drop pos).length < size
  · refine ⟨_, if_pos hsize, ?_⟩
    rw [Bytes.cut?, if_neg (Nat.not_le.2 hsize)]
    rfl
  · have hstop : pos + size ≤ data.length := by
      rw [List.length_drop] at hsize
      omega
    rw [if_neg hsize, cut?_drop h, slice?_of_le hstop, Option.bind_some, Option.map_some]
    dsimp only
    cases Message.ofBytes? ((data.drop pos).take size) with
    | none => exact ⟨_, rfl, rfl⟩
    | some message => exact exists_bodyAt hstop index start message

/-- **The walk is the cutting into frames**, and never looks outside of the
data. -/
theorem walkFrom_eq (h : pos ≤ data.length) (index : Nat) :
    walkFrom data index pos = some (framesFrom index pos (data.drop pos)) := by
  have hmore : ∀ {pos}, pos < data.length → data.drop pos ≠ [] := fun hlt hnil =>
    Nat.not_le.2 hlt (List.drop_eq_nil_iff.1 hnil)
  fun_induction walkFrom data index pos with
  | case1 index pos hlt e hlength =>
    rw [framesFrom_eq (hmore hlt), readLength_drop h, hlength]
    rfl
  | case2 index pos hlt next hlength =>
    -- a length of zero: what is left decides
    rw [framesFrom_eq (hmore hlt), readLength_drop h, hlength, left?_eq (le_of_lengthAt hlength).2]
    dsimp only [Except.map]
    rw [if_pos rfl]
    cases data.drop next <;> rfl
  | case3 index pos hlt size next hlength hsize houtside =>
    obtain ⟨cut, hcut, -⟩ := exists_messageAt (le_of_lengthAt hlength).2 index pos size
    rw [houtside] at hcut
    cases hcut
  | case4 index pos hlt size next hlength hsize e he =>
    obtain ⟨cut, hcut, hframe⟩ := exists_messageAt (le_of_lengthAt hlength).2 index pos size
    obtain rfl := Option.some.inj (he.symm.trans hcut)
    rw [framesFrom_eq (hmore hlt), readLength_drop h, hlength]
    dsimp only [Except.map]
    rw [if_neg hsize, hframe]
    rfl
  | case5 index pos hlt size next hlength hsize f hf ih =>
    obtain ⟨cut, hcut, hframe⟩ := exists_messageAt (le_of_lengthAt hlength).2 index pos size
    obtain rfl := Option.some.inj (hf.symm.trans hcut)
    have hstop : next + size + f.body.length ≤ data.length := by
      have hinside := length_of_readFrame hframe
      have hnext := (le_of_lengthAt hlength).2
      simp only [List.length_drop] at hinside
      omega
    rw [framesFrom_eq (hmore hlt), readLength_drop h, hlength, ih hstop]
    dsimp only [Except.map]
    rw [if_neg hsize, hframe]
    rfl
  | case6 index pos hge =>
    rw [List.drop_eq_nil_of_le (Nat.not_lt.1 hge), framesFrom_nil]

end Intake.Columns
