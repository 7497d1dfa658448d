import Intake.Proofs.Columns.Reading
import Intake.Proofs.Columns.RoundTrip
import Intake.Proofs.Rows.Truncation
import Mathlib.Data.List.Flatten
/-!
# Column batches cut short

What has been cut off a stream is cut off the same way with more behind it
(`framesFrom_append`), so a stream that is cut short has the first messages
of the whole one or cannot be cut at all, and yields the first of its
records or none (`decode_prefix`). Whether some are missing then shows in
the number that is told. Main statement: of a stream that was written for
blocks, nothing but blocks without rows and the mark at its end may be
missing without an error (`Codec.decode_take_columns`).
-/

namespace Intake.Columns

variable {bs w rest t : Bytes} {n index pos size next : Nat}

/-! ## More bytes behind -/

theorem cut?_append_right (h : Bytes.cut? n bs = some (w, rest)) (t : Bytes) :
    Bytes.cut? n (bs ++ t) = some (w, rest ++ t) := by
  unfold Bytes.cut? at h
  split at h
  · rename_i hle
    cases h
    rw [Bytes.cut?, if_pos (by rw [List.length_append]; omega), List.take_append_of_le_length hle,
      List.drop_append_of_le_length hle]
  · cases h

theorem word?_append_right {m : Nat} (h : Bytes.word? n bs = some (m, rest)) (t : Bytes) :
    Bytes.word? n (bs ++ t) = some (m, rest ++ t) := by
  obtain ⟨⟨w, rest⟩, hcut, heq⟩ := Option.map_eq_some_iff.1 h
  cases heq
  rw [Bytes.word?, cut?_append_right hcut]
  rfl

theorem readLength_append (h : readLength pos bs = .ok (size, next, rest)) (t : Bytes) :
    readLength pos (bs ++ t) = .ok (size, next, rest ++ t) := by
  unfold readLength at h
  split at h
  · cases h
  rename_i m rest' hword
  rw [readLength, word?_append_right hword]
  dsimp only
  split at h
  · rename_i hmarker
    rw [if_pos hmarker]
    split at h
    · cases h
    rename_i m' rest'' hword'
    cases h
    rw [word?_append_right hword']
  · rename_i hmarker
    rw [if_neg hmarker]
    cases h
    rfl

/-- Where the metadata of a message starts. -/
theorem next_of_readLength (h : readLength pos bs = .ok (size, next, rest)) :
    next + rest.length = pos + bs.length := by
  unfold readLength at h
  split at h
  · cases h
  rename_i m rest' hword
  have hfirst := length_of_word? hword
  split at h
  · split at h
    · cases h
    rename_i m' rest'' hword'
    have hsecond := length_of_word? hword'
    cases h
    omega
  · cases h
    omega

theorem readFrame_append {start : Nat} {f : Frame}
    (h : readFrame index start pos size bs = .ok (f, rest)) (t : Bytes) :
    readFrame index start pos size (bs ++ t) = .ok (f, rest ++ t) := by
  unfold readFrame at h
  split at h
  · cases h
  rename_i metadata rest' hcut
  split at h
  · cases h
  rename_i message hmessage
  rw [readFrame, cut?_append_right hcut]
  dsimp only at h ⊢
  rw [hmessage]
  dsimp only
  by_cases hbody : 0 ≤ message.bodyLength
  · rw [if_pos hbody] at h ⊢
    split at h
    · cases h
    rename_i body rest'' hcut'
    rw [cut?_append_right hcut']
    dsimp only
    split at h
    · cases h
    cases h
    rfl
  · rw [if_neg hbody] at h
    cases h

/-- **A stream with more behind it** is cut into its messages and those
that follow. Behind the mark at its end nothing may follow. -/
theorem framesFrom_append {fs : Frames} (h : framesFrom index pos bs = .ok fs) (t : Bytes) :
    (fs.ended = false → framesFrom index pos (bs ++ t) =
      (framesFrom (index + fs.frames.length) (pos + bs.length) t).map fun gs =>
        ⟨fs.frames ++ gs.frames, gs.ended⟩) ∧
    (fs.ended = true → t ≠ [] → ∃ e, framesFrom index pos (bs ++ t) = .error e) := by
  fun_induction framesFrom index pos bs generalizing fs with
  | case1 index pos bs hempty =>
    cases h
    obtain rfl : bs = [] := by simpa using hempty
    refine ⟨fun _ => ?_, nofun⟩
    cases hfs : framesFrom index pos t <;> simp [hfs, Except.map]
  | case2 | case4 | case5 => cases h
  | case3 index pos bs hne next rest hrest hlength =>
    cases h
    obtain rfl : rest = [] := by simpa using hrest
    refine ⟨nofun, fun _ ht => ⟨⟨.bytesAfterEnd t.length, some next⟩, ?_⟩⟩
    have hnonempty : bs ++ t ≠ [] := fun h => ht (List.append_eq_nil_iff.1 h).2
    have hmore : ¬ t.isEmpty = true := by simpa using ht
    rw [framesFrom_eq hnonempty, readLength_append hlength, List.nil_append]
    dsimp only
    rw [if_pos rfl, if_neg hmore]
  | case6 index pos bs hne size next rest hlength hsize f rest' hframe ih =>
    obtain ⟨gs, hgs, rfl⟩ := exists_of_map_eq_ok h
    obtain ⟨hopen, hended⟩ := ih hgs
    have hnonempty : bs ++ t ≠ [] := fun h => hne (by simpa using (List.append_eq_nil_iff.1 h).1)
    have hplace := next_of_readLength hlength
    have hlen := length_of_readFrame hframe
    rw [framesFrom_eq hnonempty, readLength_append hlength]
    dsimp only
    rw [if_neg hsize, readFrame_append hframe]
    dsimp only
    constructor
    · intro h
      rw [hopen h, List.length_cons, Nat.add_right_comm index, Nat.add_assoc index]
      have hpos : next + size + f.body.length + rest'.length = pos + bs.length := by omega
      rw [hpos]
      cases framesFrom (index + (gs.frames.length + 1)) (pos + bs.length) t <;> rfl
    · intro h ht
      obtain ⟨e, he⟩ := hended h ht
      exact ⟨e, by rw [he]; rfl⟩

/-- A stream that is cut into messages, though more was behind it, has the
first messages of the whole. -/
theorem exists_of_framesFrom_append {fs gs : Frames} (ht : t ≠ [])
    (h : framesFrom index pos bs = .ok gs) (hall : framesFrom index pos (bs ++ t) = .ok fs) :
    gs.ended = false ∧ ∃ more,
      framesFrom (index + gs.frames.length) (pos + bs.length) t = .ok more ∧
        fs = ⟨gs.frames ++ more.frames, more.ended⟩ := by
  obtain ⟨hopen, hended⟩ := framesFrom_append h t
  cases hgs : gs.ended with
  | true =>
    obtain ⟨e, he⟩ := hended hgs ht
    rw [hall] at he
    cases he
  | false =>
    rw [hopen hgs] at hall
    obtain ⟨more, hmore, rfl⟩ := exists_of_map_eq_ok hall
    exact ⟨rfl, more, hmore, rfl⟩

/-- Only a stream without bytes has neither a message nor a mark. -/
theorem eq_nil_of_framesFrom (h : framesFrom index pos bs = .ok ⟨[], false⟩) : bs = [] := by
  by_contra hne
  rw [framesFrom_eq hne] at h
  split at h
  · cases h
  split at h
  · split at h <;> cases h
  split at h
  · cases h
  obtain ⟨gs, -, hgs⟩ := exists_of_map_eq_ok h
  cases hgs

/-! ## Streams cut short -/

variable {names : List String} {s : Schema} {l : Layout} {seen : Seen} {ended : Bool}
variable {fs gs : List Frame} {records cut : List Record}

/-- The first messages of a stream yield the first of its records. -/
theorem yields?_prefix (h : yields? names l ended (fs ++ gs) seen = some records)
    (hcut : yields? names l false fs seen = some cut) : cut <+: records := by
  induction fs generalizing seen records cut with
  | nil =>
    rw [yields?] at hcut
    split at hcut <;> cases hcut
    exact List.nil_prefix
  | cons f fs ih =>
    obtain ⟨-, seen', here, rest, hadds, hrest, rfl⟩ := yields?_cons_eq_some.1 h
    obtain ⟨-, seen'', here', rest', hadds', hrest', rfl⟩ := yields?_cons_eq_some.1 hcut
    rw [hadds] at hadds'
    cases hadds'
    exact (List.prefix_append_right_inj here).2 (ih hrest hrest')

/-- **What is left of a stream yields the first of its records**, if it
yields any. -/
theorem decode_prefix (h : decode s l (bs ++ t) = .ok records) (hcut : decode s l bs = .ok cut) :
    cut <+: records := by
  by_cases ht : t = []
  · rw [ht, List.append_nil, hcut] at h
    cases h
    exact List.prefix_rfl
  · obtain ⟨fs, hfs, hyields⟩ := decode_eq_ok.1 h
    obtain ⟨gs, hgs, hyields'⟩ := decode_eq_ok.1 hcut
    obtain ⟨hopen, more, -, rfl⟩ := exists_of_framesFrom_append ht hgs hfs
    rw [hopen] at hyields'
    exact yields?_prefix hyields hyields'

/-- Messages that are all read without a mark behind them are read with
it. -/
theorem yields?_of_unended (h : yields? names l false fs seen = some records) :
    yields? names l true fs seen = some records := by
  induction fs generalizing seen records with
  | nil => exact h
  | cons f fs ih =>
    obtain ⟨-, seen', here, rest, hadds, hrest, rfl⟩ := yields?_cons_eq_some.1 h
    have hread : ¬ f.IsUnread true fs := fun hunread => Bool.false_ne_true hunread.2.2
    exact yields?_cons_eq_some.2 ⟨hread, seen', here, rest, hadds, ih hrest, rfl⟩

/-- A stream that yields records without the mark at its end yields them
with it. -/
theorem decode_append_endMark {fs : Frames} (hfs : frames bs = .ok fs) (hended : fs.ended = false)
    (h : decode s l bs = .ok records) : decode s l (bs ++ endMark) = .ok records := by
  obtain ⟨gs, hgs, hyields⟩ := decode_eq_ok.1 h
  obtain rfl : fs = gs := Except.ok.inj (hfs.symm.trans hgs)
  rw [hended] at hyields
  refine decode_eq_ok.2 ⟨⟨fs.frames, true⟩, ?_, yields?_of_unended hyields⟩
  rw [frames, (framesFrom_append hfs endMark).1 hended, framesFrom_endMark]
  simp [Except.map]

/-! ## Written streams cut short -/

variable {metadata body : Bytes} {m : Message} {blocks : List (List Record)}

/-- A message that is cut short is none. -/
theorem eq_nil_of_cut_writeFrame {fs : Frames} (h : IsMessage metadata body m)
    (hbs : bs ++ t = writeFrame metadata body) (ht : t ≠ [])
    (hfs : framesFrom index pos bs = .ok fs) : bs = [] := by
  have hall := framesFrom_writeFrame h index pos []
  rw [List.append_nil, ← hbs, framesFrom_nil] at hall
  obtain ⟨hopen, more, hmore, heq⟩ := exists_of_framesFrom_append ht hfs hall
  obtain ⟨gs, ended⟩ := fs
  cases gs with
  | nil =>
    obtain rfl : ended = false := hopen
    exact eq_nil_of_framesFrom hfs
  | cons f gs =>
    -- the one message has been read, so nothing is left for the rest to be
    obtain ⟨frames, ended'⟩ := more
    obtain ⟨⟨-, rfl, rfl⟩, rfl⟩ : (_ = f ∧ gs = [] ∧ frames = []) ∧ false = ended' := by
      simpa using heq
    exact absurd (eq_nil_of_framesFrom hmore) ht

/-- And so is the mark at the end of a stream. -/
theorem eq_nil_of_cut_endMark {fs : Frames} (hbs : bs ++ t = endMark) (ht : t ≠ [])
    (hfs : framesFrom index pos bs = .ok fs) : bs = [] := by
  have hall := framesFrom_endMark index pos
  rw [← hbs] at hall
  obtain ⟨hopen, more, -, heq⟩ := exists_of_framesFrom_append ht hfs hall
  obtain ⟨gs, ended⟩ := fs
  obtain rfl : ended = false := hopen
  obtain rfl : gs = [] := by
    have hnil : [] = gs ++ more.frames := congrArg Frames.frames heq
    exact (List.append_eq_nil_iff.1 hnil.symm).1
  exact eq_nil_of_framesFrom hfs

/-- Messages of a stream, each with its metadata and its body. -/
def writeFrames (messages : List (Bytes × Bytes)) : Bytes :=
  (messages.map fun m => writeFrame m.1 m.2).flatten

/-- **What is cut into messages ends between two of those that were
written.** -/
theorem exists_take_of_framesFrom {messages : List (Bytes × Bytes)} {fs : Frames}
    (h : ∀ bytes ∈ messages, ∃ m, IsMessage bytes.1 bytes.2 m)
    (hbs : bs ++ t = writeFrames messages ++ endMark) (ht : t ≠ [])
    (hfs : framesFrom index pos bs = .ok fs) :
    fs.ended = false ∧ ∃ k, bs = writeFrames (messages.take k) := by
  induction messages generalizing bs index pos fs with
  | nil =>
    obtain rfl := eq_nil_of_cut_endMark hbs ht hfs
    rw [framesFrom_nil] at hfs
    cases hfs
    exact ⟨rfl, 0, rfl⟩
  | cons bytes messages ih =>
    obtain ⟨⟨m, hm⟩, hrest⟩ := List.forall_mem_cons.1 h
    rw [writeFrames, List.map_cons, List.flatten_cons, List.append_assoc] at hbs
    rcases List.append_eq_append_iff.1 hbs with ⟨mid, hmid, rfl⟩ | ⟨mid, rfl, hmid⟩
    · by_cases hcut : mid = []
      · -- the cut is right behind the first message
        rw [hcut, List.append_nil] at hmid
        rw [← hmid, ← List.append_nil (writeFrame bytes.1 bytes.2), framesFrom_writeFrame hm,
          framesFrom_nil] at hfs
        cases hfs
        exact ⟨rfl, 1, by simp [writeFrames, hmid]⟩
      · obtain rfl := eq_nil_of_cut_writeFrame hm hmid.symm hcut hfs
        rw [framesFrom_nil] at hfs
        cases hfs
        exact ⟨rfl, 0, rfl⟩
    · rw [framesFrom_writeFrame hm] at hfs
      obtain ⟨gs, hgs, rfl⟩ := exists_of_map_eq_ok hfs
      obtain ⟨hended, k, hk⟩ := ih hrest hmid.symm hgs
      exact ⟨hended, k + 1, by rw [hk]; rfl⟩

/-- The metadata at the front of a stream was read, if anything was cut off
it. -/
theorem exists_message_of_framesFrom {fs : Frames} (hsome : metadata ≠ [])
    (hle : metadata.length ≤ metadataLimit) (hbs : bs ++ t = writeFrame metadata body ++ rest)
    (hne : bs ≠ []) (hfs : framesFrom index pos bs = .ok fs) :
    ∃ m, Message.ofBytes? metadata = some m := by
  have hlength := readLength_writeFrame hle pos (metadata ++ (body ++ rest))
  have hflat : writeFrame metadata body ++ rest =
      Bytes.ofNat 4 marker ++ (Bytes.ofNat 4 metadata.length ++ (metadata ++ (body ++ rest))) := by
    simp only [writeFrame, List.append_assoc]
  rw [← hflat, ← hbs] at hlength
  rw [framesFrom_eq hne] at hfs
  split at hfs
  · cases hfs
  rename_i size next rest' hread
  have hmore := readLength_append hread t
  rw [hlength] at hmore
  obtain ⟨rfl, -, hrest⟩ : metadata.length = size ∧ pos + 8 = next ∧
      metadata ++ (body ++ rest) = rest' ++ t := by simpa using hmore
  rw [if_neg fun h => hsome (List.length_eq_zero_iff.1 h)] at hfs
  split at hfs
  · cases hfs
  rename_i f rest'' hframe
  have hframe' := readFrame_append hframe t
  rw [← hrest, readFrame, Rows.cut?_append] at hframe'
  dsimp only at hframe'
  cases hm : Message.ofBytes? metadata with
  | none =>
    rw [hm] at hframe'
    cases hframe'
  | some m => exact ⟨m, rfl⟩

variable {selected : List String}

/-- The messages of a stream of blocks. -/
def messagesOf (w : StreamWriter) (s : Schema) (blocks : List (List Record)) :
    List (Bytes × Bytes) :=
  (w.opening s, []) :: blocks.map fun rs => w.block rs.length (columnsFrom rs 0 s.fields)

theorem streamBytes_eq (w : StreamWriter) (s : Schema) (blocks : List (List Record)) :
    streamBytes w s blocks = writeFrames (messagesOf w s blocks) ++ endMark := by
  rw [streamBytes, writeFrames, messagesOf, List.map_cons, List.map_map, List.flatten_cons]
  rfl

/-- **What is left of the stream of blocks, if it yields records, is the
stream of the first blocks**, without the mark at its end. -/
theorem exists_take_of_decode {w : StreamWriter} (hl : Layout.resolve selected s = .ok l)
    (hw : w.IsHonest s blocks) (hs : (w.opening s).length ≤ metadataLimit)
    (h : ∀ rs ∈ blocks, IsFilled s rs) (hbs : bs ++ t = streamBytes w s blocks) (ht : t ≠ [])
    (hdecode : decode s l bs = .ok records) :
    (∃ m, Message.ofBytes? (w.opening s) = some m) ∧
      ∃ k, bs ++ endMark = streamBytes w s (blocks.take k) ∧
        records = (blocks.take k).flatten.map (handed l) := by
  have hne := Layout.fields_ne_nil_of_resolve hl
  obtain ⟨fs, hfs, -⟩ := decode_eq_ok.1 hdecode
  have hsome : bs ≠ [] := by
    rintro rfl
    cases hdecode
  have hbs' : bs ++ t = writeFrame (w.opening s) [] ++
      ((blocks.map (blockBytes w s)).flatten ++ endMark) := by
    rw [hbs, streamBytes, List.append_assoc]
  obtain ⟨m, hm⟩ := exists_message_of_framesFrom hw.opening_ne_nil hs hbs' hsome hfs
  have hmessages : ∀ bytes ∈ messagesOf w s blocks, ∃ m, IsMessage bytes.1 bytes.2 m := by
    refine List.forall_mem_cons.2 ⟨⟨m, hw.isMessage_opening hs hm⟩,
      List.forall_mem_map.2 fun rs hrs => ?_⟩
    obtain ⟨m, -, hmessage, -⟩ := hw.exists_isMessage hne hrs (h rs hrs)
    exact ⟨m, hmessage⟩
  obtain ⟨hended, k, hk⟩ :=
    exists_take_of_framesFrom hmessages (hbs.trans (streamBytes_eq w s blocks)) ht hfs
  refine ⟨⟨m, hm⟩, ?_⟩
  cases k with
  | zero => exact absurd hk hsome
  | succ k =>
    have htake : bs ++ endMark = streamBytes w s (blocks.take k) := by
      rw [hk, streamBytes_eq, messagesOf, messagesOf, List.take_succ_cons, List.map_take]
    refine ⟨k, htake, ?_⟩
    have hall : decode s l (streamBytes w s (blocks.take k)) = .ok records :=
      htake ▸ decode_append_endMark hfs hended hdecode
    rw [decode_streamBytes hl (hw.of_subset (List.take_subset k blocks)) hs hm
      fun rs hrs => h rs (List.mem_of_mem_take hrs)] at hall
    exact (Except.ok.inj hall).symm

end Intake.Columns

namespace Intake.Codec

variable {s : Schema} {selected : List String} {l : Layout}

open Columns in
/-- **No row of a column batch is lost unnoticed.** When part of a stream
is cut off and the batch tells as many rows as before, then it is refused,
or yields just the records of the whole, whatever the stream. Of one that
an honest writer made of blocks of rows, the latter means that nothing is
missing but blocks without rows and the mark at its end: with that mark,
what is left is the stream of the other blocks. -/
theorem decode_take_columns (hl : Layout.resolve selected s = .ok l) :
    (∀ (b : Batch) (n : Nat) (records : List Record), decode ⟨.arrow, s⟩ l b = .ok records →
      (∃ e, decode ⟨.arrow, s⟩ l { b with data := b.data.take n } = .error e) ∨
        decode ⟨.arrow, s⟩ l { b with data := b.data.take n } = .ok records) ∧
    ∀ (w : StreamWriter) (blocks : List (List Record)) (data : Bytes) (count : UInt64) (n : Nat),
      w.IsHonest s blocks → encode w s blocks = .ok data →
      count.toNat = blocks.flatten.length → n < data.length →
        (∃ e, decode ⟨.arrow, s⟩ l ⟨.arrow, count, data.take n⟩ = .error e) ∨
        ∃ records, decode ⟨.arrow, s⟩ l ⟨.arrow, count, data.take n⟩ = .ok records ∧
          decode ⟨.arrow, s⟩ l ⟨.arrow, count, data⟩ = .ok records ∧
          ∃ k, (∀ rs ∈ blocks.drop k, rs = []) ∧
            encode w s (blocks.take k) = .ok (data.take n ++ endMark) := by
  constructor
  · intro b n records h
    cases hcut : decode ⟨.arrow, s⟩ l { b with data := b.data.take n } with
    | error e => exact .inl ⟨e, rfl⟩
    | ok cut =>
      obtain ⟨-, hdecode, hlen⟩ := decode_arrow_eq_ok.1 h
      obtain ⟨-, hdecode', hlen'⟩ := decode_arrow_eq_ok.1 hcut
      rw [← List.take_append_drop n b.data] at hdecode
      have hfirst := decode_prefix hdecode hdecode'
      exact .inr (congrArg _ (hfirst.eq_of_length (hlen'.trans hlen.symm)))
  · intro w blocks data count n hw hdata hcount hn
    cases hcut : decode ⟨.arrow, s⟩ l ⟨.arrow, count, data.take n⟩ with
    | error e => exact .inl ⟨e, rfl⟩
    | ok records =>
      have hne := Layout.fields_ne_nil_of_resolve hl
      obtain ⟨hs, hfilled, rfl⟩ := (encode_eq_ok_iff hne hw).1 hdata
      obtain ⟨-, hdecode, hlen⟩ := decode_arrow_eq_ok.1 hcut
      have hmissing : (streamBytes w s blocks).drop n ≠ [] := by
        rw [Ne, List.drop_eq_nil_iff]
        omega
      obtain ⟨⟨m, hm⟩, k, hk, rfl⟩ := exists_take_of_decode hl hw hs hfilled
        (List.take_append_drop n _) hmissing hdecode
      -- as many rows are left as there were, so that none is behind the cut
      have hempty : (blocks.drop k).flatten = [] := by
        rw [List.length_map, hcount] at hlen
        have hsum := congrArg (fun bs => (List.flatten bs).length) (List.take_append_drop k blocks)
        simp only [List.flatten_append, List.length_append] at hsum
        exact List.length_eq_zero_iff.1 (by omega)
      have hsame : (blocks.take k).flatten = blocks.flatten := by
        conv_rhs => rw [← List.take_append_drop k blocks, List.flatten_append, hempty,
          List.append_nil]
      refine .inr ⟨_, rfl, ?_, k, List.flatten_eq_nil_iff.1 hempty, ?_⟩
      · rw [hsame]
        rw [hsame] at hlen
        exact decode_arrow_eq_ok.2 ⟨rfl, decode_streamBytes hl hw hs hm hfilled, hlen⟩
      · rw [hk]
        exact (encode_eq_ok_iff hne (hw.of_subset (List.take_subset k blocks))).2
          ⟨hs, fun rs hrs => hfilled rs (List.mem_of_mem_take hrs), rfl⟩

end Intake.Codec

namespace Intake

/-- A stream of 1224 bytes that was sent yields its rows without the last
328, which are the block without rows and the mark. -/
theorem Codec.decode_take_of_sentBlocks :
    ∃ data, Columns.encode Sample.sentWriter Sample.schema [Sample.eightRows, []] = .ok data ∧
      896 < data.length ∧
      ∃ records, Codec.decode ⟨.arrow, Sample.schema⟩ Sample.scoreLayout
          ⟨.arrow, 8, data.take 896⟩ = .ok records ∧
        Codec.decode ⟨.arrow, Sample.schema⟩ Sample.scoreLayout ⟨.arrow, 8, data⟩ =
          .ok records ∧
        ∃ k, (∀ rs ∈ [Sample.eightRows, []].drop k, rs = []) ∧
          Columns.encode Sample.sentWriter Sample.schema ([Sample.eightRows, []].take k) =
            .ok (data.take 896 ++ Columns.endMark) := by
  have hw : Sample.sentWriter.IsHonest Sample.schema [Sample.eightRows, []] :=
    (Sample.implements_sentBlocks (by simp)).toIsHonest
  have hrun : (Columns.encode Sample.sentWriter Sample.schema [Sample.eightRows, []]).map
      (fun data => (data.length, Codec.decode ⟨.arrow, Sample.schema⟩ Sample.scoreLayout
        ⟨.arrow, 8, data.take 896⟩)) = .ok (1224, .ok Sample.eightScores) := by
    decide +kernel
  obtain ⟨data, hdata, heq⟩ := exists_of_map_eq_ok hrun
  obtain ⟨hlen, hcut⟩ := Prod.mk.inj heq
  refine ⟨data, hdata, by omega, ?_⟩
  rcases (Codec.decode_take_columns Sample.resolve_score).2 Sample.sentWriter
    [Sample.eightRows, []] data 8 896 hw hdata rfl (by omega) with ⟨e, he⟩ | h
  · rw [hcut] at he
    cases he
  · exact h

end Intake
