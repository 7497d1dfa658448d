import Intake.Proofs.Columns.Reading
import Intake.Proofs.Rows.Truncation
/-!
# How much comes out of a batch

The number of rows is told beside a batch and may be anything. A row takes
at least a byte (`Rows.length_lt_of_readRow`), so the reader of rows sets
out to read no more of them than there are bytes. A block has no more rows
than its body has bits, and the bodies of a stream stand behind each other
(`Columns.length_of_framesFrom`). Main statement: what comes out of a batch
is bounded by its bytes, whatever it declares (`Codec.records_within_bytes`).
-/

namespace Intake

variable {s : Schema} {l : Layout} {records : List Record}

/-! ## Rows -/

namespace Rows

variable {f : Field} {fs : List Field} {c : Cell} {row : List Cell} {bs rest : Bytes} {n : Int}

theorem length_of_readGroups {groups m : Nat} (h : readGroups groups bs = .ok (m, rest)) :
    rest.length < bs.length := by
  induction groups generalizing bs m with
  | zero => cases h
  | succ groups ih =>
    cases bs with
    | nil => cases h
    | cons b bs =>
      rw [readGroups] at h
      split at h
      · cases h
        exact Nat.lt_succ_self _
      · obtain ⟨⟨m, rest⟩, hrest, heq⟩ := exists_of_map_eq_ok h
        cases heq
        exact Nat.lt_succ_of_lt (ih hrest)

/-- An integer takes at least a byte. -/
theorem length_of_readInt (h : readInt bs = .ok (n, rest)) : rest.length < bs.length := by
  obtain ⟨⟨m, rest⟩, hgroups, heq⟩ := exists_of_map_eq_ok h
  cases heq
  exact length_of_readGroups hgroups

theorem length_of_readInt? (h : readInt? bs = some (n, rest)) : rest.length < bs.length :=
  length_of_readInt (Columns.toOption_eq_some.1 h)

theorem length_of_readLength {m : Nat} (h : readLength bs = some (m, rest)) :
    rest.length < bs.length := by
  unfold readLength at h
  split at h
  · split at h <;> cases h
    exact length_of_readInt ‹_›
  · cases h

/-- A value takes at least a byte, except where there is none: then nothing
is left either. -/
theorem length_of_readCell {type : FieldType} (h : readCell type bs = some (c, rest)) :
    rest.length < bs.length ∨ bs = [] ∧ rest = [] := by
  cases type with
  | boolean =>
    cases bs with
    | nil =>
      cases h
      exact .inr ⟨rfl, rfl⟩
    | cons b bs =>
      rw [readCell] at h
      refine .inl ?_
      split at h
      · cases h
        exact Nat.lt_succ_self _
      · split at h <;> cases h
        exact Nat.lt_succ_self _
  | int64 | timestamp =>
    obtain ⟨⟨n, rest⟩, hint, heq⟩ := Option.map_eq_some_iff.1 h
    cases heq
    exact .inl (length_of_readInt? hint)
  | float64 =>
    obtain ⟨⟨n, rest⟩, hword, heq⟩ := Option.map_eq_some_iff.1 h
    cases heq
    have := Columns.length_of_word? hword
    exact .inl (by omega)
  | string =>
    rw [readCell] at h
    split at h
    · cases h
    rename_i m rest' hlength
    have hless := length_of_readLength hlength
    split at h
    · cases h
      exact .inl (Nat.zero_lt_of_lt hless)
    · rename_i body rest'' hcut
      have := Columns.length_of_cut? hcut
      obtain ⟨t, -, heq⟩ := Option.map_eq_some_iff.1 h
      cases heq
      exact .inl (by omega)
  | bytes =>
    rw [readCell] at h
    obtain ⟨⟨m, rest'⟩, hlength, h⟩ := Option.bind_eq_some_iff.1 h
    obtain ⟨⟨body, rest''⟩, hcut, h⟩ := Option.bind_eq_some_iff.1 h
    cases h
    have hless := length_of_readLength hlength
    have := Columns.length_of_cut? hcut
    exact .inl (by omega)
  | date =>
    rw [readCell] at h
    split at h
    · cases h
    split at h <;> cases h
    exact .inl (length_of_readInt? ‹_›)

/-- So does the cell of a field. -/
theorem length_of_readField (h : readField f bs = some (c, rest)) :
    rest.length < bs.length ∨ bs = [] ∧ rest = [] := by
  unfold readField at h
  split at h
  · split at h
    · cases h
      cases bs with
      | nil => exact .inr ⟨rfl, rfl⟩
      | cons b bs => exact .inl (Nat.zero_lt_succ _)
    · cases h
    · rename_i branch rest' hbranch
      have hless := length_of_readInt hbranch
      split at h
      · cases h
        exact .inl hless
      · split at h
        · rcases length_of_readCell h with hcell | ⟨rfl, rfl⟩
          · exact .inl (Nat.lt_trans hcell hless)
          · exact .inl hless
        · cases h
  · exact length_of_readCell h

theorem length_of_readRow_le (h : readRow fs bs = some (row, rest)) : rest.length ≤ bs.length := by
  induction fs generalizing bs row with
  | nil =>
    cases h
    exact Nat.le_refl _
  | cons f fs ih =>
    rw [readRow] at h
    split at h
    · cases h
    rename_i c bs' hfield
    obtain ⟨⟨cs, bs''⟩, hrest, heq⟩ := Option.map_eq_some_iff.1 h
    cases heq
    refine Nat.le_trans (ih hrest) ?_
    rcases length_of_readField hfield with hless | ⟨rfl, rfl⟩
    · exact Nat.le_of_lt hless
    · exact Nat.le_refl _

/-- **A row takes at least a byte**, whatever the type of its first field,
if there is one. -/
theorem length_lt_of_readRow (hfs : fs ≠ []) (hbs : bs ≠ [])
    (h : readRow fs bs = some (row, rest)) : rest.length < bs.length := by
  obtain ⟨f, fs, rfl⟩ := List.exists_cons_of_ne_nil hfs
  rw [readRow] at h
  split at h
  · cases h
  rename_i c bs' hfield
  obtain ⟨⟨cs, bs''⟩, hrest, heq⟩ := Option.map_eq_some_iff.1 h
  cases heq
  have hle := length_of_readRow_le hrest
  rcases length_of_readField hfield with hless | ⟨hnil, -⟩
  · exact Nat.lt_of_le_of_lt hle hless
  · exact absurd hnil hbs

/-- The reader of rows, with the number of bytes left in front of each row
that it sets out to read. -/
def watchRows (s : Schema) (l : Layout) (declared : UInt64) :
    Nat → Nat → Bytes → Except (DecodeCause × Nat) (List Record) × List Nat
  | 0, _, bs =>
    if bs.isEmpty then (.ok [], []) else (.error (.trailingBytes bs.length declared, bs.length), [])
  | count + 1, index, bs =>
    if bs.isEmpty then (.error (.rowsMissing declared index, 0), [])
    else
      match readRow s.fields bs with
      | none => (.error (.row index .malformed, bs.length), [bs.length])
      | some (row, rest) =>
        match project row [] l.columns with
        | .error fault => (.error (.row index fault, bs.length), [bs.length])
        | .ok cells =>
          let (records, starts) := watchRows s l declared count (index + 1) rest
          (records.map (⟨cells⟩ :: ·), bs.length :: starts)

variable {declared : UInt64} {count index : Nat}

/-- Watching the reader changes nothing. -/
theorem fst_watchRows : (watchRows s l declared count index bs).1 =
    readRows s l declared count index bs := by
  fun_induction watchRows s l declared count index bs with
  | case1 => simp [readRows, *]
  | case2 => simp [readRows, *]
  | case3 => simp [readRows, *]
  | case4 => simp [readRows, *]
  | case5 => simp [readRows, *]
  | case6 count index bs hbs row rest hrow cells hcells records starts hwatch ih =>
    obtain rfl : records = readRows s l declared count (index + 1) rest := by rwa [hwatch] at ih
    simp [readRows, *]

/-- Each row starts with fewer bytes left than the one before. -/
theorem starts_of_watchRows (hs : s.fields ≠ []) :
    (watchRows s l declared count index bs).2.Pairwise (· > ·) ∧
      ∀ n ∈ (watchRows s l declared count index bs).2, 0 < n ∧ n ≤ bs.length := by
  have hpos : ∀ {bs : Bytes}, ¬ bs.isEmpty = true → 0 < bs.length := fun hbs =>
    List.length_pos_iff.2 (by simpa using hbs)
  fun_induction watchRows s l declared count index bs with
  | case1 | case2 | case3 => exact ⟨.nil, List.forall_mem_nil _⟩
  | case4 count index bs hbs | case5 count index bs hbs =>
    exact ⟨List.pairwise_singleton .., List.forall_mem_singleton.2 ⟨hpos hbs, Nat.le_refl _⟩⟩
  | case6 count index bs hbs row rest hrow cells hcells records starts hwatch ih =>
    have hless := length_lt_of_readRow hs (by simpa using hbs) hrow
    rw [hwatch] at ih
    refine ⟨.cons (fun n hn => ?_) ih.1, List.forall_mem_cons.2 ⟨⟨hpos hbs, Nat.le_refl _⟩, ?_⟩⟩
    · exact Nat.lt_of_le_of_lt (ih.2 n hn).2 hless
    · exact fun n hn => ⟨(ih.2 n hn).1, Nat.le_trans (ih.2 n hn).2 (Nat.le_of_lt hless)⟩

theorem length_starts_le : (watchRows s l declared count index bs).2.length ≤ count := by
  fun_induction watchRows s l declared count index bs with
  | case1 | case2 | case3 => exact Nat.zero_le _
  | case4 | case5 => exact Nat.succ_le_succ (Nat.zero_le _)
  | case6 count index bs hbs row rest hrow cells hcells records starts hwatch ih =>
    rw [hwatch] at ih
    exact Nat.succ_le_succ ih

/-- A reader that yields records has set out once for each. -/
theorem length_starts_of_ok (h : readRows s l declared count index bs = .ok records) :
    (watchRows s l declared count index bs).2.length = count := by
  rw [← fst_watchRows] at h
  fun_induction watchRows s l declared count index bs generalizing records with
  | case1 => rfl
  | case2 | case3 | case4 | case5 => cases h
  | case6 count index bs hbs row rest hrow cells hcells records' starts hwatch ih =>
    rw [hwatch] at ih
    obtain ⟨xs, hxs, -⟩ := exists_of_map_eq_ok h
    exact congrArg (· + 1) (ih hxs)

/-- Numbers that fall and stay between zero and a bound are no more than
the bound. -/
theorem length_le_of_falling {ns : List Nat} {bound : Nat} (h : ns.Pairwise (· > ·))
    (hns : ∀ n ∈ ns, 0 < n ∧ n ≤ bound) : ns.length ≤ bound := by
  induction ns generalizing bound with
  | nil => exact Nat.zero_le _
  | cons n ns ih =>
    obtain ⟨hn, hns⟩ := List.forall_mem_cons.1 hns
    obtain ⟨hfall, h⟩ := List.pairwise_cons.1 h
    have hrest : ns.length ≤ n - 1 := ih h fun m hm => by
      have hm' := hfall m hm
      exact ⟨(hns m hm).1, by omega⟩
    rw [List.length_cons]
    omega

end Rows

/-! ## Columns -/

namespace Columns

variable {names : List String} {seen seen' : Seen} {ended : Bool} {f : Frame} {fs : List Frame}
variable {index pos : Nat} {data : Bytes} {here : List Record}

/-- A message that the cutting into frames has let through. -/
def Frame.IsChecked (f : Frame) : Prop :=
  ∃ index, f.message.header.check index f.body.length = .ok ()

theorem Frame.isChecked_of_readFrame {start size : Nat} {rest : Bytes}
    (h : readFrame index start pos size data = .ok (f, rest)) : f.IsChecked := by
  unfold readFrame at h
  split at h
  · cases h
  split at h
  · cases h
  dsimp only at h
  split at h
  · cases h
  split at h
  · cases h
  · rename_i hcheck
    cases h
    exact ⟨index, hcheck⟩

/-- **The bodies of a stream stand behind each other** in it, and each of
its messages was let through. -/
theorem length_of_framesFrom {frames : Frames} (h : framesFrom index pos data = .ok frames) :
    (frames.frames.map Frame.body).flatten.length ≤ data.length ∧
      ∀ f ∈ frames.frames, f.IsChecked := by
  fun_induction framesFrom index pos data generalizing frames with
  | case1 | case3 =>
    cases h
    exact ⟨Nat.zero_le _, List.forall_mem_nil _⟩
  | case2 | case4 | case5 => cases h
  | case6 index pos data _ size next rest hlength _ frame rest' hframe ih =>
    obtain ⟨more, hmore, rfl⟩ := exists_of_map_eq_ok h
    obtain ⟨hbodies, hchecked⟩ := ih hmore
    have hopening := length_of_readLength hlength
    have hmessage := length_of_readFrame hframe
    refine ⟨?_, List.forall_mem_cons.2 ⟨Frame.isChecked_of_readFrame hframe, hchecked⟩⟩
    rw [List.map_cons, List.flatten_cons, List.length_append]
    omega

theorem length_of_rowsOf {count : Nat} {bound : List (Field × List Cell)}
    (h : rowsOf count index bound = .ok records) : records.length = count := by
  induction count generalizing index bound records with
  | zero =>
    cases h
    rfl
  | succ count ih =>
    rw [rowsOf] at h
    split at h
    · cases h
    obtain ⟨rest, hrest, rfl⟩ := exists_of_map_eq_ok h
    exact congrArg (· + 1) (ih hrest)

/-- A block yields as many records as its header tells rows. -/
theorem length_of_blockRecords {count : Nat} {columns : List Column}
    (h : blockRecords l count columns = .ok records) : records.length = count := by
  unfold blockRecords at h
  split at h
  · cases h
  · rename_i bound _
    cases hrows : rowsOf count 0 bound with
    | error cause =>
      rw [hrows] at h
      cases h
    | ok rows =>
      rw [hrows] at h
      cases h
      exact length_of_rowsOf hrows

theorem le_of_fitsBody {body : Nat} {n : Int} (h : fitsBody body n = true) :
    n.toNat ≤ 8 * body := by
  simp only [fitsBody, Bool.and_eq_true, decide_eq_true_eq] at h
  omega

/-- A message adds no more records than its body has bits. -/
theorem Frame.IsChecked.length_le (hf : f.IsChecked)
    (h : f.adds? names l seen = some (seen', here)) : here.length ≤ 8 * f.body.length := by
  obtain ⟨index, hcheck⟩ := hf
  unfold Frame.adds? at h
  split at h
  · split at h <;> cases h
    exact Nat.zero_le _
  · rename_i table hheader
    rw [hheader, Header.check] at hcheck
    split at hcheck
    · cases hcheck
    split at hcheck
    · rename_i hplausible
      rw [BlockTable.isPlausible, Bool.and_eq_true] at hplausible
      split at h
      · cases h
      split at h
      · obtain ⟨records, hrecords, heq⟩ := Option.map_eq_some_iff.1 h
        cases heq
        rw [length_of_blockRecords (toOption_eq_some.1 hrecords)]
        exact le_of_fitsBody hplausible.1
      · cases h
    · cases hcheck
  · cases h
    exact Nat.zero_le _

/-- **Messages that were let through yield no more records than their
bodies have bits.** -/
theorem length_of_yields? (hfs : ∀ f ∈ fs, f.IsChecked)
    (h : yields? names l ended fs seen = some records) :
    records.length ≤ 8 * (fs.map Frame.body).flatten.length := by
  induction fs generalizing seen records with
  | nil =>
    rw [yields?] at h
    split at h <;> cases h
    exact Nat.zero_le _
  | cons f fs ih =>
    obtain ⟨hf, hfs⟩ := List.forall_mem_cons.1 hfs
    obtain ⟨-, seen', here, rest, hadds, hrest, rfl⟩ := yields?_cons_eq_some.1 h
    have hhere := hf.length_le hadds
    have hmore := ih hfs hrest
    rw [List.map_cons, List.flatten_cons, List.length_append, List.length_append]
    omega

/-- A stream yields no more records than it has bits. -/
theorem length_of_decode (h : decode s l data = .ok records) :
    records.length ≤ 8 * data.length := by
  obtain ⟨fs, hfs, hyields⟩ := decode_eq_ok.1 h
  obtain ⟨hbodies, hchecked⟩ := length_of_framesFrom hfs
  have hrecords := length_of_yields? hchecked hyields
  omega

end Columns

/-! ## Batches -/

namespace Codec

variable {selected : List String}

/-- **What comes out of a batch is bounded by its bytes.** Over a resolved
layout and for any batch, whatever it declares: the reader of rows sets out
to read no more rows than are declared and no more than there are bytes,
since of each row it leaves fewer bytes than it found; if it yields records,
then no more rows are declared than there are bytes. The reader of columns
yields no more records than there are bits. -/
theorem records_within_bytes (hl : Layout.resolve selected s = .ok l) (b : Batch) :
    (∃ starts, Rows.watchRows s l b.rowCount b.rowCount.toNat 0 b.data =
        (Rows.readRows s l b.rowCount b.rowCount.toNat 0 b.data, starts) ∧
      starts.Pairwise (· > ·) ∧ starts.length ≤ min b.rowCount.toNat b.data.length) ∧
    (∀ records, decode ⟨.avro, s⟩ l b = .ok records → b.rowCount.toNat ≤ b.data.length) ∧
    ∀ records, decode ⟨.arrow, s⟩ l b = .ok records → records.length ≤ 8 * b.data.length := by
  have hstarts : (Rows.watchRows s l b.rowCount b.rowCount.toNat 0 b.data).2.Pairwise (· > ·) ∧
      ∀ n ∈ (Rows.watchRows s l b.rowCount b.rowCount.toNat 0 b.data).2,
        0 < n ∧ n ≤ b.data.length := Rows.starts_of_watchRows (Layout.fields_ne_nil_of_resolve hl)
  obtain ⟨hfall, hbetween⟩ := hstarts
  have hbytes := Rows.length_le_of_falling hfall hbetween
  refine ⟨⟨_, Prod.ext Rows.fst_watchRows rfl, hfall, Nat.le_min.2 ⟨Rows.length_starts_le, hbytes⟩⟩,
    fun records h => ?_, fun records h => ?_⟩
  · rwa [Rows.length_starts_of_ok (decode_avro_eq_ok.1 h).2] at hbytes
  · exact Columns.length_of_decode (decode_arrow_eq_ok.1 h).2.1

end Codec

namespace Sample

/-- Two rows, told as the largest number of rows there is. -/
def overstated : Batch := ⟨.avro, 0xFFFFFFFFFFFFFFFF, [0x0a, 0x00, 0x0c, 0x00]⟩

end Sample

/-- A reader that is told of more rows than memory has bytes looks for no
more than four in four bytes, and ends at the third. -/
theorem Codec.rows_of_overstated :
    ∃ starts, Rows.watchRows Sample.named Sample.namedLayout 0xFFFFFFFFFFFFFFFF
        (0xFFFFFFFFFFFFFFFF : UInt64).toNat 0 Sample.overstated.data =
        (.error (.rowsMissing 0xFFFFFFFFFFFFFFFF 2, 0), starts) ∧
      starts.Pairwise (· > ·) ∧ starts.length ≤ 4 := by
  have hl : Layout.resolve [] Sample.named = .ok Sample.namedLayout := by decide +kernel
  have hread : Rows.readRows Sample.named Sample.namedLayout 0xFFFFFFFFFFFFFFFF
      (0xFFFFFFFFFFFFFFFF : UInt64).toNat 0 Sample.overstated.data =
      .error (.rowsMissing 0xFFFFFFFFFFFFFFFF 2, 0) := by decide +kernel
  obtain ⟨starts, hwatch, hfall, hlen⟩ := (records_within_bytes hl Sample.overstated).1
  exact ⟨starts, hwatch.trans (congrArg (·, starts) hread), hfall, hlen⟩

end Intake
