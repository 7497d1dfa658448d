import Intake.Proofs.Columns.Writers
import Intake.Proofs.Rows.RoundTrip
/-!
# Buffers of values read

The buffers that carry a column hold its cells: the first bits and words
are those of its slots, and the offsets of a column of texts cut its bytes
where they were put together. Where a column has nulls, its bitmap puts
them back (`Fills.masked`), so that every reader of values yields the cells
of the column (`buildBits_eq_ok`, `buildWords_eq_ok`,
`buildStretches_eq_ok`).
-/

namespace Intake.Columns

variable {type : FieldType} {cells slots : List Cell} {nulls values : Bytes} {l : Lists}

/-! ## Nulls -/

theorem bitsOf_cons (b : UInt8) (bs : Bytes) :
    bitsOf (b :: bs) = (List.range 8).map b.toNat.testBit ++ bitsOf bs := rfl

theorem length_bitsOf (bs : Bytes) : (bitsOf bs).length = 8 * bs.length := by
  induction bs with
  | nil => rfl
  | cons b bs ih =>
    rw [bitsOf_cons, List.length_append, ih, List.length_map, List.length_range, List.length_cons]
    omega

/-- A buffer that opens with so many bits has room for them. -/
theorem length_le_of_prefix {bits : List Bool} {bs : Bytes} (h : bits <+: bitsOf bs) :
    bits.length ≤ 8 * bs.length :=
  Nat.le_trans h.length_le (Nat.le_of_eq (length_bitsOf bs))

/-- The slots of a column that are not null. -/
def validOf (cells : List Cell) : Bits :=
  if cells.any Cell.isNull then some (cells.map fun c => !c.isNull) else none

/-- The number of nulls of a column. -/
def nullCount (cells : List Cell) : Nat := (cells.filter Cell.isNull).length

theorem nullCount_eq_zero : nullCount cells = 0 ↔ cells.any Cell.isNull = false := by
  rw [nullCount, List.length_eq_zero_iff, List.filter_eq_nil_iff, List.any_eq_false]

theorem nulls_validOf (cells : List Cell) : (validOf cells).nulls = nullCount cells := by
  unfold validOf
  split
  · rw [Bits.nulls, nullCount, List.count_eq_countP, List.countP_map, List.countP_eq_length_filter]
    congr 2
    funext c
    cases c <;> rfl
  · rename_i h
    exact (nullCount_eq_zero.2 (by simpa using h)).symm

/-- Cells are null again where the bitmap says so, whatever stands there. -/
theorem masked_validOf {xs : List Cell}
    (h : List.Forall₂ (fun c x => c.isNull = false → x = c) cells xs) :
    masked (validOf cells) xs = cells := by
  unfold validOf
  split
  · -- under a bitmap a null is taken for null, and any other slot as it is
    rename_i hany
    clear hany
    rw [masked]
    induction h with
    | nil => rfl
    | @cons c x cells xs hx _ ih =>
      have hcell : (if !c.isNull then x else .null) = c := by
        cases hnull : c.isNull with
        | false => simpa using hx hnull
        | true =>
          cases c with
          | null => rfl
          | _ => cases hnull
      rw [List.map_cons, List.zipWith_cons_cons, ih, hcell]
  · rename_i hany
    rw [masked]
    induction h with
    | nil => rfl
    | @cons c x cells xs hx _ ih =>
      rw [List.any_cons, Bool.or_eq_true, not_or] at hany
      rw [hx (by simpa using hany.1), ih hany.2]

/-- **Slots that are read as they were written** are the cells again, under
the bitmap. -/
theorem Fills.masked {g : Cell → Cell} (h : Fills type cells slots)
    (hg : ∀ x : Cell, x.type? = some type → g x = x) :
    masked (validOf cells) (slots.map g) = cells := by
  refine masked_validOf ?_
  obtain ⟨htype, hsame⟩ := h
  induction hsame with
  | nil => exact .nil
  | @cons c x cells slots hx _ ih =>
    obtain ⟨hfirst, hrest⟩ := List.forall_mem_cons.1 htype
    refine .cons (fun hnull => ?_) (ih hrest)
    obtain rfl := hx hnull
    rcases hfirst with rfl | hfirst
    · cases hnull
    · exact hg _ hfirst

/-- The bitmap is read back. -/
theorem bitmap_eq_ok (h : HoldsNulls cells nulls) (l : Lists) :
    bitmap nulls cells.length (nullCount cells) l = .ok (validOf cells, l) := by
  unfold bitmap validOf
  cases hany : cells.any Cell.isNull with
  | false =>
    rw [if_pos (nullCount_eq_zero.2 hany)]
    rfl
  | true =>
    have hcount : nullCount cells ≠ 0 := by
      rw [Ne, nullCount_eq_zero, hany]
      exact Bool.noConfusion
    have hroom := length_le_of_prefix (h hany)
    have hbits := List.prefix_iff_eq_take.1 (h hany)
    rw [List.length_map] at hroom hbits
    rw [if_neg hcount, if_neg (by omega), if_pos rfl, ← hbits]
    rfl

theorem requireRoom_eq_ok (cells : List Cell) (l : Lists) :
    requireRoom cells.length (nullCount cells) l = .ok ((), l) := by
  have hle : nullCount cells ≤ cells.length := List.length_filter_le _ _
  rw [requireRoom, if_neg (by omega)]
  rfl

theorem requireNulls_eq_ok (cells : List Cell) (l : Lists) :
    requireNulls (validOf cells) (nullCount cells) l = .ok ((), l) := by
  rw [requireNulls, if_neg fun h => h.2 (nulls_validOf cells)]
  rfl

/-- A reader of columns goes on with what it has read. -/
theorem bind_eq_of_ok {α β : Type} {m : Build α} {f : α → Build β} {l l' : Lists} {a : α}
    (h : m l = .ok (a, l')) : (m >>= f) l = f a l' := by
  simp only [bind, StateT.bind, h, Except.bind]

/-! ## Columns of bits and words -/

/-- What a column of a type is read as. -/
def columnFor (type : FieldType) (cells : List Cell) : Column :=
  .plain (columnType type) cells.length (validOf cells) cells

/-- **A column of truth values is read back.** -/
theorem buildBits_eq_ok (h : Fills .boolean cells slots) (hnulls : HoldsNulls cells nulls)
    (hvalues : (slots.map fun c => c == .boolean true) <+: bitsOf values) :
    buildBits cells.length (nullCount cells) nulls values l =
      .ok (columnFor .boolean cells, l) := by
  have hroom := length_le_of_prefix hvalues
  have hbits := List.prefix_iff_eq_take.1 hvalues
  rw [List.length_map, ← h.same.length_eq] at hroom hbits
  have hcells : masked (validOf cells)
      ((slots.map fun c => c == .boolean true).map Cell.boolean) = cells := by
    rw [List.map_map]
    refine h.masked fun c htype => ?_
    cases c with
    | boolean b => cases b <;> rfl
    | _ => cases htype
  rw [buildBits, bind_eq_of_ok (bitmap_eq_ok hnulls l), if_neg (by omega),
    bind_eq_of_ok (requireRoom_eq_ok cells l), bind_eq_of_ok (requireNulls_eq_ok cells l), ← hbits,
    hcells]
  rfl

/-- The words of bytes that were put together are those of the pieces. -/
theorem words_flatten {width : Nat} {bss : List Bytes} (h : ∀ bs ∈ bss, bs.length = width) :
    words width bss.length bss.flatten = bss.map Bytes.toNat := by
  induction bss with
  | nil => rfl
  | cons bs bss ih =>
    rw [List.forall_mem_cons] at h
    rw [List.length_cons, words, List.flatten_cons, List.take_left' h.1, List.drop_left' h.1,
      ih h.2, List.map_cons]

theorem length_flatten_of_width {width : Nat} {bss : List Bytes}
    (h : ∀ bs ∈ bss, bs.length = width) : bss.flatten.length = bss.length * width := by
  induction bss with
  | nil => simp
  | cons bs bss ih =>
    rw [List.forall_mem_cons] at h
    rw [List.flatten_cons, List.length_append, ih h.2, h.1, List.length_cons, Nat.succ_mul,
      Nat.add_comm]

/-- A cell of a type is written to a word of the width of the type, which
stands for the cell again. -/
theorem word_cellBytes {type : FieldType} {width : Nat} {cell : Nat → Cell} {c : Cell}
    (hw : valueWidth? (columnType type) = some width)
    (hcell : wordCell? (columnType type) = some cell) (h : c = .null ∨ c.type? = some type) :
    (cellBytes type c).length = width ∧
      (c.isNull = false → cell (Bytes.toNat (cellBytes type c)) = c) := by
  rcases h with rfl | htype
  · refine ⟨?_, fun hnull => nomatch hnull⟩
    cases type <;> cases hcell <;> cases hw <;> rfl
  · cases c with
    | null => cases htype
    | boolean b => cases htype; cases hcell
    | string s => cases htype; cases hcell
    | bytes b => cases htype; cases hcell
    | int64 n =>
      cases htype
      cases hw
      cases hcell
      refine ⟨Bytes.length_ofNat .., fun _ => ?_⟩
      rw [cellBytes, Bytes.toNat_ofNat_of_lt 8 (UInt64.toNat_lt _)]
      have hsigned : Bytes.signed 8 n.toUInt64.toNat = n.toInt :=
        congrArg BitVec.toInt (BitVec.ofNat_toNat 64 n.toBitVec)
      dsimp only
      rw [hsigned, Int64.ofInt_toInt]
    | float64 x =>
      cases htype
      cases hw
      cases hcell
      refine ⟨Bytes.length_ofNat .., fun _ => ?_⟩
      rw [cellBytes, Bytes.toNat_ofNat_of_lt 8 (UInt64.toNat_lt _)]
      dsimp only
      rw [UInt64.ofNat_toNat]
    | date d =>
      cases htype
      cases hw
      cases hcell
      refine ⟨Bytes.length_ofNat .., fun _ => ?_⟩
      have hdays : Int32.ofNat d.toUInt32.toNat = d :=
        congrArg Int32.ofBitVec (BitVec.ofNat_toNat 32 d.toBitVec)
      rw [cellBytes, Bytes.toNat_ofNat_of_lt 4 (UInt32.toNat_lt _)]
      exact congrArg Cell.date hdays
    | timestamp t =>
      cases htype
      cases hw
      cases hcell
      refine ⟨Bytes.length_ofNat .., fun _ => ?_⟩
      have hmicros : Int64.ofNat t.toUInt64.toNat = t :=
        congrArg Int64.ofBitVec (BitVec.ofNat_toNat 64 t.toBitVec)
      rw [cellBytes, Bytes.toNat_ofNat_of_lt 8 (UInt64.toNat_lt _)]
      exact congrArg Cell.timestamp hmicros

/-- **A column of words is read back.** -/
theorem buildWords_eq_ok {width : Nat} {cell : Nat → Cell}
    (hw : valueWidth? (columnType type) = some width)
    (hcell : wordCell? (columnType type) = some cell) (h : Fills type cells slots)
    (hnulls : HoldsNulls cells nulls) :
    buildWords (columnType type) cells.length (nullCount cells) nulls
        (slots.map (cellBytes type)).flatten l =
      .ok (columnFor type cells, l) := by
  have hwidth : ∀ bs ∈ slots.map (cellBytes type), bs.length = width :=
    List.forall_mem_map.2 fun c hc => (word_cellBytes hw hcell (h.ofType c hc)).1
  have hlen := length_flatten_of_width hwidth
  have hwords := words_flatten hwidth
  rw [List.length_map, ← h.same.length_eq] at hlen hwords
  have hcells : masked (validOf cells) (slots.map fun c => cell (Bytes.toNat (cellBytes type c)))
      = cells := by
    refine h.masked fun c htype => (word_cellBytes hw hcell (.inr htype)).2 ?_
    cases c with
    | null => cases htype
    | _ => rfl
  rw [buildWords, bind_eq_of_ok (bitmap_eq_ok hnulls l), hw]
  dsimp only
  rw [if_neg (by omega), bind_eq_of_ok (requireRoom_eq_ok cells l),
    bind_eq_of_ok (requireNulls_eq_ok cells l), hcell]
  dsimp only
  rw [hwords, List.map_map, List.map_map]
  exact congrArg (fun cs => Except.ok (Column.plain _ _ _ cs, l)) hcells

/-! ## Columns of stretches of bytes -/

/-- Where each of the pieces starts and ends. -/
def spansOf : Nat → List Bytes → List (Nat × Nat)
  | _, [] => []
  | start, bs :: bss => (start, start + bs.length) :: spansOf (start + bs.length) bss

variable {bss : List Bytes} {start : Nat}

theorem length_offsetsOf (start : Nat) (bss : List Bytes) :
    (offsetsOf start bss).length = bss.length + 1 := by
  induction bss generalizing start with
  | nil => rfl
  | cons bs bss ih => rw [offsetsOf, List.length_cons, ih, List.length_cons]

theorem offsetsOf_eq_cons (start : Nat) (bss : List Bytes) :
    ∃ os, offsetsOf start bss = start :: os := by
  cases bss with
  | nil => exact ⟨[], rfl⟩
  | cons bs bss => exact ⟨_, rfl⟩

theorem le_of_mem_offsetsOf {o : Nat} (h : o ∈ offsetsOf start bss) :
    o ≤ start + bss.flatten.length := by
  induction bss generalizing start with
  | nil => simpa [offsetsOf] using Nat.le_of_eq (List.mem_singleton.1 h)
  | cons bs bss ih =>
    rw [List.flatten_cons, List.length_append]
    rcases List.mem_cons.1 h with rfl | h
    · omega
    · have := ih h
      omega

/-- Offsets of pieces never fall and stay inside what the pieces make. -/
theorem ordered_offsetsOf {low limit : Nat} (hlow : low ≤ start)
    (hlimit : start + bss.flatten.length ≤ limit) :
    ordered limit low ((offsetsOf start bss).map Int.ofNat) = true := by
  induction bss generalizing start low with
  | nil => simp_all [offsetsOf, ordered]
  | cons bs bss ih =>
    rw [List.flatten_cons, List.length_append] at hlimit
    have hrest : ordered limit start ((offsetsOf (start + bs.length) bss).map Int.ofNat) = true :=
      ih (by omega) (by omega)
    rw [offsetsOf, List.map_cons, ordered, Bool.and_eq_true, decide_eq_true_eq]
    exact ⟨Int.ofNat_le.2 hlow, hrest⟩

theorem stretches_offsetsOf (start : Nat) (bss : List Bytes) :
    stretches ((offsetsOf start bss).map Int.ofNat) = spansOf start bss := by
  induction bss generalizing start with
  | nil => rfl
  | cons bs bss ih =>
    obtain ⟨os, hos⟩ := offsetsOf_eq_cons (start + bs.length) bss
    have hrest := ih (start + bs.length)
    rw [hos, List.map_cons] at hrest
    rw [offsetsOf, hos, List.map_cons, List.map_cons, stretches, hrest]
    rfl

/-- The stretches between the offsets are the pieces. -/
theorem map_extract_spansOf (front : Bytes) (bss : List Bytes) :
    (spansOf front.length bss).map
        (fun s => ((front ++ bss.flatten).toArray.extract s.1 s.2).toList) = bss := by
  induction bss generalizing front with
  | nil => rfl
  | cons bs bss ih =>
    have hfirst : ((front ++ (bs ++ bss.flatten)).toArray.extract front.length
        (front.length + bs.length)).toList = bs := by simp
    have hrest := ih (front ++ bs)
    rw [List.length_append, List.append_assoc] at hrest
    rw [spansOf, List.map_cons, List.flatten_cons, hfirst, hrest]

theorem mem_offsetsOf_of_mem_spansOf {span : Nat × Nat} (h : span ∈ spansOf start bss) :
    span.1 ∈ offsetsOf start bss ∧ span.2 ∈ offsetsOf start bss := by
  induction bss generalizing start with
  | nil => cases h
  | cons bs bss ih =>
    obtain ⟨os, hos⟩ := offsetsOf_eq_cons (start + bs.length) bss
    rw [offsetsOf]
    rcases List.mem_cons.1 h with rfl | h
    · exact ⟨List.mem_cons_self, List.mem_cons_of_mem _ (hos ▸ List.mem_cons_self)⟩
    · exact ⟨List.mem_cons_of_mem _ (ih h).1, List.mem_cons_of_mem _ (ih h).2⟩

/-! ### Texts -/

/-- Pieces each of which is a text. -/
def AreTexts (bss : List Bytes) : Prop := ∀ bs ∈ bss, ∃ s, bs = Bytes.ofText s

/-- A byte that starts a character does not continue one. -/
theorem div_ne_two_of_isUTF8FirstByte {b : UInt8} (h : b.IsUTF8FirstByte) :
    b.toNat / 64 ≠ 2 := by
  have hall : ∀ n < 256, (UInt8.ofNat n).IsUTF8FirstByte → n / 64 ≠ 2 := by decide +kernel
  have hlt : b.toNat < 256 := UInt8.toNat_lt b
  refine hall b.toNat hlt ?_
  rwa [UInt8.ofNat_toNat]

theorem div_ne_two_of_ofText {s : String} {b : UInt8} {bs : Bytes}
    (h : Bytes.ofText s = b :: bs) : b.toNat / 64 ≠ 2 := by
  have hlist : s.toByteArray.data.toList = b :: bs := h
  have hsize : 0 < s.toByteArray.size := by
    rw [← ByteArray.size_data, ← Array.length_toList, hlist]
    exact Nat.succ_pos _
  have hfirst : s.toByteArray[0] = b := by
    have hget : s.toByteArray.data.toList[0]? = some b := by rw [hlist, List.getElem?_cons_zero]
    rw [Array.getElem?_toList] at hget
    exact (Array.getElem?_eq_some_iff.1 hget).2
  have hstart := s.isValidUTF8.isUTF8FirstByte_getElem_zero hsize
  rw [hfirst] at hstart
  exact div_ne_two_of_isUTF8FirstByte hstart

/-- What pieces that are texts make does not start inside a character. -/
theorem AreTexts.div_ne_two {b : UInt8} {rest : Bytes} (h : AreTexts bss)
    (hb : bss.flatten = b :: rest) : b.toNat / 64 ≠ 2 := by
  induction bss with
  | nil => cases hb
  | cons bs bss ih =>
    obtain ⟨⟨s, hs⟩, hrest⟩ := List.forall_mem_cons.1 h
    rw [List.flatten_cons] at hb
    cases bs with
    | nil => exact ih hrest hb
    | cons b' bs =>
      cases hb
      exact div_ne_two_of_ofText hs.symm

/-- The offsets of pieces that are texts do not lie inside characters. -/
theorem AreTexts.isBoundary (front : Bytes) (h : AreTexts bss) :
    ∀ o ∈ offsetsOf front.length bss, isBoundary (front ++ bss.flatten).toArray o = true := by
  -- at the start of some of the pieces
  have hstart : ∀ {front : Bytes} {bss : List Bytes}, AreTexts bss →
      Columns.isBoundary (front ++ bss.flatten).toArray front.length = true := by
    intro front bss h
    rw [Columns.isBoundary, List.getElem?_toArray, List.getElem?_append_right (Nat.le_refl _),
      Nat.sub_self]
    cases hflat : bss.flatten with
    | nil => rfl
    | cons b rest => simp [h.div_ne_two hflat]
  induction bss generalizing front with
  | nil =>
    intro o ho
    rw [List.mem_singleton.1 ho]
    exact hstart h
  | cons bs bss ih =>
    intro o ho
    rcases List.mem_cons.1 ho with rfl | ho
    · exact hstart h
    · have hrest := ih (front ++ bs) (List.forall_mem_cons.1 h).2
      rw [List.length_append, List.append_assoc] at hrest
      exact hrest o ho

theorem isSome_text?_ofText (s : String) : (Bytes.text? (Bytes.ofText s)).isSome = true := by
  rw [Rows.text?_ofText]
  rfl

/-- **Pieces that are texts pass as such**, whether they are looked at as a
whole or one by one. -/
theorem AreTexts.areTexts (h : AreTexts bss) :
    areTexts bss.flatten.toArray (spansOf 0 bss) = true := by
  unfold Columns.areTexts
  split
  · refine List.all_eq_true.2 fun span hspan => ?_
    have hmem := mem_offsetsOf_of_mem_spansOf hspan
    have hall := h.isBoundary []
    rw [Bool.and_eq_true]
    exact ⟨hall _ hmem.1, hall _ hmem.2⟩
  · have hpieces := map_extract_spansOf [] bss
    rw [List.nil_append, List.length_nil] at hpieces
    refine List.all_eq_true.2 fun span hspan => ?_
    have hmem := List.mem_map_of_mem (f := fun s : Nat × Nat =>
      (bss.flatten.toArray.extract s.1 s.2).toList) hspan
    rw [hpieces] at hmem
    obtain ⟨s, hs⟩ := h _ hmem
    rw [hs]
    exact isSome_text?_ofText s

/-! ### Reading stretches -/

/-- The offsets of pieces are read back; an empty column may do without. -/
theorem exists_offsets_eq_ok {buffer : Bytes} (hlimit : bss.flatten.length ≤ columnLimit)
    (h : buffer = ((offsetsOf 0 bss).map (Bytes.ofNat 4)).flatten ∨ bss = [] ∧ buffer = [])
    (l : Lists) :
    ∃ os, offsets 4 bss.length buffer l = .ok (os, l) ∧
      ordered bss.flatten.toArray.size 0 os = true ∧ stretches os = spansOf 0 bss := by
  rcases h with rfl | ⟨rfl, rfl⟩
  · have hwidth : ∀ bs ∈ (offsetsOf 0 bss).map (Bytes.ofNat 4), bs.length = 4 :=
      List.forall_mem_map.2 fun o _ => Bytes.length_ofNat ..
    have hlen := length_flatten_of_width hwidth
    have hwords := words_flatten hwidth
    rw [List.length_map, length_offsetsOf] at hlen hwords
    have hsome : ¬ (bss.length = 0 ∧
        ((offsetsOf 0 bss).map (Bytes.ofNat 4)).flatten.isEmpty = true) := by
      rintro ⟨-, hempty⟩
      rw [List.isEmpty_iff] at hempty
      rw [hempty, List.length_nil] at hlen
      omega
    have hvalues : (((offsetsOf 0 bss).map (Bytes.ofNat 4)).map Bytes.toNat).map (Bytes.signed 4)
        = (offsetsOf 0 bss).map Int.ofNat := by
      rw [List.map_map, List.map_map]
      refine List.map_congr_left fun o ho => ?_
      have hle := le_of_mem_offsetsOf ho
      have hpow : Nat.pow 256 4 = 2 * (columnLimit + 1) := rfl
      exact Bytes.signed_toNat_ofNat 4 (by omega)
    refine ⟨(offsetsOf 0 bss).map Int.ofNat, ?_,
      ordered_offsetsOf (Nat.le_refl 0) (by simp), stretches_offsetsOf 0 bss⟩
    rw [offsets, if_neg hsome, if_neg (by omega), if_neg (by omega), hwords, hvalues]
    rfl
  · exact ⟨[], rfl, rfl, rfl⟩

/-- What a piece of a column of stretches stands for. -/
def pieceCell (isText : Bool) (bs : Bytes) : Cell :=
  if isText then .string ((Bytes.text? bs).getD "") else .bytes bs

theorem map_stretchCell_spansOf (isText : Bool) (bss : List Bytes) :
    (spansOf 0 bss).map (stretchCell isText bss.flatten.toArray) =
      bss.map (pieceCell isText) := by
  have hpieces := map_extract_spansOf [] bss
  rw [List.nil_append, List.length_nil] at hpieces
  calc (spansOf 0 bss).map (stretchCell isText bss.flatten.toArray)
      = ((spansOf 0 bss).map fun s =>
          (bss.flatten.toArray.extract s.1 s.2).toList).map (pieceCell isText) := by
        rw [List.map_map]
        rfl
    _ = bss.map (pieceCell isText) := by rw [hpieces]

/-- **A column of texts or byte strings is read back.** -/
theorem buildStretches_eq_ok {isText : Bool} {offsets : Bytes} (h : Fills type cells slots)
    (hnulls : HoldsNulls cells nulls)
    (hlimit : (slots.map (cellBytes type)).flatten.length ≤ columnLimit)
    (hoffsets : offsets = ((offsetsOf 0 (slots.map (cellBytes type))).map (Bytes.ofNat 4)).flatten ∨
      slots = [] ∧ offsets = [])
    (htype : columnType type = if isText then .utf8 false else .binary false)
    (htexts : isText = true → AreTexts (slots.map (cellBytes type)))
    (hcell : ∀ c : Cell, c.type? = some type → pieceCell isText (cellBytes type c) = c) :
    buildStretches isText false cells.length (nullCount cells) nulls offsets
        (slots.map (cellBytes type)).flatten l =
      .ok (columnFor type cells, l) := by
  have hempty : offsets = ((offsetsOf 0 (slots.map (cellBytes type))).map (Bytes.ofNat 4)).flatten ∨
      slots.map (cellBytes type) = [] ∧ offsets = [] :=
    hoffsets.imp_right fun h => ⟨by rw [h.1, List.map_nil], h.2⟩
  obtain ⟨os, hread, hordered, hspans⟩ := exists_offsets_eq_ok hlimit hempty l
  rw [List.length_map, ← h.same.length_eq] at hread
  have hchecked : (!isText || areTexts (slots.map (cellBytes type)).flatten.toArray
      (spansOf 0 (slots.map (cellBytes type)))) = true := by
    cases isText with
    | false => rfl
    | true => exact (htexts rfl).areTexts
  have hcells : masked (validOf cells) ((slots.map (cellBytes type)).map (pieceCell isText))
      = cells := by
    rw [List.map_map]
    exact h.masked hcell
  rw [buildStretches, bind_eq_of_ok (bitmap_eq_ok hnulls l),
    bind_eq_of_ok (requireRoom_eq_ok cells l), bind_eq_of_ok (by exact hread)]
  rw [hspans, hordered, hchecked, Bool.and_self, if_pos rfl,
    bind_eq_of_ok (requireNulls_eq_ok cells l), map_stretchCell_spansOf, hcells, ← htype]
  rfl

/-! ## Columns of every type -/

/-- A text is written as its own bytes, and null as those of the empty
text. -/
theorem areTexts_map_cellBytes (h : OfType .string slots) :
    AreTexts (slots.map (cellBytes .string)) := by
  refine List.forall_mem_map.2 fun c hc => ?_
  rcases h c hc with rfl | htype
  · exact ⟨"", rfl⟩
  · cases c with
    | string s => exact ⟨s, rfl⟩
    | _ => cases htype

theorem pieceCell_cellBytes {isText : Bool} {c : Cell}
    (htype : columnType type = if isText then .utf8 false else .binary false)
    (h : c.type? = some type) : pieceCell isText (cellBytes type c) = c := by
  cases c with
  | string s =>
    cases h
    cases isText with
    | false => cases htype
    | true => rw [pieceCell, if_pos rfl, cellBytes, Rows.text?_ofText, Option.getD_some]
  | bytes b =>
    cases h
    cases isText with
    | false => rfl
    | true => cases htype
  | _ => cases h <;> cases isText <;> cases htype

end Intake.Columns
