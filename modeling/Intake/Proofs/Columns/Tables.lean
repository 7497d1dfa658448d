import Intake.Columns.FlatWriter
import Intake.Proofs.Rows.RoundTrip
/-!
# Tables read back

What is written as a table, a vector or a text is read back wherever it
stands in a buffer at a multiple of eight, and reading looks at no more
than so many tables and bytes (`Reads`). A table that is found in a buffer
gives for every slot what the slot was written with (`Table.Shows`), so a
reader of a slot reads back what was written to it.
-/

namespace Intake.Columns.Flat

variable {α β : Type} {buf : Array UInt8} {pos place : Nat} {bs cs : Bytes}

/-! ## Bytes in a buffer -/

/-- Bytes stand in a buffer from a position on. -/
def Lies (buf : Array UInt8) : Nat → Bytes → Prop
  | pos, [] => pos ≤ buf.size
  | pos, b :: bs => buf[pos]? = some b ∧ Lies buf (pos + 1) bs

theorem Lies.size_le (h : Lies buf pos bs) : pos + bs.length ≤ buf.size := by
  induction bs generalizing pos with
  | nil => exact h
  | cons b bs ih =>
    have := ih h.2
    rw [List.length_cons]
    omega

theorem lies_append :
    Lies buf pos (bs ++ cs) ↔ Lies buf pos bs ∧ Lies buf (pos + bs.length) cs := by
  induction bs generalizing pos with
  | nil =>
    constructor
    · intro h
      have := Lies.size_le h
      exact ⟨by rw [Lies]; omega, h⟩
    · exact And.right
  | cons b bs ih =>
    rw [List.cons_append, Lies, Lies, ih, and_assoc, List.length_cons, Nat.add_right_comm,
      Nat.add_assoc pos]

/-- Bytes stand at the start of the buffer that is made of them. -/
theorem lies_toArray (bs : Bytes) : Lies bs.toArray 0 bs := by
  have h : ∀ front back : Bytes, Lies (front ++ back).toArray front.length back := by
    intro front back
    induction back generalizing front with
    | nil => simp [Lies]
    | cons b back ih =>
      refine ⟨by simp, ?_⟩
      simpa using ih (front ++ [b])
  simpa using h [] bs

theorem Lies.getElem? {k : Nat} (h : Lies buf pos bs) (hk : k < bs.length) :
    buf[pos + k]? = bs[k]? := by
  induction bs generalizing pos k with
  | nil => cases hk
  | cons b bs ih =>
    cases k with
    | zero => exact h.1
    | succ k =>
      have hk' : k < bs.length := Nat.lt_of_succ_lt_succ hk
      have := ih h.2 hk'
      rwa [List.getElem?_cons_succ, show pos + (k + 1) = pos + 1 + k by omega]

theorem Lies.toList_extract (h : Lies buf pos bs) :
    (buf.extract pos (pos + bs.length)).toList = bs := by
  refine List.ext_getElem? fun k => ?_
  have hsize := h.size_le
  rw [Array.getElem?_toList, Array.getElem?_extract]
  split
  · exact h.getElem? (by omega)
  · rw [List.getElem?_eq_none (by omega)]

theorem Lies.peek_eq (h : Lies buf pos bs) : peek buf pos bs.length = Bytes.toNat bs := by
  induction bs generalizing pos with
  | nil => rfl
  | cons b bs ih =>
    rw [List.length_cons, peek, Bytes.toNat, ih h.2, h.1, Option.getD_some]

/-- The low bytes of an integer stand in front of its high bytes. -/
theorem ofNat_add (m k n : Nat) :
    Bytes.ofNat (m + k) n = Bytes.ofNat m n ++ Bytes.ofNat k (n / Nat.pow 256 m) := by
  induction m generalizing n with
  | zero => simp [Bytes.ofNat]
  | succ m ih =>
    rw [Nat.add_right_comm, Bytes.ofNat, ih, Nat.div_div_eq_div_mul, Bytes.ofNat, List.cons_append,
      show 256 * Nat.pow 256 m = Nat.pow 256 (m + 1) from Nat.mul_comm _ _]

/-! ## What reading costs -/

/-- A reader yields a value and looks at no more than `t` tables and `n`
bytes; with a smaller budget it may fail, but never yields anything else. -/
def Yields (r : Reader α) (a : α) (t n : Nat) : Prop :=
  (∀ b : Budget, t ≤ b.tables → n ≤ b.bytes →
    ∃ b', r b = some (a, b') ∧ b.tables ≤ b'.tables + t ∧ b.bytes ≤ b'.bytes + n) ∧
  ∀ (b : Budget) (x : α) (b' : Budget), r b = some (x, b') → x = a

section

variable {r : Reader α} {f : α → Reader β} {a : α} {b : β} {t t' n n' : Nat}

theorem Yields.mono (h : Yields r a t n) (ht : t ≤ t') (hn : n ≤ n') : Yields r a t' n' := by
  refine ⟨fun b htables hbytes => ?_, h.2⟩
  obtain ⟨b', hr, ht', hn'⟩ := h.1 b (by omega) (by omega)
  exact ⟨b', hr, by omega, by omega⟩

theorem yields_pure (a : α) : Yields (pure a) a 0 0 :=
  ⟨fun b _ _ => ⟨b, rfl, by simp, by simp⟩, fun _ _ _ h => by cases h; rfl⟩

theorem Yields.bind (hr : Yields r a t n) (hf : Yields (f a) b t' n') :
    Yields (r >>= f) b (t + t') (n + n') := by
  constructor
  · intro b₀ htables hbytes
    obtain ⟨b₁, hr₁, ht₁, hn₁⟩ := hr.1 b₀ (by omega) (by omega)
    obtain ⟨b₂, hf₂, ht₂, hn₂⟩ := hf.1 b₁ (by omega) (by omega)
    refine ⟨b₂, ?_, by omega, by omega⟩
    simp only [Bind.bind, StateT.bind, hr₁, Option.bind_some, hf₂]
  · intro b₀ y b₂ h
    obtain ⟨⟨x, b₁⟩, hr₁, hf₁⟩ := Option.bind_eq_some_iff.1 h
    obtain rfl := hr.2 b₀ x b₁ hr₁
    exact hf.2 b₁ y b₂ hf₁

/-- A step that only works on what has been read. -/
theorem Yields.map (hr : Yields r a t n) (g : α → β) : Yields (do return g (← r)) (g a) t n :=
  hr.bind (f := fun x => pure (g x)) (yields_pure (g a))

theorem yields_require {p : Bool} (h : p = true) : Yields (require p) () 0 0 := by
  rw [require, if_pos h]
  exact yields_pure ()

theorem yields_spend (n : Nat) : Yields (spend n) () 0 n := by
  refine ⟨fun b _ hbytes => ?_, fun _ _ _ _ => rfl⟩
  refine ⟨{ b with bytes := b.bytes - n }, if_pos hbytes, by simp, ?_⟩
  dsimp only
  omega

theorem yields_spendTable : Yields spendTable () 1 0 := by
  refine ⟨fun b htables _ => ?_, fun _ _ _ _ => rfl⟩
  refine ⟨{ b with tables := b.tables - 1 }, if_pos (by omega), ?_, by simp⟩
  dsimp only
  omega

end

/-! ## Integers -/

theorem yields_span {size : Nat} (h : pos + size ≤ buf.size) :
    Yields (span buf pos size) () 0 size := by
  have hroom : decide (pos + size ≤ buf.size) = true := decide_eq_true h
  refine Yields.mono ((yields_require hroom).bind (yields_spend size)) ?_ ?_ <;> omega

theorem yields_unsigned {width : Nat} (h : Lies buf pos bs) (hw : bs.length = width)
    (hp : pos % width = 0) : Yields (unsigned buf width pos) (Bytes.toNat bs) 0 width := by
  have hpeek : peek buf pos width = Bytes.toNat bs := hw ▸ h.peek_eq
  have hspan : pos + width ≤ buf.size := hw ▸ h.size_le
  have halign : (pos % width == 0) = true := by simpa using hp
  rw [← hpeek]
  refine Yields.mono ((yields_require halign).bind ((yields_span hspan).bind (yields_pure _))) ?_ ?_
    <;> omega

theorem yields_signed {width : Nat} (h : Lies buf pos bs) (hw : bs.length = width)
    (hp : pos % width = 0) :
    Yields (signed buf width pos) (Bytes.signed width (Bytes.toNat bs)) 0 width :=
  (yields_unsigned h hw hp).map _

/-! ## Vectors and texts

What is written takes up a multiple of eight bytes, so that whatever
follows it stands at a multiple of eight as well. Distances and lengths
are words of 32 bits, which is enough in a buffer of less than 4 GiB. -/

theorem length_padded (bs : Bytes) :
    (padded bs).length = bs.length + (8 - bs.length % 8) % 8 := by
  rw [padded, List.length_append, List.length_replicate]

theorem length_padded_mod (bs : Bytes) : (padded bs).length % 8 = 0 := by
  rw [length_padded]
  omega

theorem Lies.of_padded (h : Lies buf pos (padded bs)) : Lies buf pos bs := (lies_append.1 h).1

/-- Wherever bytes stand at a multiple of eight, a reader yields a value
there. -/
def Reads (buf : Array UInt8) (read : Nat → Reader α) (bs : Bytes) (a : α) (t n : Nat) : Prop :=
  ∀ pos, pos % 8 = 0 → Lies buf pos bs → Yields (read pos) a t n

theorem Reads.mono {read : Nat → Reader α} {a : α} {t t' n n' : Nat}
    (h : Reads buf read bs a t n) (ht : t ≤ t') (hn : n ≤ n') : Reads buf read bs a t' n' :=
  fun pos hpos hlies => (h pos hpos hlies).mono ht hn

theorem yields_vectorLength {count : Nat} (size align : Nat) (hc : count < UInt32.size)
    (h : Lies buf pos (Bytes.ofNat 4 count)) (hp : pos % 4 = 0) (ha : (pos + 4) % align = 0)
    (hs : pos + 4 + count * size ≤ buf.size) :
    Yields (vectorLength buf size align pos) count 0 (4 + count * size) := by
  have hcount := yields_unsigned h (Bytes.length_ofNat ..) hp
  rw [Bytes.toNat_ofNat_of_lt 4 hc] at hcount
  have halign : ((pos + 4) % align == 0) = true := by simpa using ha
  refine Yields.mono (hcount.bind ((yields_require halign).bind ((yields_span hs).bind
    (yields_pure count)))) ?_ ?_ <;> omega

/-- **A text is read back.** -/
theorem reads_text (hbuf : buf.size < UInt32.size) (s : String) :
    Reads buf (text buf) (writeText s) s 0 (4 + (Bytes.ofText s).length) := by
  intro pos hpos h
  obtain ⟨hhead, hzero⟩ := lies_append.1 (Lies.of_padded h)
  obtain ⟨hcount, hbytes⟩ := lies_append.1 hhead
  rw [Bytes.length_ofNat] at hbytes
  rw [List.length_append, Bytes.length_ofNat, ← Nat.add_assoc] at hzero
  have hsize := hbytes.size_le
  have hlength := yields_vectorLength 1 1 (by omega) hcount (by omega)
    (by omega) (by omega)
  have hend : (buf[pos + 4 + (Bytes.ofText s).length]? == some 0) = true := by
    simpa using hzero.1
  have hclosed := (yields_require hend).bind (f := fun _ => pure s) (yields_pure s)
  refine Yields.mono (hlength.bind (?_ : Yields _ s 0 0)) ?_ ?_
  · rw [hbytes.toList_extract, Rows.text?_ofText]
    exact hclosed
  all_goals omega

theorem length_writeText (s : String) :
    (writeText s).length =
      5 + (Bytes.ofText s).length + (8 - (5 + (Bytes.ofText s).length) % 8) % 8 := by
  have hlen : (Bytes.ofNat 4 (Bytes.ofText s).length ++ Bytes.ofText s ++ [0]).length
      = 5 + (Bytes.ofText s).length := by
    simp only [List.length_append, Bytes.length_ofNat, List.length_singleton]
    omega
  rw [writeText, length_padded, hlen]

/-- Of things written to equally many bytes, each stands where its number
puts it. -/
theorem Lies.flatMap {write : β → Bytes} {xs : List β} {x : β} {size i : Nat}
    (h : Lies buf pos (xs.flatMap write)) (hsize : ∀ x, (write x).length = size)
    (hi : xs[i]? = some x) : Lies buf (pos + size * i) (write x) := by
  induction xs generalizing pos i with
  | nil => cases hi
  | cons y xs ih =>
    obtain ⟨hy, hrest⟩ := lies_append.1 (List.flatMap_cons ▸ h)
    cases i with
    | zero =>
      cases hi
      exact hy
    | succ i =>
      rw [hsize] at hrest
      have := ih hrest hi
      rwa [Nat.mul_succ, Nat.add_comm (size * i), ← Nat.add_assoc]

/-- A number that a signed word of 64 bits can tell. -/
theorem signed_toNat_ofNat_eight {n : Nat} (h : n ≤ Rows.vectorLimit) :
    Bytes.signed 8 (Bytes.toNat (Bytes.ofNat 8 n)) = (n : Int) := by
  have hpow : Nat.pow 256 8 = 2 * (Rows.vectorLimit + 1) := rfl
  exact Bytes.signed_toNat_ofNat 8 (by omega)

theorem length_flatMap_pairs (ps : List (Nat × Nat)) :
    (ps.flatMap fun p => Bytes.ofNat 8 p.1 ++ Bytes.ofNat 8 p.2).length = ps.length * 16 := by
  simp [List.length_flatMap]

theorem length_writePairs (ps : List (Nat × Nat)) :
    (writePairs ps).length = 4 + 16 * ps.length + (8 - (4 + 16 * ps.length) % 8) % 8 := by
  have hlen : (Bytes.ofNat 4 ps.length ++
      ps.flatMap fun p => Bytes.ofNat 8 p.1 ++ Bytes.ofNat 8 p.2).length = 4 + 16 * ps.length := by
    rw [List.length_append, Bytes.length_ofNat, length_flatMap_pairs, Nat.mul_comm]
  rw [writePairs, length_padded, hlen]

/-- **Pairs are read back.** -/
theorem reads_pairs (hbuf : buf.size < UInt32.size) {ps : List (Nat × Nat)}
    (hps : ∀ p ∈ ps, p.1 ≤ Rows.vectorLimit ∧ p.2 ≤ Rows.vectorLimit) :
    Reads buf (pairs buf) (writePairs ps) (ps.map fun p => ((p.1 : Int), (p.2 : Int))) 0
      (4 + ps.length * 16) := by
  intro pos hpos h
  obtain ⟨hcount, hwords⟩ := lies_append.1 (Lies.of_padded h)
  rw [Bytes.length_ofNat] at hwords
  have hwidth : ∀ p : Nat × Nat, (Bytes.ofNat 8 p.1 ++ Bytes.ofNat 8 p.2).length = 16 := by simp
  have hlen := length_flatMap_pairs ps
  have hsize := hwords.size_le
  have hlength := yields_vectorLength 16 1 (by omega) hcount (by omega)
    (by omega) (by omega)
  have hvalue : ((List.range ps.length).map fun i =>
      let at' := pos + 4 + 16 * i
      (Bytes.signed 8 (peek buf at' 8), Bytes.signed 8 (peek buf (at' + 8) 8)))
      = ps.map fun p => ((p.1 : Int), (p.2 : Int)) := by
    refine List.ext_getElem (by simp) fun i hi hi' => ?_
    rw [List.length_map] at hi'
    obtain ⟨hfst, hsnd⟩ := lies_append.1 (hwords.flatMap hwidth (List.getElem?_eq_getElem hi'))
    rw [Bytes.length_ofNat] at hsnd
    have hp := hps _ (List.getElem_mem hi')
    have hpeek := hfst.peek_eq
    have hpeek' := hsnd.peek_eq
    rw [Bytes.length_ofNat] at hpeek hpeek'
    simp only [List.getElem_map, List.getElem_range, hpeek, hpeek', signed_toNat_ofNat_eight hp.1,
      signed_toNat_ofNat_eight hp.2]
  rw [← hvalue]
  exact hlength.map _

/-! ## Distances -/

/-- At a place stands the distance to bytes further on, which stand at a
multiple of eight. -/
def Points (buf : Array UInt8) (place : Nat) (bs : Bytes) : Prop :=
  ∃ d, d < UInt32.size ∧ Lies buf place (Bytes.ofNat 4 d) ∧ (place + d) % 8 = 0 ∧
    Lies buf (place + d) bs

theorem Points.yields {read : Nat → Reader α} {a : α} {t n : Nat} (h : Points buf place bs)
    (hp : place % 4 = 0) (hr : Reads buf read bs a t n) :
    Yields (follow buf read place) a t (4 + n) := by
  obtain ⟨d, hd, hlies, hmod, htarget⟩ := h
  have hdistance := yields_unsigned hlies (Bytes.length_ofNat ..) hp
  rw [Bytes.toNat_ofNat_of_lt 4 hd] at hdistance
  have hthere : Yields (read (place + d)) a t n := hr _ hmod htarget
  refine Yields.mono (hdistance.bind hthere) ?_ ?_ <;> omega

theorem length_distances (k next : Nat) (tables : List Bytes) :
    (distances k next tables).length = 4 * tables.length := by
  induction tables generalizing k next with
  | nil => rfl
  | cons bs tables ih =>
    rw [distances, List.length_append, Bytes.length_ofNat, ih, List.length_cons]
    omega

theorem length_writeTables (tables : List Bytes) :
    (writeTables tables).length =
      4 + 4 * tables.length + (8 - (4 + 4 * tables.length) % 8) % 8 + tables.flatten.length := by
  simp only [writeTables, List.length_append, length_padded, Bytes.length_ofNat, length_distances]

theorem length_writeTables_mod {tables : List Bytes} (h : ∀ bs ∈ tables, bs.length % 8 = 0) :
    (writeTables tables).length % 8 = 0 := by
  have htargets : tables.flatten.length % 8 = 0 := by
    induction tables with
    | nil => rfl
    | cons bs tables ih =>
      rw [List.forall_mem_cons] at h
      have hone := h.1
      have hrest := ih h.2
      rw [List.flatten_cons, List.length_append]
      omega
  rw [length_writeTables]
  omega

/-- Each distance of a vector is that to its own target. -/
theorem points_of_distances {tables : List Bytes} {k next i : Nat} (hbuf : buf.size < UInt32.size)
    (hpos : pos % 8 = 0) (hnext : next % 8 = 0) (hroom : 4 + 4 * (k + tables.length) ≤ next)
    (hwhole : ∀ bs ∈ tables, bs.length % 8 = 0)
    (h : Lies buf (pos + 4 + 4 * k) (distances k next tables))
    (ht : Lies buf (pos + next) tables.flatten) (hi : tables[i]? = some bs) :
    Points buf (pos + 4 + 4 * (k + i)) bs := by
  induction tables generalizing k next i with
  | nil => cases hi
  | cons first tables ih =>
    rw [distances] at h
    obtain ⟨hd, hrest⟩ := lies_append.1 h
    obtain ⟨hfirst, htargets⟩ := lies_append.1 (List.flatten_cons ▸ ht)
    rw [List.length_cons] at hroom
    rw [Bytes.length_ofNat] at hrest
    rw [List.forall_mem_cons] at hwhole
    have hmod := hwhole.1
    cases i with
    | zero =>
      cases hi
      have hsize := hfirst.size_le
      have hplace : pos + 4 + 4 * k + (next - (4 + 4 * k)) = pos + next := by omega
      exact ⟨next - (4 + 4 * k), by omega, hd, by omega, hplace ▸ hfirst⟩
    | succ i =>
      have := ih (k := k + 1) (by omega) (by omega) hwhole.2 hrest
        (by rwa [← Nat.add_assoc]) hi
      rwa [show k + 1 + i = k + (i + 1) by omega] at this

/-- Readers in turn, each of which costs no more bytes than were written
for it. -/
theorem yields_mapM_range' {read : Nat → Reader α} {xs : List β} {value : β → α}
    {write : β → Bytes} {k t : Nat}
    (h : ∀ i x, xs[i]? = some x → Yields (read (k + i)) (value x) t (write x).length) :
    Yields ((List.range' k xs.length).mapM read) (xs.map value) (t * xs.length)
      (xs.flatMap write).length := by
  induction xs generalizing k with
  | nil => exact yields_pure []
  | cons x xs ih =>
    have hx := h 0 x rfl
    have hxs := ih (k := k + 1) fun i y hy => by
      rw [Nat.add_assoc, Nat.add_comm 1]
      exact h (i + 1) y hy
    rw [List.length_cons, List.range'_succ, List.mapM_cons, List.flatMap_cons,
      List.length_append]
    refine Yields.mono (hx.bind (hxs.bind (yields_pure _))) ?_ (by omega)
    rw [Nat.mul_succ]
    omega

/-- **A vector of tables is read back**, if each of the tables is, for at
most the bytes that it takes and the distance to it. -/
theorem reads_each {read : Nat → Reader α} {xs : List β} {value : β → α} {write : β → Bytes}
    {t : Nat} (hbuf : buf.size < UInt32.size) (hwhole : ∀ x ∈ xs, (write x).length % 8 = 0)
    (hread : ∀ x ∈ xs, ∃ n, n + 4 ≤ (write x).length ∧ Reads buf read (write x) (value x) t n) :
    Reads buf (each buf read) (writeTables (xs.map write)) (xs.map value) (t * xs.length)
      (writeTables (xs.map write)).length := by
  intro pos hpos h
  rw [writeTables, List.length_map] at h
  generalize hfirst : (padded (List.replicate (4 + 4 * xs.length) (0 : UInt8))).length = first at h
  have hmod := length_padded_mod (List.replicate (4 + 4 * xs.length) (0 : UInt8))
  have hlen := length_padded (List.replicate (4 + 4 * xs.length) (0 : UInt8))
  obtain ⟨hhead, htargets⟩ := lies_append.1 h
  rw [length_padded, List.length_append, Bytes.length_ofNat, length_distances, List.length_map]
    at htargets
  obtain ⟨hcount, hdistances⟩ := lies_append.1 hhead.of_padded
  rw [List.length_replicate] at hlen
  rw [Bytes.length_ofNat] at hdistances
  rw [hfirst] at hmod hlen
  rw [← hlen] at htargets
  have hsize := hdistances.size_le
  rw [length_distances, List.length_map] at hsize
  have hpoints : ∀ i x, xs[i]? = some x → Points buf (pos + 4 + 4 * i) (write x) := by
    intro i x hi
    have hroom : 4 + 4 * (0 + (xs.map write).length) ≤ first := by
      rw [List.length_map]
      omega
    have hpoint : Points buf (pos + 4 + 4 * (0 + i)) (write x) :=
      points_of_distances hbuf hpos hmod hroom (by simpa using hwhole) hdistances htargets
        (by simp [hi])
    rwa [Nat.zero_add] at hpoint
  have hlength := yields_vectorLength 4 4 (by omega) hcount (by omega)
    (by omega) (by omega)
  have hall : Yields ((List.range' 0 xs.length).mapM fun i => follow buf read (pos + 4 + 4 * i))
      (xs.map value) (t * xs.length) (xs.flatMap write).length := by
    refine yields_mapM_range' fun i x hi => ?_
    obtain ⟨n, hn, hx⟩ := hread x (List.mem_of_getElem? hi)
    rw [Nat.zero_add]
    exact ((hpoints i x hi).yields (by omega) hx).mono (Nat.le_refl t) (by omega)
  rw [← List.range_eq_range'] at hall
  refine Yields.mono (hlength.bind hall) (by omega) ?_
  rw [length_writeTables, List.length_map, ← List.flatMap_def]
  omega

/-! ## Slots of a table -/

/-- What a slot was written with stands at its place: a scalar itself, of a
target the distance to it. -/
def Slot.Lies (buf : Array UInt8) (place : Nat) : Slot → Prop
  | .empty => True
  | .scalar bs => Flat.Lies buf place bs
  | .target bs => Points buf place bs

/-- A slot that leaves what follows at a multiple of eight. -/
def Slot.IsWhole : Slot → Prop
  | .empty => True
  | .scalar bs => bs.length ≤ 8
  | .target bs => bs.length % 8 = 0

/-- Where the value of a slot stands, if it has one. -/
def Slot.place? (place : Nat) : Slot → Option Nat
  | .empty => none
  | _ => some place

variable {slots : List Slot} {slot : Slot} {k next i : Nat}

/-- What a slot refers to. -/
def Slot.referred : Slot → Bytes
  | .target bs => bs
  | _ => []

/-- The eight bytes of slot number `k`, whose target, if it has one, is at
`next`. -/
def Slot.word (k next : Nat) : Slot → Bytes
  | .empty => List.replicate 8 0
  | .scalar bs => bs ++ List.replicate (8 - bs.length) 0
  | .target _ => Bytes.ofNat 8 (next - (8 + 8 * k))

theorem Slot.inline_cons (k next : Nat) (slot : Slot) (slots : List Slot) :
    inline k next (slot :: slots) =
      slot.word k next ++ inline (k + 1) (next + slot.referred.length) slots := by
  cases slot <;> rfl

theorem Slot.targets_cons (slot : Slot) (slots : List Slot) :
    targets (slot :: slots) = slot.referred ++ targets slots := by
  cases slot <;> rfl

theorem Slot.IsWhole.length_word (h : slot.IsWhole) : (slot.word k next).length = 8 := by
  cases slot with
  | empty => rfl
  | scalar bs =>
    have hroom : bs.length ≤ 8 := h
    rw [word, List.length_append, List.length_replicate]
    omega
  | target bs => exact Bytes.length_ofNat ..

theorem Slot.IsWhole.length_referred_mod (h : slot.IsWhole) : slot.referred.length % 8 = 0 := by
  cases slot with
  | empty => rfl
  | scalar bs => rfl
  | target bs => exact h

theorem Slot.length_inline (hwhole : ∀ slot ∈ slots, slot.IsWhole) :
    (inline k next slots).length = 8 * slots.length := by
  induction slots generalizing k next with
  | nil => rfl
  | cons slot slots ih =>
    rw [List.forall_mem_cons] at hwhole
    rw [inline_cons, List.length_append, hwhole.1.length_word, ih hwhole.2, List.length_cons]
    omega

/-- A distance of up to 32 bits in a slot of 64. -/
theorem lies_distance {d : Nat} (h : Lies buf place (Bytes.ofNat 8 d)) :
    Lies buf place (Bytes.ofNat 4 d) := by
  rw [ofNat_add 4 4, lies_append] at h
  exact h.1

/-- A slot was written at its place, if its eight bytes stand there and what
it refers to stands where they tell. -/
theorem Slot.lies_of_word (hbuf : buf.size < UInt32.size) (hpos : pos % 8 = 0)
    (hnext : next % 8 = 0) (hroom : 8 + 8 * k ≤ next)
    (h : Flat.Lies buf (pos + 8 + 8 * k) (slot.word k next))
    (ht : Flat.Lies buf (pos + next) slot.referred) : slot.Lies buf (pos + 8 + 8 * k) := by
  cases slot with
  | empty => trivial
  | scalar bs => exact (lies_append.1 h).1
  | target bs =>
    have hsize := ht.size_le
    have hplace : pos + 8 + 8 * k + (next - (8 + 8 * k)) = pos + next := by omega
    exact ⟨next - (8 + 8 * k), by omega, lies_distance h, by omega, hplace ▸ ht⟩

/-- **Each slot of a table was written at its own place.** -/
theorem Slot.lies_of_inline (hbuf : buf.size < UInt32.size) (hpos : pos % 8 = 0)
    (hnext : next % 8 = 0) (hroom : 8 + 8 * (k + slots.length) ≤ next)
    (hwhole : ∀ slot ∈ slots, slot.IsWhole)
    (h : Flat.Lies buf (pos + 8 + 8 * k) (inline k next slots))
    (ht : Flat.Lies buf (pos + next) (targets slots)) (hi : slots[i]? = some slot) :
    slot.Lies buf (pos + 8 + 8 * (k + i)) := by
  induction slots generalizing k next i with
  | nil => cases hi
  | cons first slots ih =>
    rw [List.length_cons] at hroom
    rw [List.forall_mem_cons] at hwhole
    rw [inline_cons, lies_append, hwhole.1.length_word] at h
    rw [targets_cons, lies_append] at ht
    have hmod := hwhole.1.length_referred_mod
    cases i with
    | zero =>
      cases hi
      exact lies_of_word hbuf hpos hnext (by omega) h.1 ht.1
    | succ i =>
      have hnext' : (next + first.referred.length) % 8 = 0 := by omega
      have hroom' : 8 + 8 * (k + 1 + slots.length) ≤ next + first.referred.length := by omega
      have htargets := ht.2
      rw [Nat.add_assoc] at htargets
      have hlies := ih hnext' hroom' hwhole.2 h.2 htargets hi
      rwa [show k + 1 + i = k + (i + 1) by omega] at hlies

/-- What the directory tells of a slot. -/
def Slot.entry (k : Nat) : Slot → Nat
  | .empty => 0
  | _ => 8 + 8 * k

theorem Slot.entries_cons (k : Nat) (slot : Slot) (slots : List Slot) :
    entries k (slot :: slots) = Bytes.ofNat 2 (slot.entry k) ++ entries (k + 1) slots := by
  cases slot <;> rfl

theorem Slot.length_entries (k : Nat) (slots : List Slot) :
    (entries k slots).length = 2 * slots.length := by
  induction slots generalizing k with
  | nil => rfl
  | cons slot slots ih =>
    rw [entries_cons, List.length_append, Bytes.length_ofNat, ih, List.length_cons]
    omega

/-- Each entry of a directory was written at its own place. -/
theorem Slot.lies_of_entries (h : Flat.Lies buf place (entries k slots))
    (hi : slots[i]? = some slot) :
    Flat.Lies buf (place + 2 * i) (Bytes.ofNat 2 (slot.entry (k + i))) := by
  induction slots generalizing place k i with
  | nil => cases hi
  | cons first slots ih =>
    rw [entries_cons, lies_append, Bytes.length_ofNat] at h
    cases i with
    | zero =>
      cases hi
      exact h.1
    | succ i =>
      have := ih h.2 hi
      rwa [show k + 1 + i = k + (i + 1) by omega,
        show place + 2 + 2 * i = place + 2 * (i + 1) by omega] at this

/-! ## Tables -/

/-- A table that has been found in a buffer gives for each slot the place
where its value stands. -/
structure Table.Shows (t : Table) (buf : Array UInt8) (slots : List Slot) : Prop where
  size_eq : t.size = 4 + 2 * slots.length
  place_mod : t.pos % 8 = 0
  slot : ∀ {k : Nat} {slot : Slot}, slots[k]? = some slot →
    Yields (t.slot buf (4 + 2 * k)) (slot.place? (t.pos + 8 + 8 * k)) 0 2 ∧
      slot.Lies buf (t.pos + 8 + 8 * k)

/-- The distance back to a directory further on. -/
theorem signed_distance {n : Nat} (hpos : 0 < n) (h : n < 65536) :
    Bytes.signed 4 (UInt32.size - n) = -(n : Int) := by
  rw [Bytes.signed, BitVec.toInt_ofNat', Int.bmod_def]
  have hsize : UInt32.size = 4294967296 := rfl
  omega

/-- A table is found by the distance to its directory. -/
theorem yields_table {width size : Nat} (hpos : pos % 8 = 0) (hwidth : 0 < width)
    (hlt : width < 65536) (hwidth' : width % 2 = 0) (hsize' : size % 2 = 0) (hlt' : size < 65536)
    (hback : Lies buf pos (Bytes.ofNat 4 (UInt32.size - width)))
    (hsize : Lies buf (pos + width) (Bytes.ofNat 2 size)) (hroom : pos + width + size ≤ buf.size) :
    Yields (table buf pos) ⟨pos, pos + width, size⟩ 1 (6 + size) := by
  have hfar := yields_signed hback (Bytes.length_ofNat ..) (by omega : pos % 4 = 0)
  have hback' : UInt32.size - width < UInt32.size := Nat.sub_lt (by decide) hwidth
  rw [Bytes.toNat_ofNat_of_lt 4 hback', signed_distance hwidth hlt] at hfar
  have hplace : ((pos : Int) - -(width : Int)).toNat = pos + width := by omega
  have hend := hsize.size_le
  rw [Bytes.length_ofNat] at hend
  have hinside : (decide (0 ≤ (pos : Int) - -(width : Int)) &&
      decide ((pos : Int) - -(width : Int) < buf.size)) = true := by
    simp only [Bool.and_eq_true, decide_eq_true_eq]
    omega
  have hcounted := yields_unsigned hsize (Bytes.length_ofNat ..) (by omega : (pos + width) % 2 = 0)
  rw [Bytes.toNat_ofNat_of_lt 2 hlt'] at hcounted
  have heven : (size % 2 == 0) = true := by simpa using hsize'
  -- what comes once the directory has been found
  have hrest : Yields (do
      let size ← unsigned buf 2 (pos + width)
      require (size % 2 == 0)
      span buf (pos + width) size
      spendTable
      return (⟨pos, pos + width, size⟩ : Table)) ⟨pos, pos + width, size⟩ 1 (2 + size) := by
    refine Yields.mono (hcounted.bind ((yields_require heven).bind ((yields_span hroom).bind
      (yields_spendTable.bind (yields_pure _))))) ?_ ?_ <;> omega
  rw [← hplace] at hrest ⊢
  refine Yields.mono (hfar.bind ((yields_require hinside).bind hrest)) ?_ ?_ <;> omega

/-- The directory of a table. -/
def directory (slots : List Slot) : Bytes :=
  padded (Bytes.ofNat 2 (4 + 2 * slots.length) ++ Bytes.ofNat 2 (8 + 8 * slots.length) ++
    Slot.entries 0 slots)

theorem writeTable_eq (slots : List Slot) :
    writeTable slots = Bytes.ofNat 8 (UInt32.size - (8 + 8 * slots.length)) ++
      Slot.inline 0 (8 + 8 * slots.length + (directory slots).length) slots ++ directory slots ++
        Slot.targets slots := rfl

theorem length_writeTable (hwhole : ∀ slot ∈ slots, slot.IsWhole) :
    (writeTable slots).length =
      8 + 8 * slots.length + (directory slots).length + (Slot.targets slots).length := by
  simp only [writeTable_eq, List.length_append, Bytes.length_ofNat, Slot.length_inline hwhole]

theorem Slot.length_targets_mod (hwhole : ∀ slot ∈ slots, slot.IsWhole) :
    (targets slots).length % 8 = 0 := by
  induction slots with
  | nil => rfl
  | cons slot slots ih =>
    rw [List.forall_mem_cons] at hwhole
    have hone := hwhole.1.length_referred_mod
    have hrest := ih hwhole.2
    rw [targets_cons, List.length_append]
    omega

/-- A table leaves what follows it at a multiple of eight. -/
theorem length_writeTable_mod (hwhole : ∀ slot ∈ slots, slot.IsWhole) :
    (writeTable slots).length % 8 = 0 := by
  have hdirectory : (directory slots).length % 8 = 0 := length_padded_mod _
  have htargets := Slot.length_targets_mod hwhole
  rw [length_writeTable hwhole]
  omega

theorem length_directory (slots : List Slot) :
    (directory slots).length =
      4 + 2 * slots.length + (8 - (4 + 2 * slots.length) % 8) % 8 := by
  simp only [directory, length_padded, List.length_append, Bytes.length_ofNat,
    Slot.length_entries]

theorem Table.yields_slot {t : Table} (hplace : t.directory % 2 = 0) (hk : k < slots.length)
    (hsize : t.size = 4 + 2 * slots.length) (hlt : 8 + 8 * k < 65536)
    (h : Lies buf (t.directory + (4 + 2 * k)) (Bytes.ofNat 2 (slot.entry k))) :
    Yields (t.slot buf (4 + 2 * k)) (slot.place? (t.pos + 8 + 8 * k)) 0 2 := by
  have hentry := yields_unsigned h (Bytes.length_ofNat ..)
    (by omega : (t.directory + (4 + 2 * k)) % 2 = 0)
  have hle : slot.entry k < 65536 := by
    unfold Slot.entry
    split <;> omega
  rw [Bytes.toNat_ofNat_of_lt 2 hle] at hentry
  have hvalue : (if slot.entry k = 0 then none else some (t.pos + slot.entry k))
      = slot.place? (t.pos + 8 + 8 * k) := by
    cases slot <;> simp [Slot.entry, Slot.place?, Nat.add_assoc]
  have hin : 4 + 2 * k < t.size := by omega
  rw [Table.slot, if_pos hin, ← hvalue]
  exact hentry.map _

/-- The most slots that are written to a table. -/
def mostSlots : Nat := 8

/-- **A table is found** where it was written. -/
theorem exists_yields_table (hbuf : buf.size < UInt32.size)
    (hwhole : ∀ slot ∈ slots, slot.IsWhole) (hcount : slots.length ≤ mostSlots)
    (hpos : pos % 8 = 0) (h : Lies buf pos (writeTable slots)) :
    ∃ t : Table, Yields (table buf pos) t 1 (10 + 2 * slots.length) ∧ t.Shows buf slots := by
  have hmost : slots.length ≤ 8 := hcount
  rw [writeTable_eq, lies_append, lies_append, lies_append] at h
  obtain ⟨⟨⟨hback, hinline⟩, hdirectory⟩, htargets⟩ := h
  rw [Bytes.length_ofNat] at hinline
  rw [List.length_append, Bytes.length_ofNat, Slot.length_inline hwhole] at hdirectory
  rw [List.length_append, List.length_append, Bytes.length_ofNat, Slot.length_inline hwhole]
    at htargets
  have hmod : (directory slots).length % 8 = 0 := length_padded_mod _
  obtain ⟨hsizes, hentries⟩ := lies_append.1 hdirectory.of_padded
  obtain ⟨hsize, -⟩ := lies_append.1 hsizes
  rw [List.length_append, Bytes.length_ofNat, Bytes.length_ofNat] at hentries
  have hend := hentries.size_le
  rw [Slot.length_entries] at hend
  refine ⟨⟨pos, pos + (8 + 8 * slots.length), 4 + 2 * slots.length⟩, ?_, rfl, hpos, ?_⟩
  · have htable := yields_table hpos (by omega) (by omega) (by omega) (by omega) (by omega)
      (lies_distance hback) hsize (by omega)
    exact htable.mono (Nat.le_refl 1) (by omega)
  · intro k slot hk
    have hlt : k < slots.length := (List.getElem?_eq_some_iff.1 hk).1
    have hentry := Slot.lies_of_entries hentries hk
    have hslot := Slot.lies_of_inline (k := 0) hbuf hpos (by omega) (by omega) hwhole hinline
      htargets hk
    rw [Nat.zero_add] at hentry hslot
    rw [Nat.add_assoc] at hentry
    have hplace : (pos + (8 + 8 * slots.length)) % 2 = 0 := by omega
    exact ⟨Table.yields_slot hplace hlt rfl (by omega) hentry, hslot⟩

/-! ## Values of slots -/

namespace Table.Shows

variable {t : Table} {read : Nat → Reader α} {a : α} {c n : Nat}

theorem get?_empty (ht : t.Shows buf slots) (hk : slots[k]? = some .empty) :
    Yields (t.get? buf (4 + 2 * k) read) none 0 2 := by
  refine Yields.bind (ht.slot hk).1 (?_ : Yields _ none 0 0)
  exact yields_pure none

/-- A slot beyond the directory of a table is left out. -/
theorem get?_beyond (ht : t.Shows buf slots) (hk : slots.length ≤ k) :
    Yields (t.get? buf (4 + 2 * k) read) none 0 0 := by
  have hout : ¬ 4 + 2 * k < t.size := by
    rw [ht.size_eq]
    omega
  have hslot : Yields (t.slot buf (4 + 2 * k)) none 0 0 := by
    rw [Table.slot, if_neg hout]
    exact yields_pure none
  refine Yields.bind hslot (?_ : Yields _ none 0 0)
  exact yields_pure none

theorem get?_scalar (ht : t.Shows buf slots) (hk : slots[k]? = some (.scalar bs))
    (hr : Reads buf read bs a c n) : Yields (t.get? buf (4 + 2 * k) read) (some a) c (2 + n) := by
  have hmod := ht.place_mod
  obtain ⟨hslot, hlies⟩ := ht.slot hk
  have hread : Yields (read (t.pos + 8 + 8 * k)) a c n := hr _ (by omega) hlies
  refine Yields.mono (hslot.bind (hread.map some)) ?_ ?_ <;> omega

theorem get?_target (ht : t.Shows buf slots) (hk : slots[k]? = some (.target bs))
    (hr : Reads buf read bs a c n) :
    Yields (t.get? buf (4 + 2 * k) (follow buf read)) (some a) c (6 + n) := by
  have hmod := ht.place_mod
  obtain ⟨hslot, hpoints⟩ := ht.slot hk
  have hread : Yields (follow buf read (t.pos + 8 + 8 * k)) a c (4 + n) :=
    Points.yields hpoints (by omega) hr
  refine Yields.mono (hslot.bind (hread.map some)) ?_ ?_ <;> omega

/-- A choice whose table follows its code. -/
theorem choice {code m : Nat} {read : Nat → Nat → Reader α} {absent : Reader α}
    (ht : t.Shows buf slots) (hcode : code < 256)
    (hk : slots[k]? = some (.scalar (Bytes.ofNat 1 code)))
    (hv : slots[k + 1]? = some (.target bs))
    (hr : ∀ place, place % 8 = 0 → Points buf place bs → Yields (read code place) a c m) :
    Yields (t.choice buf (4 + 2 * k) read absent) a c (5 + m) := by
  have hmod := ht.place_mod
  obtain ⟨hslot, hlies⟩ := ht.slot hk
  obtain ⟨hslot', hpoints⟩ := ht.slot hv
  have hone := yields_unsigned hlies (Bytes.length_ofNat ..) (Nat.mod_one _)
  rw [Bytes.toNat_ofNat_of_lt 1 hcode] at hone
  have hread : Yields (read code (t.pos + 8 + 8 * (k + 1))) a c m := hr _ (by omega) hpoints
  refine Yields.mono (hslot'.bind (hslot.bind (hone.bind hread))) ?_ ?_ <;> omega

end Table.Shows

/-- A slot with what stands for one left out. -/
theorem Yields.getD {t : Table} {o c n : Nat} {read : Nat → Reader α} {x : Option α} (a : α)
    (h : Yields (t.get? buf o read) x c n) : Yields (t.getD buf o a read) (x.getD a) c n :=
  h.map _

end Intake.Columns.Flat
