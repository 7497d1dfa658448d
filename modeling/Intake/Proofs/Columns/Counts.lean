import Intake.Columns.Frame
/-!
# What a message counts

The counts of a message, read as words of 64 bits, stay below the limit
that the cutting into frames sets to any count. So a block is let through
just when its body has room for what it counts
(`Message.check_eq_ok_iff`).
-/

namespace Intake.Columns

/-- A number of rows or nulls that there is room for in a body: eight in a
byte. -/
def HasRoom (body : Nat) (n : Int) : Prop := 0 ≤ n ∧ n ≤ 8 * body

/-- A header that a stream of batches has in front of a body of `body`
bytes. -/
def Header.IsTaken (body : Nat) : Header → Prop
  | .none | .schema _ => True
  | .block b => b.compressed = false ∧ HasRoom body b.length ∧
      ∀ nodes, b.nodes = some nodes → ∀ n ∈ nodes, HasRoom body n.1 ∧ HasRoom body n.2
  | .other _ => False

/-! ## Counts are of 64 bits -/

namespace Flat

variable {α β : Type} {r : Reader α} {f : α → Reader β} {P : α → Prop} {Q : β → Prop}
variable {buf : Array UInt8} {t : Table} {read : Nat → Reader α} {offset levels : Nat} {d : α}

/-- Whatever a reader yields is so. -/
def Ensures (r : Reader α) (P : α → Prop) : Prop := ∀ b a b', r b = some (a, b') → P a

theorem ensures_pure {a : α} (h : P a) : Ensures (pure a) P := by
  rintro b _ _ ⟨⟩
  exact h

theorem ensures_fail : Ensures fail P := by
  rintro b a b' ⟨⟩

theorem ensures_bind (hr : Ensures r P) (hf : ∀ a, P a → Ensures (f a) Q) :
    Ensures (r >>= f) Q := by
  intro b c b' h
  obtain ⟨⟨a, b''⟩, ha, hc⟩ := Option.bind_eq_some_iff.1 h
  exact hf a (hr b a b'' ha) b'' c b' hc

/-- A step whose result does not matter. -/
theorem ensures_next (hf : ∀ a, Ensures (f a) Q) : Ensures (r >>= f) Q :=
  ensures_bind (P := fun _ => True) (fun _ _ _ _ => trivial) fun a _ => hf a

theorem ensures_follow (h : ∀ pos, Ensures (read pos) P) (pos : Nat) :
    Ensures (follow buf read pos) P :=
  ensures_next fun distance => h (pos + distance)

theorem ensures_get? (h : ∀ pos, Ensures (read pos) P) :
    Ensures (t.get? buf offset read) fun a? => ∀ a, a? = some a → P a := by
  refine ensures_next fun slot => ?_
  cases slot with
  | none => exact ensures_pure nofun
  | some pos =>
    refine ensures_bind (h pos) fun a ha => ensures_pure ?_
    rintro _ ⟨⟩
    exact ha

theorem ensures_getD (hd : P d) (h : ∀ pos, Ensures (read pos) P) :
    Ensures (t.getD buf offset d read) P := by
  refine ensures_bind (ensures_get? h) fun a? ha => ensures_pure ?_
  cases a? with
  | none => exact hd
  | some a => exact ha a rfl

theorem ensures_choice {read : Nat → Nat → Reader α} {absent : Reader α}
    (h : ∀ code pos, Ensures (read code pos) P) (habsent : Ensures absent P) :
    Ensures (t.choice buf offset read absent) P := by
  refine ensures_next fun value => ensures_next fun code => ?_
  cases value with
  | none =>
    cases code with
    | none => exact habsent
    | some code => exact ensures_fail
  | some value =>
    cases code with
    | none => exact ensures_fail
    | some code => exact ensures_next fun n => h n value

theorem ensures_nested {read : Table → Reader α} (h : ∀ t, Ensures (read t) P) (pos : Nat) :
    Ensures (nested buf levels read pos) P :=
  ensures_next fun t => ensures_next fun _ => h t

/-- A number that a signed word of 64 bits can tell. -/
def IsWord (n : Int) : Prop := n ≤ 0x7FFFFFFFFFFFFFFF

theorem isWord_zero : IsWord 0 := by
  rw [IsWord]
  omega

theorem isWord_signed (n : Nat) : IsWord (Bytes.signed 8 n) := by
  have h : (BitVec.ofNat (8 * 8) n).toInt < 2 ^ (8 * 8 - 1) := BitVec.toInt_lt
  rw [IsWord, Bytes.signed]
  omega

theorem ensures_signed (pos : Nat) : Ensures (signed buf 8 pos) IsWord :=
  ensures_next fun n => ensures_pure (isWord_signed n)

theorem ensures_pairs (pos : Nat) :
    Ensures (pairs buf pos) fun ns => ∀ n ∈ ns, IsWord n.1 ∧ IsWord n.2 := by
  refine ensures_next fun count => ensures_pure fun n hn => ?_
  obtain ⟨i, -, rfl⟩ := List.mem_map.1 hn
  dsimp only
  exact ⟨isWord_signed _, isWord_signed _⟩

end Flat

open Flat

/-- A header none of whose counts is more than a word tells. -/
def Header.CountsInWords : Header → Prop
  | .block b => IsWord b.length ∧ ∀ nodes, b.nodes = some nodes → ∀ n ∈ nodes,
      IsWord n.1 ∧ IsWord n.2
  | _ => True

theorem ensures_block (buf : Array UInt8) (levels pos : Nat) :
    Ensures (readBlock buf levels pos) fun b => (Header.block b).CountsInWords := by
  refine ensures_nested (fun t => ?_) pos
  refine ensures_bind (ensures_getD isWord_zero ensures_signed) fun length hlength => ?_
  refine ensures_bind (ensures_get? (ensures_follow ensures_pairs)) fun nodes hnodes => ?_
  exact ensures_next fun buffers => ensures_next fun compression => ensures_next fun variadic =>
    ensures_pure ⟨hlength, hnodes⟩

theorem ensures_header (buf : Array UInt8) (levels : Nat) (t : Table) (offset : Nat) :
    Ensures (readHeader buf levels t offset) Header.CountsInWords := by
  refine ensures_choice (fun code pos => ?_) (ensures_pure trivial)
  split
  · exact ensures_pure trivial
  · exact ensures_next fun schema => ensures_pure trivial
  · exact ensures_next fun _ => ensures_pure trivial
  · exact ensures_bind (ensures_follow (ensures_block buf levels) pos) fun b hb => ensures_pure hb
  · exact ensures_next fun _ => ensures_pure trivial
  · exact ensures_next fun _ => ensures_pure trivial
  · exact ensures_pure trivial

/-- **The counts that a message tells are of 64 bits.** -/
theorem Message.countsInWords {metadata : Bytes} {m : Message}
    (h : Message.ofBytes? metadata = some m) : m.header.CountsInWords := by
  obtain ⟨⟨m', budget⟩, hread, rfl⟩ := Option.map_eq_some_iff.1 h
  refine ensures_follow (P := fun m => m.header.CountsInWords) (ensures_nested fun t => ?_)
    0 _ _ _ hread
  exact ensures_next fun version => ensures_bind (ensures_header _ _ t 6) fun header hheader =>
    ensures_next fun bodyLength => ensures_next fun notes => ensures_pure hheader

/-! ## One message -/

theorem fitsBody_iff {body : Nat} {n : Int} (h : IsWord n) :
    fitsBody body n = true ↔ HasRoom body n := by
  unfold IsWord at h
  simp only [fitsBody, HasRoom, Bool.and_eq_true, decide_eq_true_eq]
  omega

/-- A block is let through just when there is room for what it counts. -/
theorem BlockTable.isPlausible_iff {b : BlockTable} {body : Nat}
    (h : (Header.block b).CountsInWords) :
    b.isPlausible body = true ↔ HasRoom body b.length ∧
      ∀ nodes, b.nodes = some nodes → ∀ n ∈ nodes, HasRoom body n.1 ∧ HasRoom body n.2 := by
  obtain ⟨hlength, hnodes⟩ := h
  rw [isPlausible, Bool.and_eq_true, fitsBody_iff hlength, List.all_eq_true]
  refine and_congr_right fun _ => ?_
  cases hn : b.nodes with
  | none => simp
  | some nodes =>
    simp only [Option.getD_some, Option.some.injEq, forall_eq']
    refine forall₂_congr fun n hmem => ?_
    obtain ⟨hrows, hnulls⟩ := hnodes nodes hn n hmem
    rw [Bool.and_eq_true, fitsBody_iff hrows, fitsBody_iff hnulls]

theorem Header.check_eq_ok_iff {header : Header} {body : Nat} (h : header.CountsInWords)
    (index : Nat) : header.check index body = .ok () ↔ header.IsTaken body := by
  cases header with
  | none => exact iff_of_true rfl trivial
  | schema table => exact iff_of_true rfl trivial
  | other code => exact iff_of_false nofun id
  | block b =>
    rw [check, IsTaken, ← BlockTable.isPlausible_iff h]
    cases b.compressed <;> cases b.isPlausible body <;> simp

/-- What is checked of a message is whether a stream of batches has it. -/
theorem Message.check_eq_ok_iff {metadata : Bytes} {m : Message}
    (h : Message.ofBytes? metadata = some m) (index body : Nat) :
    m.header.check index body = .ok () ↔ m.header.IsTaken body :=
  Header.check_eq_ok_iff (countsInWords h) index

end Intake.Columns
