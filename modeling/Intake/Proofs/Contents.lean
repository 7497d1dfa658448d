import Intake.Proofs.Codecs
import Intake.Proofs.Views
/-!
# The contents of splits, and places in them

The contents of a split are the records of its batches, decoded in the
order in which the service serves them. A place in a split is a point
between two batches, told by the rows in front of it. A call that asks for
the batches behind so many rows finds a stream that goes on from there,
but for batches without rows, which it may serve again and which hold no
records (`Plan.Place.streamFor_eq`).
-/

namespace Intake

variable {p : Plan} {s s' : Service} {x : SplitId} {rows : UInt64} {xs ys : List Record}
variable {as bs pre post : List Batch} {b : Batch} {c : ReadCall}

/-! ## Contents -/

/-- The number of rows that batches declare. -/
def rowTotal : List Batch → Nat
  | [] => 0
  | b :: bs => b.rowCount.toNat + rowTotal bs

@[simp] theorem rowTotal_append (as bs : List Batch) :
    rowTotal (as ++ bs) = rowTotal as + rowTotal bs := by
  induction as with
  | nil => simp [rowTotal]
  | cons a as ih =>
    rw [List.cons_append, rowTotal, rowTotal, ih]
    omega

namespace Plan

/-- The records of batches, one batch after the other, if all of them can
be decoded. -/
def decoded? (p : Plan) : List Batch → Option (List Record)
  | [] => some []
  | b :: bs =>
    match p.codec.decode p.layout b, p.decoded? bs with
    | .ok xs, some ys => some (xs ++ ys)
    | _, _ => none

/-- The records of a split, if the service knows it and all of its batches
can be decoded. -/
def contents? (p : Plan) (s : Service) (x : SplitId) : Option (List Record) :=
  (s.script? x).bind p.decoded?

/-- The records of splits, one split after the other. -/
def contentsOf? (p : Plan) (s : Service) : List SplitId → Option (List Record)
  | [] => some []
  | x :: xs =>
    match p.contents? s x, p.contentsOf? s xs with
    | some as, some bs => some (as ++ bs)
    | _, _ => none

theorem decoded?_cons_eq_some :
    p.decoded? (b :: bs) = some xs ↔
      ∃ ys zs, p.codec.decode p.layout b = .ok ys ∧ p.decoded? bs = some zs ∧ xs = ys ++ zs := by
  rw [decoded?]
  constructor
  · intro h
    split at h
    · rename_i ys zs hy hz
      exact ⟨ys, zs, hy, hz, (Option.some.inj h).symm⟩
    · cases h
  · rintro ⟨ys, zs, hy, hz, rfl⟩
    rw [hy, hz]

theorem decoded?_append_eq_some :
    p.decoded? (as ++ bs) = some xs ↔
      ∃ ys zs, p.decoded? as = some ys ∧ p.decoded? bs = some zs ∧ xs = ys ++ zs := by
  induction as generalizing xs with
  | nil => simp [decoded?]
  | cons a as ih =>
    rw [List.cons_append, decoded?_cons_eq_some]
    constructor
    · rintro ⟨us, vs, hu, hv, rfl⟩
      obtain ⟨ys, zs, hy, hz, rfl⟩ := ih.1 hv
      exact ⟨us ++ ys, zs, decoded?_cons_eq_some.2 ⟨us, ys, hu, hy, rfl⟩, hz, by simp⟩
    · rintro ⟨ws, zs, hw, hz, rfl⟩
      obtain ⟨us, ys, hu, hy, rfl⟩ := decoded?_cons_eq_some.1 hw
      exact ⟨us, ys ++ zs, hu, ih.2 ⟨ys, zs, hy, hz, rfl⟩, by simp⟩

/-- The records of one more batch stand behind those of the others. -/
theorem decoded?_concat (hs : p.decoded? bs = some xs) (hb : p.codec.decode p.layout b = .ok ys) :
    p.decoded? (bs ++ [b]) = some (xs ++ ys) :=
  decoded?_append_eq_some.2 ⟨xs, ys, hs, decoded?_cons_eq_some.2 ⟨ys, [], hb, rfl, by simp⟩, rfl⟩

theorem contentsOf?_cons_eq_some {ss : List SplitId} :
    p.contentsOf? s (x :: ss) = some xs ↔
      ∃ ys zs, p.contents? s x = some ys ∧ p.contentsOf? s ss = some zs ∧ xs = ys ++ zs := by
  rw [contentsOf?]
  constructor
  · intro h
    split at h
    · rename_i ys zs hy hz
      exact ⟨ys, zs, hy, hz, (Option.some.inj h).symm⟩
    · cases h
  · rintro ⟨ys, zs, hy, hz, rfl⟩
    rw [hy, hz]

/-- The contents of one more split stand behind those of the others. -/
theorem contentsOf?_concat {ss : List SplitId} (hs : p.contentsOf? s ss = some xs)
    (hx : p.contents? s x = some ys) : p.contentsOf? s (ss ++ [x]) = some (xs ++ ys) := by
  induction ss generalizing xs with
  | nil =>
    obtain rfl := Option.some.inj hs
    exact contentsOf?_cons_eq_some.2 ⟨ys, [], hx, rfl, by simp⟩
  | cons a ss ih =>
    obtain ⟨us, vs, hu, hv, rfl⟩ := contentsOf?_cons_eq_some.1 hs
    exact contentsOf?_cons_eq_some.2 ⟨us, vs ++ ys, hu, ih hv, by simp⟩

theorem contentsOf?_congr (h : s'.scripts = s.scripts) (ss : List SplitId) :
    p.contentsOf? s' ss = p.contentsOf? s ss := by
  induction ss with
  | nil => rfl
  | cons x ss ih => rw [contentsOf?, contentsOf?, ih, contents?, contents?, Service.script?_congr h]

/-- A split with contents is one that the service knows. -/
theorem isSome_script?_of_contents? (h : (p.contents? s x).isSome) : (s.script? x).isSome := by
  rw [contents?] at h
  cases hb : s.script? x with
  | none =>
    rw [hb] at h
    cases h
  | some bs => rfl

/-- Batches in front that are decoded end in front of one that is not. -/
theorem begins_of_decoded? {e : DecodeError} (h : p.decoded? pre = some xs)
    (hpre : pre <+: as ++ b :: bs) (hb : p.codec.decode p.layout b = .error e) : pre <+: as := by
  rcases Nat.lt_or_ge as.length pre.length with hlt | hle
  · -- else the batch is one of those decoded
    have has : as ++ [b] <+: pre :=
      List.prefix_of_prefix_length_le ⟨bs, by simp⟩ hpre (by simpa [Nat.succ_le_iff] using hlt)
    obtain ⟨more, rfl⟩ := has
    obtain ⟨-, ys, -, hy, -⟩ := decoded?_append_eq_some.1 (List.append_assoc .. ▸ h)
    obtain ⟨zs, -, hz, -⟩ := decoded?_cons_eq_some.1 hy
    cases hz.symm.trans hb
  · exact List.prefix_of_prefix_length_le hpre (List.prefix_append _ _) hle

/-- There are as many records as rows are declared. -/
theorem length_of_decoded? (h : p.decoded? bs = some xs) : xs.length = rowTotal bs := by
  induction bs generalizing xs with
  | nil =>
    obtain rfl := Option.some.inj h
    rfl
  | cons b bs ih =>
    obtain ⟨ys, zs, hy, hz, rfl⟩ := decoded?_cons_eq_some.1 h
    rw [List.length_append, rowTotal, ih hz, Codec.length_of_decode hy]

end Plan

/-! ## Places -/

/-- Behind the rows of `pre` a call finds what follows, and in front of it
at most batches without rows. -/
theorem skipRows_append (post : List Batch) {offset skipped : UInt64}
    (h : offset.toNat = skipped.toNat + rowTotal pre) :
    ∃ front zeros, pre = front ++ zeros ∧ rowTotal zeros = 0 ∧
      skipRows offset skipped (pre ++ post) = (offset, zeros ++ post) := by
  induction pre generalizing skipped with
  | nil =>
    have ho : offset = skipped := UInt64.toNat_inj.1 (by simpa [rowTotal] using h)
    subst ho
    refine ⟨[], [], rfl, rfl, ?_⟩
    cases post with
    | nil => rfl
    | cons b bs => simp [skipRows]
  | cons b pre ih =>
    rw [rowTotal] at h
    rw [List.cons_append, skipRows]
    split
    · -- the batch is skipped: the count of rows does not wrap, as it stays below the offset
      have hsum : (skipped + b.rowCount).toNat = skipped.toNat + b.rowCount.toNat := by
        have := offset.toNat_lt
        rw [UInt64.toNat_add, Nat.mod_eq_of_lt (by omega)]
      obtain ⟨front, zeros, rfl, hz, hs⟩ := ih (by rw [hsum]; omega)
      exact ⟨b :: front, zeros, rfl, hz, hs⟩
    · rename_i hlt
      rw [UInt64.lt_iff_toNat_lt] at hlt
      have ho : skipped = offset := UInt64.toNat_inj.1 (by omega)
      exact ⟨[], b :: pre, rfl, by rw [rowTotal]; omega, by rw [ho]; rfl⟩

namespace Plan

/-- A place in a split: behind `rows` rows that make up the records `xs`
and in front of the batches `post`. A split that the service does not know
has no batches. -/
def Place (p : Plan) (s : Service) (x : SplitId) (rows : UInt64) (xs : List Record)
    (post : List Batch) : Prop :=
  ∃ pre, (s.script? x).getD [] = pre ++ post ∧ p.decoded? pre = some xs ∧
    rows.toNat = rowTotal pre

namespace Place

/-- A split starts at its first batch. -/
theorem start : p.Place s x 0 [] ((s.script? x).getD []) := ⟨[], rfl, rfl, rfl⟩

/-- **A call at a place of a known split goes on from there.** Unless a
fault keeps it from opening a stream, it finds the batches behind the
place, or behind another with the same rows and records. -/
theorem streamFor_eq (h : p.Place s x rows xs post) (hx : (s.script? x).isSome)
    (hs : c.split = x) (ho : c.offset = rows) (n : Option (Nat × TransportKind)) :
    ∃ post', p.Place s x rows xs post' ∧
      s.streamFor c (n.map fun f => .afterBatches f.1 f.2) = .ok ⟨x, post', 0, n⟩ := by
  obtain ⟨pre, hpre, hdec, hrows⟩ := h
  obtain ⟨bs, hbs⟩ := Option.isSome_iff_exists.1 hx
  rw [hbs, Option.getD_some] at hpre
  obtain ⟨front, zeros, rfl, hz, hskip⟩ :=
    skipRows_append post (show rows.toNat = (0 : UInt64).toNat + rowTotal pre by simp [hrows])
  obtain ⟨ys, zs, hy, hzs, rfl⟩ := decoded?_append_eq_some.1 hdec
  have hnil : zs = [] := List.eq_nil_of_length_eq_zero (by rw [length_of_decoded? hzs, hz])
  subst hnil
  refine ⟨zeros ++ post, ⟨front, ?_, by simpa using hy, ?_⟩, ?_⟩
  · rw [hbs, Option.getD_some, hpre, List.append_assoc]
  · rw [hrows, rowTotal_append, hz, Nat.add_zero]
  · rw [← hpre] at hskip
    cases n with
    | none => simp [Service.streamFor, hs, ho, hbs, hskip]
    | some f => simp [Service.streamFor, hs, ho, hbs, hskip]

/-- What comes of a call at a place of a known split: the fault that keeps
it from opening a stream, or a stream that goes on from there. -/
theorem streamFor_cases (h : p.Place s x rows xs post) (hx : (s.script? x).isSome)
    (hs : c.split = x) (ho : c.offset = rows) (f : Option Fault) :
    (∃ kind, f = some (.onOpen kind) ∧
        s.streamFor c f = .error ⟨kind, .openFault x, none⟩) ∨
      ∃ n post', f = n.map (fun f => .afterBatches f.1 f.2) ∧ p.Place s x rows xs post' ∧
        s.streamFor c f = .ok ⟨x, post', 0, n⟩ := by
  have opened : ∀ n : Option (Nat × TransportKind), f = n.map (fun f => .afterBatches f.1 f.2) →
      ∃ n post', f = n.map (fun f => .afterBatches f.1 f.2) ∧ p.Place s x rows xs post' ∧
        s.streamFor c f = .ok ⟨x, post', 0, n⟩ := by
    rintro n rfl
    obtain ⟨post', hp, he⟩ := h.streamFor_eq hx hs ho n
    exact ⟨n, post', rfl, hp, he⟩
  rcases f with _ | ⟨kind⟩ | ⟨n, kind⟩
  · exact .inr (opened none rfl)
  · exact .inl ⟨kind, rfl, by rw [← hs]; rfl⟩
  · exact .inr (opened (some (n, kind)) rfl)

/-- The place behind a batch that is decoded, and whose rows can still be
counted. -/
theorem advance (h : p.Place s x rows xs (b :: post)) (hb : p.codec.decode p.layout b = .ok ys)
    (hfit : rows.toNat + b.rowCount.toNat < UInt64.size) :
    p.Place s x (rows + b.rowCount) (xs ++ ys) post := by
  obtain ⟨pre, hpre, hdec, hrows⟩ := h
  refine ⟨pre ++ [b], by simpa using hpre, decoded?_concat hdec hb, ?_⟩
  rw [UInt64.toNat_add, Nat.mod_eq_of_lt hfit, hrows, rowTotal_append, rowTotal, rowTotal,
    Nat.add_zero]

/-- The place behind the last batch of a known split. -/
theorem finish (h : p.Place s x rows xs []) (hx : (s.script? x).isSome) :
    p.contents? s x = some xs := by
  obtain ⟨pre, hpre, hdec, -⟩ := h
  obtain ⟨bs, hbs⟩ := Option.isSome_iff_exists.1 hx
  rw [hbs, Option.getD_some, List.append_nil] at hpre
  rw [contents?, hbs, Option.bind_some, hpre, hdec]

/-- The next batch of a split that can be read can be decoded. -/
theorem decodes (h : p.Place s x rows xs (b :: post)) (hx : p.contents? s x = some ys) :
    ∃ zs, p.codec.decode p.layout b = .ok zs := by
  obtain ⟨pre, hpre, -, -⟩ := h
  rw [contents?, Option.bind_eq_some_iff] at hx
  obtain ⟨bs, hbs, hdec⟩ := hx
  rw [hbs, Option.getD_some] at hpre
  rw [hpre] at hdec
  obtain ⟨-, vs, -, hv, -⟩ := decoded?_append_eq_some.1 hdec
  obtain ⟨zs, -, hz, -⟩ := decoded?_cons_eq_some.1 hv
  exact ⟨zs, hz⟩

end Place

end Plan

end Intake
