import Intake.Proofs.Delivery
import Mathlib.Data.List.ReduceOption
/-!
# Records come in whole batches

The records of the splits of a worker, batch by batch, up to the first
batch that cannot be decoded or the first split that the service does not
know, are all that the worker can ever deliver (`Plan.readable`). Whatever
stops it, what the sink took from it at any moment is a beginning of these
records, and ends behind a batch once the worker has left, unless the sink
refused one of its records (`delivers_whole_batches`). A worker decodes a batch
before it offers the first record of it, so that only the offering of a
batch can break off inside one.
-/

namespace Intake

variable {σ α : Type} {p : Plan} {sink : Sink σ α} {sh sh' : Shared σ} {w w' : Worker}
variable {src : Service} {own done : List SplitId} {x : SplitId} {i : Nat}
variable {bs pre post : List Batch} {xs ys got recs : List Record} {front : List (List Record)}

/-! ## What can be read of splits -/

namespace Plan

/-- What the batches of splits decode to, in their order: `none` for a
batch that cannot be decoded, and for a split that the service does not
know. -/
def decodings (p : Plan) (s : Service) (splits : List SplitId) : List (Option (List Record)) :=
  splits.flatMap fun x =>
    match s.script? x with
    | none => [none]
    | some bs => bs.map fun b => (p.codec.decode p.layout b).toOption

/-- The records of the batches of splits, up to the first that cannot be
read. -/
def readable (p : Plan) (s : Service) (splits : List SplitId) : List (List Record) :=
  ((p.decodings s splits).takeWhile Option.isSome).reduceOption

/-- The batches in front can be read, with these records. -/
def Reads (p : Plan) (s : Service) (splits : List SplitId) (front : List (List Record)) : Prop :=
  front.map some <+: p.decodings s splits

theorem Reads.begins (h : p.Reads src own front) : front <+: p.readable src own := by
  obtain ⟨back, hback⟩ := h
  have hall : ∀ d ∈ front.map some, Option.isSome d = true := by simp
  have hfront : (front.map some).reduceOption = front := by simp [List.reduceOption]
  rw [readable, ← hback, List.takeWhile_append_of_pos hall, List.reduceOption_append, hfront]
  exact List.prefix_append _ _

/-- The records of batches that can be read begin those that can be. -/
theorem Reads.flatten_begins (h : p.Reads src own front) :
    front.flatten <+: (p.readable src own).flatten := by
  obtain ⟨back, hback⟩ := h.begins
  rw [← hback, List.flatten_append]
  exact List.prefix_append _ _

/-- So do they with a part of the next. -/
theorem Reads.begins_concat {given rest : List Record}
    (h : p.Reads src own (front ++ [given ++ rest])) :
    front.flatten ++ given <+: (p.readable src own).flatten := by
  refine List.IsPrefix.trans ?_ h.flatten_begins
  rw [List.flatten_append, List.flatten_singleton, ← List.append_assoc]
  exact List.prefix_append _ _

theorem exists_of_decoded? (h : p.decoded? bs = some xs) :
    ∃ front : List (List Record),
      (bs.map fun b => (p.codec.decode p.layout b).toOption) = front.map some ∧
        front.flatten = xs := by
  induction bs generalizing xs with
  | nil =>
    obtain rfl := Option.some.inj h
    exact ⟨[], rfl, rfl⟩
  | cons b bs ih =>
    obtain ⟨ys, zs, hy, hz, rfl⟩ := decoded?_cons_eq_some.1 h
    obtain ⟨front, hfront, rfl⟩ := ih hz
    exact ⟨ys :: front, by rw [List.map_cons, hfront, hy]; rfl, by simp⟩

theorem exists_of_contentsOf? (h : p.contentsOf? src done = some recs) :
    ∃ front : List (List Record), p.decodings src done = front.map some ∧ front.flatten = recs := by
  induction done generalizing recs with
  | nil =>
    obtain rfl := Option.some.inj h
    exact ⟨[], rfl, rfl⟩
  | cons x done ih =>
    obtain ⟨ys, zs, hy, hz, rfl⟩ := contentsOf?_cons_eq_some.1 h
    obtain ⟨there, hthere, rfl⟩ := ih hz
    rw [contents?, Option.bind_eq_some_iff] at hy
    obtain ⟨bs, hbs, hdec⟩ := hy
    obtain ⟨here, hhere, rfl⟩ := exists_of_decoded? hdec
    refine ⟨here ++ there, ?_, List.flatten_append⟩
    rw [decodings, List.flatMap_cons, hbs, List.map_append]
    exact congrArg₂ _ hhere hthere

/-- Records that end behind a batch, all of the batches so far having been
read. -/
def Whole (p : Plan) (s : Service) (splits : List SplitId) (got : List Record) : Prop :=
  ∃ front, p.Reads s splits front ∧ got = front.flatten

/-- The contents of the first splits are whole. -/
theorem whole_of_contentsOf? (h : p.contentsOf? src done = some recs) (rest : List SplitId) :
    p.Whole src (done ++ rest) recs := by
  obtain ⟨front, hfront, rfl⟩ := exists_of_contentsOf? h
  refine ⟨front, ?_, rfl⟩
  rw [Reads, decodings, List.flatMap_append, ← hfront]
  exact List.prefix_append _ _

/-- So are those of the first batches of the next. -/
theorem reads_of_decoded? (h : p.contentsOf? src done = some recs)
    (hx : src.script? x = some (pre ++ post)) (hpre : p.decoded? pre = some xs)
    (rest : List SplitId) :
    ∃ front, front.flatten = recs ++ xs ∧ p.Reads src (done ++ x :: rest) front ∧
      ∀ b post' ys, post = b :: post' → p.codec.decode p.layout b = .ok ys →
        p.Reads src (done ++ x :: rest) (front ++ [ys]) := by
  obtain ⟨front, hfront, rfl⟩ := exists_of_contentsOf? h
  obtain ⟨here, hhere, rfl⟩ := exists_of_decoded? hpre
  have hdecodings : p.decodings src (done ++ x :: rest) =
      (front ++ here).map some ++ ((post.map fun b => (p.codec.decode p.layout b).toOption) ++
        p.decodings src rest) := by
    rw [decodings, List.flatMap_append, List.flatMap_cons, hx, List.map_append, ← hfront, ← hhere]
    simp [decodings]
  refine ⟨front ++ here, List.flatten_append, ?_, ?_⟩
  · rw [Reads, hdecodings]
    exact List.prefix_append _ _
  · rintro b post' ys rfl hb
    have hsplit : (front ++ here ++ [ys]).map some = (front ++ here).map some ++ [some ys] := by
      simp
    rw [Reads, hdecodings, hsplit, List.prefix_append_right_inj, List.map_cons, hb]
    exact List.prefix_append [some ys] _

/-- Whole records are those of so many batches that can be read. -/
theorem Whole.exists_take (h : p.Whole src own got) :
    ∃ k, got = ((p.readable src own).take k).flatten := by
  obtain ⟨front, hfront, rfl⟩ := h
  exact ⟨front.length, by rw [← List.prefix_iff_eq_take.1 hfront.begins]⟩

theorem Whole.begins (h : p.Whole src own got) : got <+: (p.readable src own).flatten := by
  obtain ⟨front, hfront, rfl⟩ := h
  exact hfront.flatten_begins

end Plan

/-! ## Workers deliver whole batches -/

namespace Worker

variable {r : SplitReader} {torn : Prop}

/-- What a worker in the middle of a split has delivered is whole when no
batch is in hand. -/
theorem Amid.whole (h : w.Amid p src own r [] got) : p.Whole src own got := by
  obtain ⟨done, recs, xs, rfl, -, hrecs, hst, rfl⟩ := h
  obtain ⟨post, ⟨pre, hpre, hdec, -⟩, -⟩ := hst.place
  rw [List.append_nil] at hdec
  cases hx : src.script? r.split with
  | none =>
    rw [hx, Option.getD_none] at hpre
    obtain ⟨rfl, -⟩ := List.append_eq_nil_iff.1 hpre.symm
    obtain rfl := Option.some.inj hdec
    rw [List.append_nil]
    exact Plan.whole_of_contentsOf? hrecs _
  | some bs =>
    rw [hx, Option.getD_some] at hpre
    subst hpre
    obtain ⟨front, hfront, hreads, -⟩ := Plan.reads_of_decoded? hrecs hx hdec w.splits
    exact ⟨front, hreads, hfront.symm⟩

/-- A batch that its reader yields, and that is decoded, comes next among
the batches that can be read. -/
theorem Amid.reads {o : ReadOptions} {running : Bool} {r' : SplitReader} {s s' : Service}
    {b : Batch} (h : w.Amid p src own r [] got) (hs : s.scripts = src.scripts)
    (hr : r.Moves o running s r' s' (.batch b)) (hd : p.codec.decode p.layout b = .ok ys) :
    ∃ front, p.Reads src own (front ++ [ys]) ∧ got = front.flatten := by
  obtain ⟨done, recs, xs, rfl, -, hrecs, hst, rfl⟩ := h
  rw [List.append_nil] at hst
  obtain ⟨pre, post, hx, hpre⟩ := hst.exists_front hs hr
  obtain ⟨front, hfront, -, hnext⟩ := Plan.reads_of_decoded? hrecs hx hpre w.splits
  exact ⟨front, hnext _ _ _ rfl hd, hfront.symm⟩

/-- What a worker has delivered in the end: whole batches, or less of the
last if it is `torn`. -/
def EndsWhole (p : Plan) (src : Service) (own : List SplitId) (torn : Prop)
    (got : List Record) : Prop :=
  p.Whole src own got ∨ torn ∧ got <+: (p.readable src own).flatten

/-- What the records `got` that the sink took from a worker are, by where
it stands. Only a worker with a batch in hand may have delivered a part of
one, and one that was refused a record, which is then `torn`. -/
def DeliversWhole (p : Plan) (src : Service) (own : List SplitId) (torn : Prop) (w : Worker)
    (got : List Record) : Prop :=
  match w.stage with
  | .between => ∃ done, own = done ++ w.splits ∧ w.report.splits = done.length ∧
      p.contentsOf? src done = some got
  | .reading r _ => w.Amid p src own r [] got
  | .emitting r _ rest _ _ =>
    (∃ front given, p.Reads src own (front ++ [given ++ rest]) ∧ got = front.flatten ++ given) ∧
      w.Amid p src own r rest got
  | .refused _ => torn ∧ got <+: (p.readable src own).flatten
  | .failing _ | .panicked => p.Whole src own got
  | .leaving _ | .left => EndsWhole p src own torn got

/-- **What a worker delivers begins what can be read** of its splits. -/
theorem DeliversWhole.begins (h : w.DeliversWhole p src own torn got) :
    got <+: (p.readable src own).flatten := by
  unfold DeliversWhole at h
  split at h
  · obtain ⟨done, rfl, -, hgot⟩ := h
    exact (Plan.whole_of_contentsOf? hgot _).begins
  · exact h.whole.begins
  · obtain ⟨⟨front, given, hreads, rfl⟩, -⟩ := h
    exact hreads.begins_concat
  · exact h.2
  · exact h.begins
  · exact h.begins
  all_goals exact h.elim Plan.Whole.begins And.right

/-- **A worker delivers whole batches** by its own steps, where only a
refusal tears one. -/
theorem DeliversWhole.of_moves (hb : w.Belongs i own) (hs : sh.service.scripts = src.scripts)
    (h : w.DeliversWhole p src own torn (sh.recordsFrom i)) (hm : w.Moves p sink sh w' sh')
    (ht : ∀ r, w'.stage = .refused r → torn) :
    w'.DeliversWhole p src own torn (sh'.recordsFrom i) := by
  unfold DeliversWhole at h
  cases hm with
  | through hw hr =>
    simp only [hw] at h
    obtain ⟨done, rfl, -, hgot⟩ := h
    exact .inl (Plan.whole_of_contentsOf? hgot _)
  | take hw hx hrun =>
    simp only [hw] at h
    obtain ⟨done, hown, hn, hgot⟩ := h
    rw [hx] at hown
    exact ⟨done, sh.recordsFrom i, [], hown, hn, hgot, .start _, by simp⟩
  | read hw hr =>
    simp only [hw] at h
    exact h.read hr
  | decode hw hr hdec =>
    simp only [hw] at h
    obtain ⟨front, hreads, hfront⟩ := h.reads hs hr hdec
    obtain ⟨done, recs, xs, hown, hn, hrecs, hst, hgot⟩ := h
    rw [List.append_nil] at hst
    refine ⟨⟨front, [], hreads, by rw [List.append_nil]; exact hfront⟩,
      done, recs, xs, ?_, hn, hrecs, hst.batch hs hr hdec, hgot⟩
    rw [hr.split_eq]
    exact hown
  | undecoded hw hr hdec =>
    simp only [hw] at h
    exact h.whole
  | unread hw hr =>
    simp only [hw] at h
    exact h.whole
  | interrupted hw hr hi =>
    simp only [hw] at h
    exact .inl h.whole
  | finish hw hr hi =>
    simp only [hw] at h
    exact h.finish hs hr hi
  | panic hw hr =>
    simp only [hw] at h
    exact h.whole
  | emitted hw =>
    simp only [hw] at h
    exact h.2
  | accept hw ho =>
    simp only [hw] at h
    rename_i r batch rows bytes x rest y
    obtain ⟨⟨front, given, hreads, hgot⟩, hamid⟩ := h
    have hrecords := Shared.recordsFrom_push sh y (d := ⟨w.report.worker, r.split, x⟩) hb.worker
    rw [hrecords]
    exact ⟨⟨front, given ++ [x], by simpa using hreads, by simp [hgot]⟩, hamid.accept⟩
  | refuse hw ho =>
    simp only [hw] at h
    obtain ⟨⟨front, given, hreads, hgot⟩, -⟩ := h
    refine ⟨ht _ rfl, ?_⟩
    change sh.recordsFrom i <+: _
    rw [hgot]
    exact hreads.begins_concat
  | cancel hw =>
    simp only [hw] at h
    exact .inr h
  | fail hw =>
    simp only [hw] at h
    exact .inl h
  | leave hw =>
    simp only [hw] at h
    exact h

end Worker

/-! ## Runs deliver whole batches -/

namespace Machine

variable {m : Machine σ}

/-- Whether the sink has refused a record of worker number `i`, which is
about to cancel the run for it. -/
def isRefused (m : Machine σ) (i : Nat) : Bool :=
  match m.workers[i]? with
  | some w => (w.stage matches .refused _)
  | none => false

theorem isRefused_of_stage {r : SplitReader} (hw : m.workers[i]? = some w)
    (hs : w.stage = .refused r) : m.isRefused i = true := by
  rw [isRefused, hw]
  simp [hs]

/-- A sink that refuses nothing refuses no record of a worker. -/
theorem isRefused_run (hsink : ∀ y running n x z, sink.offer y running n x ≠ .refused z)
    (hm : m.isRefused i = false) (es : List (Event α)) : (m.run p sink es).isRefused i = false := by
  refine run_induction (Q := fun m => m.isRefused i = false) es hm ?_ (fun _ h => h) fun _ _ h => h
  intro m j w w' sh' h hw hmoves
  by_cases hij : j = i
  · subst hij
    rw [isRefused, List.getElem?_set_self (List.getElem?_eq_some_iff.1 hw).1]
    cases hmoves with
    | refuse _ ho => exact absurd ho (hsink _ _ _ _ _)
    | _ => rfl
  · rw [isRefused, List.getElem?_set_ne hij]
    exact h

theorem scripts_run (m : Machine σ) (es : List (Event α)) :
    (m.run p sink es).shared.service.scripts = m.shared.service.scripts :=
  run_induction (Q := fun m' => m'.shared.service.scripts = m.shared.service.scripts) es rfl
    (fun h _ hmoves => hmoves.service_eq.1.trans h) (fun _ h => h) fun _ _ h => h

end Machine

variable {c : EngineConfig} {t : Session} {selected : List String} {g : Ingestion}
variable {service : Service} {y : σ} {es : List (Event α)}

namespace Ingestion

/-- **Workers deliver whole batches throughout a run**, where only a
refusal tears one. -/
theorem deliversWhole (hg : ofSession c t selected = .ok g) {torn : Prop} (es : List (Event α))
    (ht : ∀ fs, fs <+: es → (g.run service sink y fs).isRefused i = true → torn) :
    ∀ w, (g.run service sink y es).workers[i]? = some w →
      w.DeliversWhole g.plan service (g.own i) torn
        ((g.run service sink y es).shared.recordsFrom i) := by
  induction es using List.reverseRecOn with
  | nil =>
    intro w hw
    obtain ⟨-, rfl⟩ := start_workers hg service y hw
    exact ⟨[], rfl, rfl, rfl⟩
  | append_singleton es e ih =>
    have hrun : g.run service sink y (es ++ [e]) = (g.run service sink y es).apply g.plan sink e :=
      Machine.run_append _ _ _ _ _
    have hI := ih fun fs hfs => ht fs (hfs.trans (List.prefix_append _ _))
    have ht' := ht _ List.prefix_rfl
    rw [hrun] at ht' ⊢
    refine Machine.apply_cases
      (Q := fun m => (m.isRefused i = true → torn) → ∀ w, m.workers[i]? = some w →
        w.DeliversWhole g.plan service (g.own i) torn (m.shared.recordsFrom i))
      e (fun _ => hI) ?_ (fun _ _ => hI) (fun _ _ => hI) ht'
    intro j v v' sh' hv hmoves hrefused w hw
    have hb := ((accounts hg service sink y es).1 j v hv).1
    have hj : j < (g.run service sink y es).workers.length := (List.getElem?_eq_some_iff.1 hv).1
    by_cases hij : i = j
    · subst hij
      have hset := hw
      rw [List.getElem?_set_self hj] at hw
      obtain rfl := Option.some.inj hw
      exact (hI v hv).of_moves hb (Machine.scripts_run _ es) hmoves
        fun r hr => hrefused (Machine.isRefused_of_stage hset hr)
    · rw [List.getElem?_set_ne fun h => hij h.symm] at hw
      have happ := hmoves.apart hij (disjoint_own hg hij) hb
      change w.DeliversWhole _ _ _ _ (sh'.recordsFrom i)
      rw [happ.records]
      exact hI w hw

end Ingestion

/-- **Records come in whole batches.** At every moment of a run, the
records the sink took from worker `i` begin what can be read of the splits
at the positions `i`, `i + n`, `i + 2n`, … for `n` workers: the records of
their batches up to the first that cannot be decoded or the first split
that the service does not know. Once the run is over, however it ended,
they are those of so many batches, unless the sink refused a record of the
worker. -/
theorem delivers_whole_batches (hg : Ingestion.ofSession c t selected = .ok g)
    (hi : i < c.parallelism.toNat) :
    ∃ own : List SplitId, (∀ k, own[k]? = t.splits[i + k * c.parallelism.toNat]?) ∧
      (g.run service sink y es).shared.recordsFrom i <+: (g.plan.readable service own).flatten ∧
      ((g.run service sink y es).outcome?.isSome = true →
        (∀ fs, fs <+: es → (g.run service sink y fs).isRefused i = false) →
        ∃ k, (g.run service sink y es).shared.recordsFrom i =
          ((g.plan.readable service own).take k).flatten) := by
  have hlen := Ingestion.length_workers_run hg service sink y es
  have hw := List.getElem?_eq_getElem (l := (g.run service sink y es).workers) (i := i) (by omega)
  refine ⟨g.own i, fun k => ?_, ?_, fun ho hnever => ?_⟩
  · rw [Ingestion.own_eq hg hi, Assignment.splitsOf, getElem?_stride (by omega),
      Nat.max_eq_left (by omega)]
  · have htrue : ∀ fs, fs <+: es → (g.run service sink y fs).isRefused i = true → True :=
      fun _ _ _ => trivial
    exact (Ingestion.deliversWhole hg es htrue _ hw).begins
  · have hfalse : ∀ fs, fs <+: es → (g.run service sink y fs).isRefused i = true → False := by
      intro fs hfs hr
      rw [hnever fs hfs] at hr
      cases hr
    have hd := Ingestion.deliversWhole hg es hfalse _ hw
    obtain ⟨outcome, ho⟩ := Option.isSome_iff_exists.1 ho
    rw [Worker.DeliversWhole, (Ingestion.settled_of_outcome hg ho).1.stage_eq hw] at hd
    exact (hd.resolve_right fun h => h.1).exists_take

namespace Sample

/-- The second batch of split `a` breaks off inside its second row, and a
fault comes before it. -/
def broken : Service :=
  { scripts := [(⟨"a"⟩, [⟨.avro, 2, [10, 12]⟩, ⟨.avro, 2, [14, 128]⟩, ⟨.avro, 1, [16]⟩]),
      (⟨"b"⟩, [⟨.avro, 1, [18]⟩])]
    faults := [(⟨"a"⟩, [.afterBatches 1 .network])] }

end Sample

/-- The run fails, with the first batch delivered and no row of the
second. -/
theorem delivered_before_broken_batch :
    let m := Sample.ingestion.run Sample.broken Sink.collecting () Sample.turns
    m.outcome?.map Outcome.result =
        some (.error (.decode ⟨"a"⟩ 1 ⟨.row 1 .malformed, some 1⟩)) ∧
      m.shared.recordsFrom 0 = [⟨[.int64 5]⟩, ⟨[.int64 6]⟩] ∧
      ∃ own : List SplitId, (∀ k, own[k]? = Sample.session.splits[0 + k * 2]?) ∧
        ∃ k, m.shared.recordsFrom 0 =
          ((Sample.ingestion.plan.readable Sample.broken own).take k).flatten := by
  intro m
  have hrecords : m.shared.recordsFrom 0 = [⟨[.int64 5]⟩, ⟨[.int64 6]⟩] := by decide +kernel
  have hover : m.outcome?.isSome = true := by decide +kernel
  obtain ⟨own, hown, -, hwhole⟩ :=
    delivers_whole_batches Sample.ofSession_session (i := 0) (by decide)
  refine ⟨by decide +kernel, hrecords, own, hown, hwhole hover fun fs _ => ?_⟩
  exact Machine.isRefused_run (by simp [Sink.collecting]) rfl fs

end Intake
