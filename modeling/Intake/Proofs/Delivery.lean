import Intake.Proofs.Contents
import Intake.Proofs.Summary
/-!
# Exactly-once delivery

At every moment of a run that goes on, the records the sink took from a
worker are the contents of the splits the worker has finished and, of the
split in hand, those in front of the place where its reader stands
(`Worker.Tracks`). Failures that are met by another call move the reader
to another place with the same records. So when a run is completed, every
worker has delivered the contents of its splits, each record once and in
order (`delivered_of_completed`).
-/

namespace Intake

variable {σ α : Type} {p : Plan} {sink : Sink σ α} {sh sh' : Shared σ} {w w' : Worker}
variable {o : ReadOptions} {running : Bool} {r r' : SplitReader} {src s s' s₁ : Service}
variable {st st' : Stream} {e : TransportError} {b : Batch} {g : Signal} {xs ys : List Record}
variable {own : List SplitId} {i : Nat} {got : List Record}

/-! ## Readers keep their place -/

/-- The rows of each script come to less than 64 bits count, if those of
each split do. -/
theorem Service.rowTotal_lt (h : ∀ x ∈ own, rowTotal ((src.script? x).getD []) < UInt64.size) :
    ∀ x ∈ own, ∀ bs, src.script? x = some bs → rowTotal bs < UInt64.size := by
  intro x hx bs hb
  have hlt := h x hx
  rwa [hb, Option.getD_some] at hlt

/-- So do the rows of each split, if those of each script do. -/
theorem Service.rowTotal_getD_lt {x : SplitId}
    (h : ∀ bs, src.script? x = some bs → rowTotal bs < UInt64.size) :
    rowTotal ((src.script? x).getD []) < UInt64.size := by
  cases hb : src.script? x with
  | none => decide
  | some bs => exact h bs hb

namespace Stream

/-- The next batch of a stream is the first of those still to come. -/
theorem next_eq_batch (h : st.next = .ok (some (b, st'))) :
    st.remaining = b :: st'.remaining ∧ st'.failAfter = st.failAfter := by
  unfold next at h
  split at h
  · cases h
  · split at h
    · cases h
    · rename_i hr
      cases h
      exact ⟨hr, rfl⟩

/-- A stream ends behind its last batch. -/
theorem next_eq_end (h : st.next = .ok none) : st.remaining = [] := by
  unfold next at h
  split at h
  · cases h
  · split at h
    · assumption
    · cases h

/-- A stream that has come to its fault fails. -/
theorem next_at_fault (x : SplitId) (bs : List Batch) (n : Nat) (kind : TransportKind) :
    next ⟨x, bs, n, some (n, kind)⟩ = .error ⟨kind, .streamFault x n, none⟩ := by
  simp [next, Option.filter_some]

/-- Anywhere else it goes on with the first of the batches still to come. -/
theorem next_off_fault {f : Option (Nat × TransportKind)} {n : Nat}
    (hf : ∀ kind, f ≠ some (n, kind)) (x : SplitId) :
    next ⟨x, [], n, f⟩ = .ok none ∧
      ∀ b bs, next ⟨x, b :: bs, n, f⟩ = .ok (some (b, ⟨x, bs, n + 1, f⟩)) := by
  have hnone : (f.filter fun g => n == g.1) = none := by
    rw [Option.filter_eq_none_iff]
    rintro ⟨m, kind⟩ hm
    have hne : n ≠ m := fun h => hf kind (h ▸ hm)
    simpa using hne
  simp [next, hnone]

/-- A stream fails by the fault it was opened with. -/
theorem failAfter_of_next_error (h : st.next = .error e) :
    ∃ n, st.failAfter = some (n, e.kind) := by
  unfold next at h
  split at h
  · rename_i n kind hf
    cases h
    exact ⟨n, (Option.filter_eq_some_iff.1 hf).1⟩
  · split at h <;> cases h

end Stream

namespace Service

/-- The stream a call opens is the one that the scripts have for it. -/
theorem streamFor_congr (h : s'.scripts = s.scripts) (c : ReadCall) (f : Option Fault) :
    s'.streamFor c f = s.streamFor c f := by
  unfold streamFor
  rw [script?_congr h]

/-- A stream is opened only on a known split. -/
theorem isSome_script?_of_streamFor {c : ReadCall} {f : Option Fault}
    (h : s.streamFor c f = .ok st) : (s.script? c.split).isSome := by
  unfold streamFor at h
  split at h
  · cases h
  · split at h
    · cases h
    · rename_i bs hb
      rw [hb]
      rfl

end Service

/-- Whether a signal is the last that tells anything. -/
def Signal.isLast : Signal → Bool
  | .failed _ | .ended => true
  | _ => false

namespace SplitReader

/-- Where a reader stands in its split: `xs` are the records in front of
it, and the stream it holds has the batches behind it. -/
structure Stands (p : Plan) (src : Service) (r : SplitReader) (xs : List Record) : Prop where
  place : ∃ post, p.Place src r.split r.rows xs post ∧
    ∀ st, r.stream = some st → (src.script? r.split).isSome ∧ st.remaining = post
  live : ∀ i, r.stage ≠ .done i

/-- A new reader stands in front of its split. -/
theorem Stands.start (x : SplitId) : Stands p src { split := x } [] :=
  ⟨⟨_, Plan.Place.start, by simp⟩, by simp⟩

/-- A reader that has opened a stream stands in front of its batches. -/
theorem Stands.opens (h : r.Stands p src xs) (hs : s.scripts = src.scripts)
    (ho : Opens o r s s₁ st) :
    (src.script? r.split).isSome ∧ p.Place src r.split r.rows xs st.remaining := by
  obtain ⟨post, hp, hst⟩ := h.place
  cases ho with
  | held hr =>
    obtain ⟨hsome, rfl⟩ := hst st hr
    exact ⟨hsome, hp⟩
  | called hr hc =>
    obtain ⟨-, hfor⟩ := Service.read_eq hc
    rw [Service.streamFor_congr hs] at hfor
    have hsome : (src.script? r.split).isSome := Service.isSome_script?_of_streamFor hfor
    refine ⟨hsome, ?_⟩
    rcases hp.streamFor_cases (c := r.call o) hsome rfl rfl (s.faultsOf r.split).head? with
      ⟨kind, -, he⟩ | ⟨n, post', -, hp', he⟩
    · cases hfor.symm.trans he
    · cases hfor.symm.trans he
      exact hp'

/-- A reader that yields nothing keeps its place. -/
theorem Stands.working (h : r.Stands p src xs)
    (hm : Moves o running r s r' s' .working) : r'.Stands p src xs := by
  obtain ⟨post, hp, hst⟩ := h.place
  cases hm with
  | look hr hrun => exact ⟨⟨post, hp, hst⟩, by simp⟩
  | resume hr hrun => exact ⟨⟨post, hp, hst⟩, by simp⟩
  | retry hr hf ht hb => exact ⟨⟨post, hp, by simp⟩, by simp⟩

/-- What is in front of a batch that a reader yields. -/
theorem Stands.exists_front (h : r.Stands p src xs) (hs : s.scripts = src.scripts)
    (hm : Moves o running r s r' s' (.batch b)) :
    ∃ pre post, src.script? r.split = some (pre ++ b :: post) ∧ p.decoded? pre = some xs := by
  cases hm with
  | batch hr ho hn hfits =>
    rename_i st st'
    obtain ⟨hsome, pre, hpre, hdec, -⟩ := h.opens hs ho
    obtain ⟨bs, hbs⟩ := Option.isSome_iff_exists.1 hsome
    rw [hbs, Option.getD_some, (Stream.next_eq_batch hn).1] at hpre
    exact ⟨pre, st'.remaining, by rw [hbs, hpre], hdec⟩

/-- A reader that yields a batch moves behind it. -/
theorem Stands.batch (h : r.Stands p src xs) (hs : s.scripts = src.scripts)
    (hm : Moves o running r s r' s' (.batch b)) (hd : p.codec.decode p.layout b = .ok ys) :
    r'.Stands p src (xs ++ ys) := by
  cases hm with
  | batch hr ho hn hfits =>
    rename_i st st'
    obtain ⟨hsome, hp⟩ := h.opens hs ho
    rw [(Stream.next_eq_batch hn).1] at hp
    refine ⟨⟨st'.remaining, hp.advance hd hfits, ?_⟩, by simp⟩
    intro st hst
    obtain rfl := Option.some.inj hst
    exact ⟨hsome, rfl⟩

/-- A reader of a split whose rows can all be counted does not panic. -/
theorem Stands.not_panicked (h : r.Stands p src xs) (hs : s.scripts = src.scripts)
    (hrows : rowTotal ((src.script? r.split).getD []) < UInt64.size) :
    ¬ Moves o running r s r' s' .panicked := by
  intro hm
  cases hm with
  | panic hr ho hn hover =>
    obtain ⟨-, pre, hpre, -, hcounted⟩ := h.opens hs ho
    rw [hpre, (Stream.next_eq_batch hn).1, rowTotal_append, rowTotal] at hrows
    exact hover (by rw [CanCount]; omega)

/-- A reader of a split that can be read yields batches that can be
decoded. -/
theorem Stands.decodes (h : r.Stands p src xs) (hs : s.scripts = src.scripts)
    (hx : p.contents? src r.split = some ys) (hm : Moves o running r s r' s' (.batch b)) :
    ∃ zs, p.codec.decode p.layout b = .ok zs := by
  cases hm with
  | batch hr ho hn =>
    obtain ⟨-, hp⟩ := h.opens hs ho
    rw [(Stream.next_eq_batch hn).1] at hp
    exact hp.decodes hx

/-- A reader that ends without an interruption has found the end of its
stream. -/
theorem Moves.exists_end (hlive : ∀ i, r.stage ≠ .done i) (hm : Moves o running r s r' s' .ended)
    (hi : r'.interrupted = false) : ∃ s₁ st, Opens o r s s₁ st ∧ st.next = .ok none := by
  cases hm with
  | through hr => exact absurd hr (hlive _)
  | interrupt hr hrun => simp [interrupted, SplitReader.finish] at hi
  | finish hr ho hn => exact ⟨_, _, ho, hn⟩

/-- A reader is interrupted only when the run has stopped. -/
theorem Moves.running_eq_false (hlive : ∀ i, r.stage ≠ .done i)
    (hm : Moves o running r s r' s' .ended) (hi : r'.interrupted = true) : running = false := by
  cases hm with
  | through hr => exact absurd hr (hlive _)
  | interrupt hr hrun => exact hrun
  | finish hr ho hn => simp [SplitReader.interrupted, SplitReader.finish] at hi

/-- A reader that yields a batch, or nothing, goes on. -/
theorem Moves.live (hm : Moves o running r s r' s' g) (hg : g.isLast = false) :
    ∀ i, r'.stage ≠ .done i := by
  cases hm with
  | through hr => cases hg
  | interrupt hr hrun => cases hg
  | finish hr ho hn => cases hg
  | fail hr hf hb => cases hg
  | _ => simp

/-- A reader that ends without an interruption is behind its split. -/
theorem Stands.ended (h : r.Stands p src xs) (hs : s.scripts = src.scripts)
    (hm : Moves o running r s r' s' .ended) (hi : r'.interrupted = false) :
    p.contents? src r.split = some xs := by
  obtain ⟨s₁, st, ho, hn⟩ := hm.exists_end h.live hi
  obtain ⟨hsome, hp⟩ := h.opens hs ho
  rw [Stream.next_eq_end hn] at hp
  exact hp.finish hsome

end SplitReader

/-! ## Workers keep track -/

namespace Worker

/-- A worker in the middle of a split: it has delivered the contents of
the splits `done` before, and of this split all records in front of its
reader but for those in `rest`. -/
def Amid (p : Plan) (src : Service) (own : List SplitId) (w : Worker) (r : SplitReader)
    (rest got : List Record) : Prop :=
  ∃ done recs xs, own = done ++ r.split :: w.splits ∧ w.report.splits = done.length ∧
    p.contentsOf? src done = some recs ∧ r.Stands p src (xs ++ rest) ∧ got = recs ++ xs

/-- A worker in the middle of a split reads one of its own. -/
theorem Amid.mem {rest got : List Record} (h : w.Amid p src own r rest got) : r.split ∈ own := by
  obtain ⟨done, recs, xs, rfl, -⟩ := h
  simp

/-- Its reader stands somewhere in the split. -/
theorem Amid.stands {rest got : List Record} (h : w.Amid p src own r rest got) :
    ∃ xs, r.Stands p src xs := by
  obtain ⟨done, recs, xs, -, -, -, hst, -⟩ := h
  exact ⟨xs ++ rest, hst⟩

/-- It stays in the middle of the split while its reader yields nothing. -/
theorem Amid.read (h : w.Amid p src own r [] got) (hr : r.Moves o running s r' s' .working) :
    w.Amid p src own r' [] got := by
  obtain ⟨done, recs, xs, hown, hn, hrecs, hst, hgot⟩ := h
  refine ⟨done, recs, xs, ?_, hn, hrecs, hst.working hr, hgot⟩
  rw [hr.split_eq]
  exact hown

/-- A record of the batch in hand that is taken is delivered. -/
theorem Amid.accept {y : Record} {rest : List Record} (h : w.Amid p src own r (y :: rest) got) :
    w.Amid p src own r rest (got ++ [y]) := by
  obtain ⟨done, recs, xs, hown, hn, hrecs, hst, rfl⟩ := h
  exact ⟨done, recs, xs ++ [y], hown, hn, hrecs, by simpa using hst, by simp⟩

/-- A reader that comes to its end leaves the worker behind the split. -/
theorem Amid.finish (h : w.Amid p src own r [] got) (hs : s.scripts = src.scripts)
    (hr : r.Moves o running s r' s' .ended) (hi : r'.interrupted = false) :
    ∃ done, own = done ++ w.splits ∧ w.report.splits + 1 = done.length ∧
      p.contentsOf? src done = some got := by
  obtain ⟨done, recs, xs, hown, hn, hrecs, hst, rfl⟩ := h
  rw [List.append_nil] at hst
  exact ⟨done ++ [r.split], by simpa using hown, by simp [hn],
    Plan.contentsOf?_concat hrecs (hst.ended hs hr hi)⟩

/-- What the records `got` that the sink took from a worker are, by where
it stands; nothing is said of a worker that panicked or is about to stop the
run, nor once the run has stopped of one that is through. -/
def HasDelivered (p : Plan) (src : Service) (own : List SplitId) (w : Worker)
    (running : Bool) (got : List Record) : Prop :=
  match w.stage with
  | .between => ∃ done, own = done ++ w.splits ∧ w.report.splits = done.length ∧
      p.contentsOf? src done = some got
  | .reading r _ => w.Amid p src own r [] got
  | .emitting r _ rest _ _ => w.Amid p src own r rest got
  | .refused _ | .failing _ | .panicked => True
  | .leaving _ | .left =>
    running = true → w.report.splits = own.length ∧ p.contentsOf? src own = some got

/-- What a worker has delivered for its number, while the service serves
what it served at the start. -/
structure Tracks (p : Plan) (src : Service) (own : List SplitId) (i : Nat) (w : Worker)
    (sh : Shared σ) : Prop where
  scripts : sh.service.scripts = src.scripts
  delivered : w.HasDelivered p src own sh.run.isRunning (sh.recordsFrom i)

theorem Tracks.apart (h : w.Tracks p src own i sh) (ha : sh.Apart i own sh') :
    w.Tracks p src own i sh' := by
  refine ⟨ha.scripts.trans h.scripts, ?_⟩
  have hd := h.delivered
  rw [ha.records]
  unfold HasDelivered at hd ⊢
  split <;> simp_all
  all_goals exact fun hr => hd (ha.run hr)

theorem Tracks.start (hw : w = Worker.start i own) (hs : sh.service.scripts = src.scripts)
    (hr : sh.recordsFrom i = []) : w.Tracks p src own i sh := by
  subst hw
  exact ⟨hs, [], rfl, rfl, by rw [hr]; rfl⟩

/-- **A worker keeps track of what it has delivered** by its own steps. -/
theorem Tracks.of_moves (hb : w.Belongs i own) (h : w.Tracks p src own i sh)
    (hm : w.Moves p sink sh w' sh') :
    w'.Tracks p src own i sh' := by
  obtain ⟨hs, hd⟩ := h
  refine ⟨hm.service_eq.1.trans hs, ?_⟩
  unfold HasDelivered at hd
  cases hm with
  | through hw h =>
    simp only [hw] at hd
    obtain ⟨done, hown, hn, hgot⟩ := hd
    intro hrun
    rcases h with h | h
    · rw [h, List.append_nil] at hown
      subst hown
      exact ⟨hn, hgot⟩
    · rw [h] at hrun
      cases hrun
  | take hw hx hrun =>
    simp only [hw] at hd
    obtain ⟨done, hown, hn, hgot⟩ := hd
    rw [hx] at hown
    exact ⟨done, sh.recordsFrom i, [], hown, hn, hgot, .start _, by simp⟩
  | read hw hr =>
    simp only [hw] at hd
    exact hd.read hr
  | decode hw hr hdec =>
    simp only [hw] at hd
    obtain ⟨done, recs, xs, hown, hn, hrecs, hst, hgot⟩ := hd
    rw [List.append_nil] at hst
    refine ⟨done, recs, xs, ?_, hn, hrecs, ?_, hgot⟩
    · rw [hr.split_eq]
      exact hown
    · exact hst.batch hs hr hdec
  | undecoded hw hr hdec => trivial
  | unread hw hr => trivial
  | interrupted hw hr hi =>
    simp only [hw] at hd
    obtain ⟨xs, hst⟩ := hd.stands
    intro hrun
    have hgoes : sh.run.isRunning = true := hrun
    rw [hr.running_eq_false hst.live hi] at hgoes
    cases hgoes
  | finish hw hr hi =>
    simp only [hw] at hd
    exact hd.finish hs hr hi
  | panic hw hr => trivial
  | emitted hw =>
    simp only [hw] at hd
    exact hd
  | accept hw ho =>
    simp only [hw] at hd
    rename_i r batch rows bytes x rest y
    have hrecords := Shared.recordsFrom_push sh y (d := ⟨w.report.worker, r.split, x⟩) hb.worker
    rw [hrecords]
    exact hd.accept
  | refuse hw ho => trivial
  | cancel hw => exact fun hrun => by simp [close] at hrun
  | fail hw => exact fun hrun => by simp at hrun
  | leave hw =>
    simp only [hw] at hd
    exact hd

/-- A worker panics only at a split whose rows cannot all be counted. -/
theorem Tracks.stage_ne_panicked (h : w.Tracks p src own i sh) (hm : w.Moves p sink sh w' sh')
    (hrows : ∀ x ∈ w.inHand, rowTotal ((src.script? x).getD []) < UInt64.size) :
    w'.stage ≠ .panicked := by
  have hd := h.delivered
  unfold HasDelivered at hd
  cases hm with
  | panic hst hr =>
    simp only [hst] at hd
    obtain ⟨xs, hstands⟩ := hd.stands
    exact absurd hr (hstands.not_panicked h.scripts (hrows _ (by simp [inHand, hst])))
  | _ => simp

end Worker

/-! ## Runs that are completed -/

/-- A worker stops a run by a failure only to leave with it. -/
theorem Worker.Moves.run_eq_failed (h : w.Moves p sink sh w' sh') (hf : sh'.run = .failed) :
    sh.run = .failed ∨ ∃ e, w'.stage = .leaving (.error e) := by
  cases h with
  | cancel hw => exact .inl (RunState.eq_failed_of_cancel hf)
  | fail hw => exact .inr ⟨_, rfl⟩
  | _ => exact .inl hf

/-- A worker that is about to leave with a failure is counted among those
that failed. -/
theorem Worker.Moves.hasFailed_of_leaving {f : Failure} (h : w.Moves p sink sh w' sh')
    (hw : w.stage = .leaving (.error f)) : sh'.hasFailed w.report.worker = true := by
  cases h with
  | leave hl =>
    rw [hw] at hl
    cases hl
    exact Shared.hasFailed_eq_true_iff.2 ⟨f, by simp⟩
  | _ => simp_all

theorem Worker.Moves.hasFailed_mono (h : w.Moves p sink sh w' sh')
    (hf : sh.hasFailed i = true) : sh'.hasFailed i = true := by
  obtain ⟨e, he⟩ := Shared.hasFailed_eq_true_iff.1 hf
  refine Shared.hasFailed_eq_true_iff.2 ⟨e, ?_⟩
  rcases h.results_eq with h | ⟨res, h⟩ <;> rw [h]
  · exact he
  · exact List.mem_append_left _ he

namespace Machine

variable {m : Machine σ}

/-- A run that a failure stopped has a worker that failed, or that is about
to leave with a failure. -/
def TellsFailure (m : Machine σ) : Prop :=
  m.shared.run = .failed →
    (∃ i, m.shared.hasFailed i = true) ∨ ∃ w ∈ m.workers, ∃ e, w.stage = .leaving (.error e)

theorem TellsFailure.of_moves (h : m.TellsFailure) (hw : m.workers[i]? = some w)
    (hm : w.Moves p sink m.shared w' sh') : TellsFailure ⟨sh', m.workers.set i w'⟩ := by
  intro hf
  have hi : i < m.workers.length := (List.getElem?_eq_some_iff.1 hw).1
  rcases hm.run_eq_failed hf with hf | ⟨e, he⟩
  · rcases h hf with ⟨j, hj⟩ | ⟨v, hv, e, he⟩
    · exact .inl ⟨j, hm.hasFailed_mono hj⟩
    · obtain ⟨j, hj⟩ := List.mem_iff_getElem?.1 hv
      by_cases hij : i = j
      · -- it is the worker that leaves
        subst hij
        obtain rfl := Option.some.inj (hw.symm.trans hj)
        exact .inl ⟨_, hm.hasFailed_of_leaving he⟩
      · refine .inr ⟨v, List.mem_of_getElem? (i := j) ?_, e, he⟩
        rw [List.getElem?_set_ne hij]
        exact hj
  · exact .inr ⟨w', List.mem_set hi w', e, he⟩

theorem tellsFailure_run (h : m.shared.run = .running) (es : List (Event α)) :
    (m.run p sink es).TellsFailure := by
  refine run_induction es (fun hf => ?_) (fun h hw hm => h.of_moves hw hm)
    (fun m h hf => h (RunState.eq_failed_of_cancel hf)) fun m a h => h
  rw [h] at hf
  cases hf

/-- **A run that is completed was never stopped.** -/
theorem isRunning_of_completed {own : Nat → List SplitId} (hset : m.Settled own)
    (ht : m.TellsFailure) {summary : Summary} (ho : m.shared.conclude = .completed summary) :
    m.shared.run.isRunning = true := by
  have hnone := Shared.hasFailed_eq_false_of_conclude ho
  cases hrun : m.shared.run with
  | running => rfl
  | cancelled => simp [Shared.conclude, hrun, RunState.wasCancelled] at ho
  | failed =>
    rcases ht hrun with ⟨i, hi⟩ | ⟨w, hw, e, he⟩
    · rw [hnone i] at hi
      cases hi
    · obtain ⟨i, hi⟩ := List.mem_iff_getElem?.1 hw
      rw [hset.stage_eq hi] at he
      cases he

end Machine

variable {c : EngineConfig} {t : Session} {selected : List String} {g : Ingestion}
variable {service : Service} {x : σ} {es : List (Event α)} {summary : Summary}

namespace Ingestion

/-- Workers keep track of what they have delivered throughout a run. -/
theorem tracks (hg : ofSession c t selected = .ok g) (service : Service) (sink : Sink σ α)
    (x : σ) (es : List (Event α)) :
    (g.run service sink x es).Each fun i w sh =>
      w.Belongs i (g.own i) ∧ w.Tracks g.plan service (g.own i) i sh := by
  refine Machine.each_run (fun i j => disjoint_own hg) (belongs_start hg service x) ?_
    (fun hb h hm => h.of_moves hb hm) (fun _ h ha => h.apart ha) es
  intro i w hw
  exact .start (start_workers hg service x hw).2 rfl rfl

/-- **No worker panics** in a run over splits whose rows can all be
counted. -/
theorem hasPanicked_eq_false (hg : ofSession c t selected = .ok g)
    (hrows : ∀ y ∈ t.splits, ∀ bs, service.script? y = some bs → rowTotal bs < UInt64.size)
    (sink : Sink σ α) (x : σ) (es : List (Event α)) :
    (g.run service sink x es).hasPanicked = false := by
  have hcalm : ∀ w ∈ (g.run service sink x es).workers, w.stage ≠ .panicked := by
    refine Machine.run_of_each (Q := fun m => ∀ w ∈ m.workers, w.stage ≠ .panicked)
      (tracks hg service sink x) es ?_ ?_ (fun _ _ h => h) fun _ _ h => h
    · intro w hw
      obtain ⟨a, -, rfl⟩ := List.mem_map.1 hw
      nofun
    · rintro m i w w' sh' h hw ⟨hb, htracks⟩ hm v hv
      rcases List.mem_or_eq_of_mem_set hv with hv | rfl
      · exact h v hv
      · refine htracks.stage_ne_panicked hm fun y hy => ?_
        have hy := hb.splits y (List.mem_append_left _ hy)
        exact Service.rowTotal_getD_lt (hrows y ((own_sublist hg i).subset hy))
  refine List.any_eq_false.2 fun w hw hp => ?_
  exact hcalm w hw (Worker.stage_of_hasPanicked hp)

/-- A run that is completed was not stopped, and every worker is through
with its splits. -/
theorem delivered_of_completed_outcome (hg : ofSession c t selected = .ok g)
    (ho : (g.run service sink x es).outcome? = some (.completed summary)) :
    (g.run service sink x es).Settled g.own ∧
      ∀ i w, (g.run service sink x es).workers[i]? = some w →
        w.report.splits = (g.own i).length ∧
        g.plan.contentsOf? service (g.own i) =
          some ((g.run service sink x es).shared.recordsFrom i) := by
  obtain ⟨hset, hconclude⟩ := settled_of_outcome hg ho
  have htell : (g.run service sink x es).TellsFailure := Machine.tellsFailure_run rfl es
  have hrun := Machine.isRunning_of_completed hset htell hconclude
  refine ⟨hset, fun i w hw => ?_⟩
  have hd := (tracks hg service sink x es i w hw).2.delivered
  rw [Worker.HasDelivered, hset.stage_eq hw] at hd
  exact hd hrun

end Ingestion

/-- **Every record is delivered exactly once, and in order.** When a run is
completed, the records the sink took from worker `i` are the contents of
the splits at the positions `i`, `i + n`, `i + 2n`, … for `n` workers, one
split after the other; whatever faults were met on the way, whatever the
sink, and in whatever order the workers moved. -/
theorem delivered_of_completed (hg : Ingestion.ofSession c t selected = .ok g)
    (ho : (g.run service sink x es).outcome? = some (.completed summary)) {i : Nat}
    (hi : i < c.parallelism.toNat) :
    ∃ own : List SplitId, (∀ k, own[k]? = t.splits[i + k * c.parallelism.toNat]?) ∧
      g.plan.contentsOf? service own =
        some ((g.run service sink x es).shared.recordsFrom i) := by
  obtain ⟨-, hd⟩ := Ingestion.delivered_of_completed_outcome hg ho
  have hlen := Ingestion.length_workers_run hg service sink x es
  refine ⟨g.own i, fun k => ?_, (hd i _ (List.getElem?_eq_getElem (by omega))).2⟩
  rw [Ingestion.own_eq hg hi, Assignment.splitsOf, getElem?_stride (by omega),
    Nat.max_eq_left (by omega)]

namespace Sample

/-- Split `a` has a batch without rows between two of one row, and three
calls on it go wrong in ways that may pass. -/
def faulty : Service :=
  { scripts := [(⟨"a"⟩, [⟨.avro, 1, [10]⟩, ⟨.avro, 0, []⟩, ⟨.avro, 1, [12]⟩]),
      (⟨"b"⟩, [⟨.avro, 1, [14]⟩])]
    faults := [(⟨"a"⟩, [.afterBatches 2 .network, .onOpen .timeout, .afterBatches 1 .aborted])] }

/-- One worker moves to its end, then the other. -/
def turns : List (Event Empty) := List.replicate 40 (.step 0) ++ List.replicate 20 (.step 1)

theorem rowTotal_faulty :
    ∀ y ∈ session.splits, ∀ bs, faulty.script? y = some bs → rowTotal bs < UInt64.size :=
  Service.rowTotal_lt (by decide)

end Sample

/-- Three faults, one of them met when a batch without rows is served for
the second time, and every record is there once. -/
theorem delivered_of_completed_with_faults :
    let m := Sample.ingestion.run Sample.faulty Sink.collecting () Sample.turns
    m.outcome? = some (.completed (.ofReports [⟨0, 1, 5, 2, 3⟩, ⟨1, 1, 1, 1, 0⟩])) ∧
      m.shared.recordsFrom 0 = [⟨[.int64 5]⟩, ⟨[.int64 6]⟩] ∧
      ∃ own : List SplitId, (∀ k, own[k]? = Sample.session.splits[0 + k * 2]?) ∧
        Sample.ingestion.plan.contentsOf? Sample.faulty own = some (m.shared.recordsFrom 0) := by
  intro m
  have hreports : m.shared.reports = [⟨0, 1, 5, 2, 3⟩, ⟨1, 1, 1, 1, 0⟩] := by decide +kernel
  have ho : m.outcome? = some (.completed (.ofReports m.shared.reports)) :=
    Machine.outcome?_eq_completed (by decide +kernel) (by decide +kernel) (by decide +kernel)
  refine ⟨by rw [ho, hreports], by decide +kernel, ?_⟩
  exact delivered_of_completed Sample.ofSession_session ho (by decide)

end Intake
