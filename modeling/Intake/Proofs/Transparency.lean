import Intake.Proofs.Delivery
import Intake.Proofs.Progress
/-!
# Retries are transparent

A reader affords the faults that are still ahead of it when they may all
pass and there are no more of them than retries left. Each failed call
takes one fault and one retry, so a reader keeps affording what is ahead,
and never gives up. Hence a run in which every split affords its faults
goes on to its end, and delivers what a run without faults delivers
(`completed_despite_faults`).
-/

namespace Intake

variable {σ τ α β : Type} {p : Plan} {sink : Sink σ α} {sh sh' : Shared σ} {w w' : Worker}
variable {o : ReadOptions} {running : Bool} {r r' : SplitReader} {src s s' s₁ : Service}
variable {st st' : Stream} {e : TransportError} {b : Batch} {xs ys : List Record}
variable {own : List SplitId} {i : Nat} {x : SplitId}

/-! ## The faults ahead of a reader -/

/-- How a call that meets a fault fails, sooner or later. -/
def Fault.kind : Fault → TransportKind
  | .onOpen kind => kind
  | .afterBatches _ kind => kind

namespace Service

/-- The faults ahead on a split, of which a stream is open or not: the one
the stream is going to meet, and those on the queue. -/
def ahead (s : Service) (x : SplitId) (stream : Option Stream) : List TransportKind :=
  ((stream.bind Stream.failAfter).toList.map Prod.snd) ++ (s.faultsOf x).map Fault.kind

/-- Faults that `retries` more calls can meet. -/
def Affordable (retries : Nat) (kinds : List TransportKind) : Prop :=
  kinds.length ≤ retries ∧ ∀ k ∈ kinds, k.isTransient = true

end Service

namespace SplitReader

/-- Opening a stream moves a fault off the queue, but not out of the way. -/
theorem Stands.ahead_of_opens (h : r.Stands p src xs) (hs : s.scripts = src.scripts)
    (ho : Opens o r s s₁ st) : s₁.ahead r.split (some st) = s.ahead r.split r.stream := by
  cases ho with
  | held hr => rw [hr]
  | called hr hc =>
    obtain ⟨-, hfor⟩ := Service.read_eq hc
    have hq : s₁.faultsOf r.split = (s.faultsOf r.split).tail := Service.faultsOf_read_self hc
    rw [Service.streamFor_congr hs] at hfor
    obtain ⟨post, hp, -⟩ := h.place
    rcases hp.streamFor_cases (c := r.call o) (Service.isSome_script?_of_streamFor hfor) rfl rfl
      (s.faultsOf r.split).head? with ⟨kind, -, he⟩ | ⟨n, post', hn, -, he⟩
    · cases hfor.symm.trans he
    · cases hfor.symm.trans he
      -- the stream has the fault that was first on the queue
      simp only [Service.ahead, hr, hq]
      cases hf : s.faultsOf r.split with
      | nil =>
        rw [hf] at hn
        cases n <;> simp_all
      | cons f fs =>
        rw [hf] at hn
        cases n <;> simp_all [Fault.kind]

/-- **A failed call on a known split takes the first fault ahead.** -/
theorem Stands.ahead_of_fails (h : r.Stands p src xs) (hs : s.scripts = src.scripts)
    (hx : (src.script? r.split).isSome) (hf : Fails o r s s₁ e) :
    s.ahead r.split r.stream = e.kind :: s₁.ahead r.split none := by
  cases hf with
  | call hr hc =>
    obtain ⟨-, hfor⟩ := Service.read_eq hc
    have hq : s₁.faultsOf r.split = (s.faultsOf r.split).tail := Service.faultsOf_read_self hc
    rw [Service.streamFor_congr hs] at hfor
    obtain ⟨post, hp, -⟩ := h.place
    rcases hp.streamFor_cases (c := r.call o) hx rfl rfl (s.faultsOf r.split).head? with
      ⟨kind, hn, he⟩ | ⟨n, post', -, -, he⟩
    · cases hfor.symm.trans he
      simp only [Service.ahead, hr, hq]
      cases hq' : s.faultsOf r.split with
      | nil =>
        rw [hq'] at hn
        cases hn
      | cons f fs =>
        rw [hq'] at hn
        cases hn
        rfl
    · cases hfor.symm.trans he
  | stream ho hn =>
    obtain ⟨n, hfail⟩ := Stream.failAfter_of_next_error hn
    rw [← h.ahead_of_opens hs ho]
    simp only [Service.ahead, Option.bind_some, hfail]
    rfl

/-- A reader affords the faults ahead of it. -/
def Affords (o : ReadOptions) (s : Service) (r : SplitReader) : Prop :=
  Service.Affordable (o.maxRetries.toNat - r.retries) (s.ahead r.split r.stream)

/-- A reader keeps affording what is ahead of it. -/
theorem Affords.working (ha : r.Affords o s) (h : r.Stands p src xs)
    (hs : s.scripts = src.scripts) (hx : (src.script? r.split).isSome)
    (hm : Moves o running r s r' s' .working) : r'.Affords o s' := by
  cases hm with
  | look hr hrun => exact ha
  | resume hr hrun => exact ha
  | retry hr hf ht hb =>
    rw [Affords, h.ahead_of_fails hs hx hf] at ha
    obtain ⟨hlen, hkinds⟩ := ha
    simp only [List.length_cons] at hlen
    refine ⟨?_, fun k hk => hkinds k (List.mem_cons_of_mem _ hk)⟩
    dsimp only
    omega

theorem Affords.batch (ha : r.Affords o s) (h : r.Stands p src xs)
    (hs : s.scripts = src.scripts) (hm : Moves o running r s r' s' (.batch b)) :
    r'.Affords o s' := by
  cases hm with
  | batch hr ho hn =>
    rw [Affords, ← h.ahead_of_opens hs ho] at ha
    have hf := (Stream.next_eq_batch hn).2
    simpa [Affords, Service.ahead, hf] using ha

/-- **A reader that affords what is ahead of it does not give up.** -/
theorem Affords.not_failed {f : Failure} (ha : r.Affords o s) (h : r.Stands p src xs)
    (hs : s.scripts = src.scripts) (hx : (src.script? r.split).isSome) :
    ¬ Moves o running r s r' s' (.failed f) := by
  intro hm
  cases hm with
  | fail hr hf hb =>
    rw [Affords, h.ahead_of_fails hs hx hf] at ha
    obtain ⟨hlen, hkinds⟩ := ha
    simp only [List.length_cons] at hlen
    exact hb ⟨hkinds _ List.mem_cons_self, by omega⟩

end SplitReader

namespace Worker

/-! ## Workers that do not give up -/

/-- A worker that affords the faults ahead of it on all of its splits, and
has not given up. -/
def Affords (o : ReadOptions) (s : Service) (w : Worker) : Prop :=
  (∀ x ∈ w.splits, Service.Affordable o.maxRetries.toNat (s.ahead x none)) ∧
    match w.stage with
    | .reading r _ | .emitting r .. => r.Affords o s
    | .refused _ | .failing _ => False
    | .between | .leaving _ | .left | .panicked => True

/-- Faults that are queued as before are afforded as before. -/
theorem Affords.congr (h : w.Affords o s) (hf : ∀ x ∈ w.inHand ++ w.splits,
    s'.faultsOf x = s.faultsOf x) : w.Affords o s' := by
  have hahead : ∀ x ∈ w.inHand ++ w.splits, ∀ stream, s'.ahead x stream = s.ahead x stream :=
    fun x hx stream => by rw [Service.ahead, Service.ahead, hf x hx]
  obtain ⟨hsplits, hstage⟩ := h
  refine ⟨fun x hx => by rw [hahead x (by simp [hx])]; exact hsplits x hx, ?_⟩
  split <;> simp_all [inHand, SplitReader.Affords]

/-- A worker that affords the faults ahead has the split in hand no more
among those to take up. -/
theorem Affords.not_mem_inHand (ha : w.Affords o s) (ht : w.Tracks p src own i sh)
    (hn : own.Nodup) : ∀ x ∈ w.splits, x ∉ w.inHand := by
  have hamid : ∀ {r : SplitReader} {rest got : List Record}, w.Amid p src own r rest got →
      r.split ∉ w.splits := by
    rintro r rest got ⟨done, recs, xs, rfl, -⟩
    exact (List.nodup_cons.1 (List.nodup_append.1 hn).2.1).1
  obtain ⟨-, hstage⟩ := ha
  have hd := ht.delivered
  unfold HasDelivered at hd
  intro x hx hin
  cases hw : w.stage with
  | reading r batch =>
    simp only [hw] at hd
    obtain rfl : x = r.split := by simpa [inHand, hw] using hin
    exact hamid hd hx
  | emitting r batch rest rows bytes =>
    simp only [hw] at hd
    obtain rfl : x = r.split := by simpa [inHand, hw] using hin
    exact hamid hd hx
  | refused r => simp [hw] at hstage
  | _ => simp [inHand, hw] at hin

/-- **A worker that affords the faults ahead goes on affording them**, and
does not stop the run, when its splits can be read and the sink takes
every record. -/
theorem Affords.of_moves (hs : sink.Accepts) (hn : own.Nodup)
    (hx : ∀ x ∈ own, (p.contents? src x).isSome) (ht : w.Tracks p src own i sh)
    (ha : w.Affords p.options sh.service) (hm : w.Moves p sink sh w' sh') :
    w'.Affords p.options sh'.service ∧ sh'.run = sh.run := by
  have hrest : ∀ y ∈ w'.splits,
      Service.Affordable p.options.maxRetries.toNat (sh'.service.ahead y none) := by
    intro y hy
    have hw := hm.splits_subset y hy
    rw [Service.ahead, hm.service_eq.2 y (ha.not_mem_inHand ht hn y hw)]
    exact ha.1 y hw
  obtain ⟨hscripts, hd⟩ := ht
  obtain ⟨hsplits, hstage⟩ := ha
  unfold HasDelivered at hd
  have hknown : ∀ y ∈ own, (src.script? y).isSome := fun y hy =>
    Plan.isSome_script?_of_contents? (hx y hy)
  cases hm with
  | through hw h => exact ⟨⟨hrest, trivial⟩, rfl⟩
  | take hw hy hrun => exact ⟨⟨hrest, hsplits _ (by simp [hy])⟩, rfl⟩
  | read hw hr =>
    simp only [hw] at hd hstage
    obtain ⟨xs, hst⟩ := hd.stands
    exact ⟨⟨hrest, hstage.working hst hscripts (hknown _ hd.mem) hr⟩, rfl⟩
  | decode hw hr hdec =>
    simp only [hw] at hd hstage
    obtain ⟨xs, hst⟩ := hd.stands
    exact ⟨⟨hrest, hstage.batch hst hscripts hr⟩, rfl⟩
  | undecoded hw hr hdec =>
    simp only [hw] at hd
    obtain ⟨xs, hst⟩ := hd.stands
    obtain ⟨ys, hys⟩ := Option.isSome_iff_exists.1 (hx _ hd.mem)
    obtain ⟨us, hus⟩ := hst.decodes hscripts hys hr
    rw [hus] at hdec
    cases hdec
  | unread hw hr =>
    simp only [hw] at hd hstage
    obtain ⟨xs, hst⟩ := hd.stands
    exact absurd hr (hstage.not_failed hst hscripts (hknown _ hd.mem))
  | interrupted hw hr hi => exact ⟨⟨hrest, trivial⟩, rfl⟩
  | finish hw hr hi => exact ⟨⟨hrest, trivial⟩, rfl⟩
  | panic hw hr => exact ⟨⟨hrest, trivial⟩, rfl⟩
  | emitted hw =>
    simp only [hw] at hstage
    exact ⟨⟨hrest, hstage⟩, rfl⟩
  | accept hw ho =>
    simp only [hw] at hstage
    exact ⟨⟨hrest, hstage⟩, rfl⟩
  | refuse hw ho =>
    rename_i r batch rows bytes x rest y
    obtain ⟨y', hy'⟩ := hs sh.sink sh.run.isRunning w.report.worker x
    rw [hy'] at ho
    cases ho
  | cancel hw => simp [hw] at hstage
  | fail hw => simp [hw] at hstage
  | leave hw => exact ⟨⟨hrest, trivial⟩, rfl⟩

/-- A run that has stopped goes on no more. -/
theorem Moves.isRunning_of_isRunning (hm : w.Moves p sink sh w' sh')
    (h : sh'.run.isRunning = true) : sh.run.isRunning = true := by
  cases hm with
  | cancel hw => simp [close] at h
  | fail hw => simp at h
  | _ => exact h

end Worker

/-! ## Runs that are not stopped -/

/-- Every one of splits with contents has contents. -/
theorem Plan.isSome_contents? {ss : List SplitId} (h : p.contentsOf? s ss = some xs) :
    ∀ x ∈ ss, (p.contents? s x).isSome := by
  induction ss generalizing xs with
  | nil => simp
  | cons a ss ih =>
    obtain ⟨ys, zs, hy, hz, -⟩ := contentsOf?_cons_eq_some.1 h
    intro x hx
    rcases List.mem_cons.1 hx with rfl | hx
    · rw [hy]
      rfl
    · exact ih hz x hx

/-- A count comes to the same when the reports count the same. -/
theorem Summary.total_congr {count : Report → Nat} {as bs : List Report}
    (h : as.map count = bs.map count) : total count as = total count bs := by
  induction as generalizing bs with
  | nil =>
    rw [List.map_eq_nil_iff.1 h.symm]
  | cons a as ih =>
    cases bs with
    | nil => cases h
    | cons b bs =>
      obtain ⟨hab, h⟩ := List.cons.inj h
      rw [total, total, hab, ih h]

variable {c : EngineConfig} {t : Session} {selected : List String} {g : Ingestion}
variable {service : Service} {y : σ} {es : List (Event α)} {summary : Summary}

namespace Ingestion

/-- The splits of every worker can be read. -/
def Readable (g : Ingestion) (service : Service) : Prop :=
  ∀ i, ∀ x ∈ g.own i, (g.plan.contents? service x).isSome

/-- The faults queued for the splits of every worker can be afforded. -/
def Affordable (g : Ingestion) (service : Service) : Prop :=
  ∀ i, ∀ x ∈ g.own i,
    Service.Affordable g.plan.options.maxRetries.toNat (service.ahead x none)

/-- While a run goes on, its workers afford the faults ahead of them. -/
theorem affords (hg : ofSession c t selected = .ok g) (hr : g.Readable service)
    (ha : g.Affordable service) (hs : sink.Accepts) (y : σ) (es : List (Event α)) :
    (g.run service sink y es).Each fun i w sh =>
      w.Belongs i (g.own i) ∧ w.Tracks g.plan service (g.own i) i sh ∧
        (sh.run.isRunning = true → w.Affords g.plan.options sh.service) := by
  refine Machine.each_run (fun i j => disjoint_own hg) (belongs_start hg service y) ?_ ?_ ?_ es
  · intro i w hw
    obtain rfl := (start_workers hg service y hw).2
    exact ⟨.start rfl rfl rfl, fun _ => ⟨ha i, trivial⟩⟩
  · rintro i w sh w' sh' hb ⟨ht, haff⟩ hm
    refine ⟨ht.of_moves hb hm, fun hrun => ?_⟩
    exact ((haff (hm.isRunning_of_isRunning hrun)).of_moves hs (nodup_own hg i) (hr i) ht hm).1
  · rintro i w sh sh' hb ⟨ht, haff⟩ hap
    refine ⟨ht.apart hap, fun hrun => ?_⟩
    exact (haff (hap.run hrun)).congr fun x hx => hap.faults x (hb.splits x hx)

/-- **A run that affords its faults is not stopped** but from outside. -/
theorem isRunning_run (hg : ofSession c t selected = .ok g) (hr : g.Readable service)
    (ha : g.Affordable service) (hs : sink.Accepts) (hes : .cancel ∉ es) :
    (g.run service sink y es).shared.run.isRunning = true := by
  refine Machine.run_of_each (Q := fun m => m.shared.run.isRunning = true)
    (affords hg hr ha hs y) es rfl ?_ (fun h => absurd h hes) fun m a h => h
  rintro m i w w' sh' hrun - ⟨hb, ht, haff⟩ hm
  rw [((haff hrun).of_moves hs (nodup_own hg i) (hr i) ht hm).2]
  exact hrun

/-- **A call is refused by a fault or not at all**: every call of a run
whose splits can be read asks for batches behind a place in its split. -/
theorem calls_run (hg : ofSession c t selected = .ok g) (hr : g.Readable service) :
    ∀ call ∈ (g.run service sink y es).shared.service.calls,
      call ∈ service.calls ∨ ∃ st, service.streamFor call none = .ok st := by
  refine Machine.run_of_each (Q := fun m => ∀ call ∈ m.shared.service.calls,
      call ∈ service.calls ∨ ∃ st, service.streamFor call none = .ok st)
    (tracks hg service sink y) es (fun call h => .inl h) ?_ (fun _ m h => h) fun m a h => h
  rintro m i w w' sh' hcalls - ⟨hb, ht⟩ hm call hcall
  rcases hm.calls_eq with he | ⟨r, batch, hw, -, he⟩ <;> rw [he] at hcall
  · exact hcalls call hcall
  · rcases List.mem_append.1 hcall with hcall | hcall
    · exact hcalls call hcall
    · obtain rfl := List.mem_singleton.1 hcall
      have hd := ht.delivered
      simp only [Worker.HasDelivered, hw] at hd
      obtain ⟨xs, hst⟩ := hd.stands
      obtain ⟨post, hp, -⟩ := hst.place
      obtain ⟨post', -, he⟩ := hp.streamFor_eq (c := r.call g.plan.options)
        (Plan.isSome_script?_of_contents? (hr i _ hd.mem)) rfl rfl none
      exact .inr ⟨_, he⟩

end Ingestion

/-- A run that all workers have left and that was not stopped is completed. -/
theorem Machine.Settled.outcome?_of_isRunning {m : Machine σ} {own : Nat → List SplitId}
    (h : m.Settled own) (hrun : m.shared.run.isRunning = true) :
    m.outcome? = some (.completed (.ofReports m.shared.reports)) := by
  refine outcome?_eq_completed h.allLeft ?_ (Shared.failure?_eq_none_iff.2 fun i => ?_)
  · revert hrun
    cases m.shared.run <;> decide
  · -- a failure would have stopped the run
    by_contra hc
    obtain ⟨e, he⟩ := Shared.hasFailed_eq_true_iff.1 (by simpa using hc)
    obtain ⟨res, h₁, -, h₃⟩ := h.result (List.getElem?_eq_getElem (h.sourced.results _ he))
    have hres := Shared.mem_resultsOf.2 he
    rw [h₁, List.mem_singleton] at hres
    rw [h₃ e hres.symm] at hrun
    cases hrun

namespace Ingestion

/-- In a run that is completed every worker reports all of its splits. -/
theorem map_splits_of_completed (hg : ofSession c t selected = .ok g)
    (ho : (g.run service sink y es).outcome? = some (.completed summary)) :
    summary.workers.map Report.splits =
      (List.range c.parallelism.toNat).map fun i => (g.own i).length := by
  obtain ⟨hset, hd⟩ := delivered_of_completed_outcome hg ho
  obtain ⟨-, hconclude⟩ := settled_of_outcome hg ho
  have hlen := length_workers_run hg service sink y es
  obtain rfl := Shared.eq_ofReports_of_conclude (by rw [hconclude]; rfl)
  generalize g.run service sink y es = m at *
  have hall : (m.workers.filter fun w => !m.shared.hasFailed w.report.worker) = m.workers := by
    refine List.filter_eq_self.2 fun w _ => ?_
    rw [Shared.hasFailed_eq_false_of_conclude hconclude]
    rfl
  rw [hset.summary_eq, hall]
  refine List.ext_getElem (by simp [hlen]) fun i h₁ h₂ => ?_
  have hi : i < m.workers.length := by simpa using h₁
  simpa using (hd i m.workers[i] (List.getElem?_eq_getElem hi)).1

/-- A number that no worker has delivers nothing. -/
theorem recordsFrom_eq_nil (hg : ofSession c t selected = .ok g) (service : Service)
    (sink : Sink σ α) (y : σ) (es : List (Event α)) (hi : c.parallelism.toNat ≤ i) :
    (g.run service sink y es).shared.recordsFrom i = [] := by
  refine Shared.recordsFrom_eq_nil_iff.2 fun d hd => ?_
  have := (accounts hg service sink y es).2.delivered d hd
  rw [length_workers_run hg] at this
  omega

variable {flaky : Service} {sink' : Sink τ β} {y' : τ} {es' : List (Event β)}
variable {summary' : Summary}

/-- What was delivered by a completed run is what the scripts hold, also on
another service with the same scripts. -/
theorem contentsOf?_of_completed (hg : ofSession c t selected = .ok g)
    (hscripts : flaky.scripts = service.scripts)
    (ho : (g.run service sink y es).outcome? = some (.completed summary))
    (hi : i < c.parallelism.toNat) :
    g.plan.contentsOf? flaky (g.own i) =
      some ((g.run service sink y es).shared.recordsFrom i) := by
  obtain ⟨-, hd⟩ := delivered_of_completed_outcome hg ho
  have hlen := length_workers_run hg service sink y es
  rw [Plan.contentsOf?_congr hscripts]
  exact (hd i _ (List.getElem?_eq_getElem (by omega))).2

/-- The splits of a completed run can be read. -/
theorem readable_of_completed (hg : ofSession c t selected = .ok g)
    (hscripts : flaky.scripts = service.scripts)
    (ho : (g.run service sink y es).outcome? = some (.completed summary)) :
    g.Readable flaky := by
  intro i a ha
  rcases Nat.lt_or_ge i c.parallelism.toNat with hi | hi
  · exact Plan.isSome_contents? (contentsOf?_of_completed hg hscripts ho hi) a ha
  · rw [own_eq_nil hg hi] at ha
    cases ha

/-- Short queues of faults that may pass can be afforded. -/
theorem affordable_of_faults (hg : ofSession c t selected = .ok g)
    (hfaults : ∀ a ∈ t.splits, (flaky.faultsOf a).length ≤ c.read.maxRetries.toNat ∧
      ∀ f ∈ flaky.faultsOf a, f.kind.isTransient = true) : g.Affordable flaky := by
  intro i a ha
  obtain ⟨hbudget, hkinds⟩ := hfaults a ((own_sublist hg i).subset ha)
  rw [(ofSession_eq_ok hg).2.2.1]
  refine ⟨by simpa [Service.ahead] using hbudget, ?_⟩
  simpa [Service.ahead] using hkinds

/-- **A run that affords its faults is completed** once it is over, when the
rows of its splits can be counted. -/
theorem outcome?_of_affordable (hg : ofSession c t selected = .ok g)
    (hrows : ∀ a ∈ t.splits, ∀ bs, service.script? a = some bs → rowTotal bs < UInt64.size)
    (hr : g.Readable service) (ha : g.Affordable service) (hs : sink.Accepts) (hes : .cancel ∉ es)
    (hover : (g.run service sink y es).isOver = true) :
    ∃ summary, (g.run service sink y es).outcome? = some (.completed summary) := by
  have hrun := isRunning_run (y := y) hg hr ha hs hes
  obtain ⟨heach, hsource⟩ := accounts hg service sink y es
  have hleft : (g.run service sink y es).allLeft = true := by
    rw [Machine.allLeft_eq, hover, hasPanicked_eq_false hg hrows]
    rfl
  have hset : (g.run service sink y es).Settled g.own := ⟨heach, hsource, hleft⟩
  exact ⟨_, hset.outcome?_of_isRunning hrun⟩

/-- **Completed runs on the same scripts deliver the same.** -/
theorem same_of_completed (hg : ofSession c t selected = .ok g)
    (hscripts : flaky.scripts = service.scripts)
    (ho : (g.run service sink y es).outcome? = some (.completed summary))
    (ho' : (g.run flaky sink' y' es').outcome? = some (.completed summary')) :
    summary'.splits = summary.splits ∧
      ∀ i, (g.run flaky sink' y' es').shared.recordsFrom i =
        (g.run service sink y es).shared.recordsFrom i := by
  refine ⟨Summary.total_congr ?_, fun i => ?_⟩
  · rw [map_splits_of_completed hg ho', map_splits_of_completed hg ho]
  · rcases Nat.lt_or_ge i c.parallelism.toNat with hi | hi
    · have hthis := contentsOf?_of_completed hg hscripts ho hi
      have hthat := contentsOf?_of_completed hg rfl ho' hi
      exact Option.some.inj (hthat.symm.trans hthis)
    · rw [recordsFrom_eq_nil hg flaky sink' y' es' hi,
        recordsFrom_eq_nil hg service sink y es hi]

end Ingestion

/-- **Retries are transparent.** Compare a run that was completed, such as
one without faults, with the runs on the same scripts in which no split
has more faults queued than retries are allowed, all of them of kinds that
may pass. If the sink takes every record and nobody cancels, such a run
ends when every worker has its turn again and again; it ends completed,
with as many splits and the same records from every worker; and no call
is refused for where it asks to go on. -/
theorem completed_despite_faults {flaky : Service} {sink' : Sink τ β}
    (hg : Ingestion.ofSession c t selected = .ok g)
    (hrows : ∀ a ∈ t.splits, ∀ bs, service.script? a = some bs → rowTotal bs < UInt64.size)
    (hscripts : flaky.scripts = service.scripts)
    (hfaults : ∀ a ∈ t.splits, (flaky.faultsOf a).length ≤ c.read.maxRetries.toNat ∧
      ∀ f ∈ flaky.faultsOf a, f.kind.isTransient = true)
    (hs : sink'.Accepts) (y' : τ)
    (ho : (g.run service sink y es).outcome? = some (.completed summary)) :
    (∀ f, Machine.IsFair c.parallelism.toNat f →
      ∃ k, ((g.start flaky y').upTo g.plan sink' f k).isOver = true) ∧
    (∀ es', .cancel ∉ es' → (g.run flaky sink' y' es').isOver = true →
      ∃ summary', (g.run flaky sink' y' es').outcome? = some (.completed summary') ∧
        summary'.splits = summary.splits ∧
        ∀ i, (g.run flaky sink' y' es').shared.recordsFrom i =
          (g.run service sink y es).shared.recordsFrom i) ∧
    ∀ es', ∀ call ∈ (g.run flaky sink' y' es').shared.service.calls,
      call ∈ flaky.calls ∨ ∃ st, flaky.streamFor call none = .ok st := by
  have hrows' : ∀ a ∈ t.splits, ∀ bs, flaky.script? a = some bs → rowTotal bs < UInt64.size := by
    intro a ha bs hb
    exact hrows a ha bs (by rwa [← Service.script?_congr hscripts])
  have hreadable : g.Readable flaky := Ingestion.readable_of_completed hg hscripts ho
  have haffordable : g.Affordable flaky := Ingestion.affordable_of_faults hg hfaults
  refine ⟨fun f hf => ?_, fun es' hes hover => ?_, fun es' => ?_⟩
  · refine Machine.exists_isOver hs ?_
    rw [Ingestion.length_workers_start hg]
    exact hf
  · obtain ⟨summary', ho'⟩ :=
      Ingestion.outcome?_of_affordable hg hrows' hreadable haffordable hs hes hover
    exact ⟨summary', ho', Ingestion.same_of_completed hg hscripts ho ho'⟩
  · exact Ingestion.calls_run hg hreadable

/-- The run of `delivered_of_completed_with_faults`, beside the same run on
a service without faults. -/
theorem completed_despite_three_faults :
    let clean : Service := { scripts := Sample.faulty.scripts }
    let m := Sample.ingestion.run clean Sink.collecting () Sample.turns
    let m' := Sample.ingestion.run Sample.faulty Sink.collecting () Sample.turns
    m.outcome? = some (.completed (.ofReports m.shared.reports)) ∧
      m.shared.service.calls.length = 2 ∧ m'.shared.service.calls.length = 5 ∧
      ∃ summary, m'.outcome? = some (.completed summary) ∧
        summary.splits = (Summary.ofReports m.shared.reports).splits ∧
        ∀ i, m'.shared.recordsFrom i = m.shared.recordsFrom i := by
  intro clean m m'
  have ho : m.outcome? = some (.completed (.ofReports m.shared.reports)) :=
    Machine.outcome?_eq_completed (by decide +kernel) (by decide +kernel) (by decide +kernel)
  have hrows : ∀ a ∈ Sample.session.splits, ∀ bs, clean.script? a = some bs →
      rowTotal bs < UInt64.size := Sample.rowTotal_faulty
  have hscripts : Sample.faulty.scripts = clean.scripts := rfl
  have hs : Sink.collecting.Accepts := fun y _ _ _ => ⟨y, rfl⟩
  obtain ⟨-, hdone, -⟩ :=
    completed_despite_faults Sample.ofSession_session hrows hscripts (by decide) hs () ho
  exact ⟨ho, by decide +kernel, by decide +kernel,
    hdone Sample.turns (by decide +kernel) (by decide +kernel)⟩

end Intake
