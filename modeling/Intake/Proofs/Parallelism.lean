import Intake.Proofs.Alone
import Intake.Proofs.Contiguity
import Intake.Proofs.Transparency
/-!
# How many workers there are does not change the data

A worker does on each of its splits what a reader does that reads the split
alone: the same calls meet the same faults, and nothing of one split, no
fault and no retry, is left for the next (`Worker.Retraces`). So it is
settled for each split by itself whether a run gets through it, and with
which calls and records; and a run into a sink that takes every record is
completed, if nobody cancels it, just when each of its splits can be read
through (`Ingestion.completed_iff`).

The main statement compares two runs on a session with different numbers of
workers, in whatever order their workers move (`same_data_of_parallelism`):
either both are completed or neither is, and then both deliver the same
records, those of each split together and in the same order, and make the
same calls for each split.
-/

namespace Intake

open SplitReading

variable {σ τ α β : Type} {p : Plan} {sink : Sink σ α} {sh sh' : Shared σ} {w w' : Worker}
variable {running : Bool} {r r' : SplitReader} {src s' : Service} {b : Batch}
variable {own : List SplitId} {i n : Nat} {x : SplitId} {rest ys : List Record}

/-! ## What was done on one split -/

namespace Shared

/-- Two states of a run between which nothing was done on a split. -/
structure SameOn (x : SplitId) (sh sh' : Shared σ) : Prop where
  service : sh.service.SameOn x sh'.service
  records : sh'.recordsOf x = sh.recordsOf x

theorem Apart.sameOn (h : sh.Apart i own sh') (hx : x ∈ own) : sh.SameOn x sh' :=
  ⟨⟨Service.script?_congr h.scripts x, h.faults x hx, h.calls x hx⟩, h.taken x hx⟩

/-- What was done on a split is what a reading of it alone does in `n`
steps: so the service noted, and those are the records taken. -/
structure Retraced (p : Plan) (src : Service) (x : SplitId) (n : Nat) (sh : Shared σ) : Prop where
  service : (alone p.options src x n).service.SameOn x sh.service
  records : p.decoded? (alone p.options src x n).batches = some (sh.recordsOf x)

/-- A split that was read to its end, as it is read alone. -/
def IsThrough (p : Plan) (src : Service) (x : SplitId) (sh : Shared σ) : Prop :=
  ∃ n, (alone p.options src x n).isThrough = true ∧ sh.Retraced p src x n

theorem Retraced.congr (h : sh.Retraced p src x n) (hs : sh.SameOn x sh') :
    sh'.Retraced p src x n :=
  ⟨h.service.trans hs.service, by rw [hs.records]; exact h.records⟩

theorem IsThrough.congr (h : sh.IsThrough p src x) (hs : sh.SameOn x sh') :
    sh'.IsThrough p src x := by
  obtain ⟨n, hthrough, hretraced⟩ := h
  exact ⟨n, hthrough, hretraced.congr hs⟩

theorem IsThrough.readsThrough (h : sh.IsThrough p src x) : p.ReadsThrough src x := by
  obtain ⟨n, hthrough, hretraced⟩ := h
  exact ⟨n, _, hthrough, hretraced.records⟩

/-- **Runs that are through with a split did the same on it**, whatever
else they did. -/
theorem IsThrough.same {that : Shared τ} (h : sh.IsThrough p src x)
    (h' : that.IsThrough p src x) :
    that.recordsOf x = sh.recordsOf x ∧
      callsFor x that.service.calls = callsFor x sh.service.calls := by
  obtain ⟨n, hn, hretraced⟩ := h
  obtain ⟨m, hm, hretraced'⟩ := h'
  obtain ⟨hbatches, hservice⟩ := eq_of_isDone (isDone_of_isThrough hn) (isDone_of_isThrough hm)
  have hrecords := hretraced'.records
  have hcalls := hretraced'.service.calls
  rw [hbatches, hretraced.records] at hrecords
  rw [hservice] at hcalls
  exact ⟨(Option.some.inj hrecords).symm, hcalls.trans hretraced.service.calls.symm⟩

end Shared

/-- A step of a worker does nothing on splits that it has not in hand. -/
theorem Worker.Moves.sameOn (h : w.Moves p sink sh w' sh') (hx : x ∉ w.inHand) :
    sh.SameOn x sh' := by
  obtain ⟨hscripts, hfaults⟩ := h.service_eq
  exact ⟨⟨Service.script?_congr hscripts x, hfaults x hx, h.callsFor_eq hx⟩,
    h.recordsOf_of_not_mem hx⟩

/-! ## Readers of a run -/

/-- Where a reader of a run stands: where a reading of its split alone comes
to, all of the records handed out being taken but for `rest`. -/
structure SplitReader.IsAt (p : Plan) (src : Service) (r : SplitReader) (rest : List Record)
    (sh : Shared σ) : Prop where
  live : ∀ i, r.stage ≠ .done i
  place : ∃ n, r.Retraces p.options src sh.service n ∧
    p.decoded? (alone p.options src r.split n).batches = some (sh.recordsOf r.split ++ rest)

namespace SplitReader.IsAt

theorem congr (h : r.IsAt p src rest sh) (hs : sh.SameOn r.split sh') : r.IsAt p src rest sh' := by
  obtain ⟨n, hretraces, hdec⟩ := h.place
  refine ⟨h.live, n,
    ⟨hretraces.reader, hretraces.service.trans hs.service, hretraces.calm⟩, ?_⟩
  rw [hs.records]
  exact hdec

/-- A reader in front of its split. -/
theorem start (h : sh.Retraced p src x 0) : SplitReader.IsAt p src { split := x } [] sh := by
  refine ⟨nofun, 0, ⟨rfl, h.service, nofun⟩, ?_⟩
  rw [List.append_nil]
  exact h.records

theorem working (h : r.IsAt p src [] sh)
    (hm : r.Moves p.options running sh.service r' s' .working) :
    r'.IsAt p src [] { sh with service := s' } := by
  obtain ⟨n, hretraces, hdec⟩ := h.place
  have hlive := hm.live rfl
  obtain ⟨hretraces', hsignals⟩ := hretraces.step hm (interrupted_eq_false hlive)
  refine ⟨hlive, n + 1, hretraces' nofun, ?_⟩
  rw [hm.split_eq, batches_concat hsignals]
  change _ = some (sh.recordsOf r.split ++ [])
  simpa [Signal.batch?] using hdec

theorem batch (h : r.IsAt p src [] sh)
    (hm : r.Moves p.options running sh.service r' s' (.batch b))
    (hd : p.codec.decode p.layout b = .ok ys) : r'.IsAt p src ys { sh with service := s' } := by
  obtain ⟨n, hretraces, hdec⟩ := h.place
  have hlive := hm.live rfl
  obtain ⟨hretraces', hsignals⟩ := hretraces.step hm (interrupted_eq_false hlive)
  refine ⟨hlive, n + 1, hretraces' nofun, ?_⟩
  rw [List.append_nil] at hdec
  rw [hm.split_eq, batches_concat hsignals]
  exact Plan.decoded?_concat hdec hd

/-- A record that the sink takes is no more to be taken. -/
theorem taken {record : Record} (h : r.IsAt p src (record :: rest) sh) (y : σ) (i : Nat) :
    r.IsAt p src rest
      { sh with sink := y, delivered := sh.delivered.push ⟨i, r.split, record⟩ } := by
  obtain ⟨n, hretraces, hdec⟩ := h.place
  refine ⟨h.live, n, hretraces, ?_⟩
  rw [hdec, Shared.recordsOf_push_self sh y ⟨i, r.split, record⟩, List.append_assoc]
  rfl

/-- A batch that cannot be decoded is in the way of a reading alone, too. -/
theorem undecoded {e : DecodeError} (h : r.IsAt p src [] sh)
    (hm : r.Moves p.options running sh.service r' s' (.batch b))
    (hd : p.codec.decode p.layout b = .error e) : ¬ p.ReadsThrough src r.split := by
  obtain ⟨n, hretraces, -⟩ := h.place
  obtain ⟨-, hsignals⟩ := hretraces.step hm (interrupted_eq_false (hm.live rfl))
  intro hreads
  have hmem : .batch b ∈ (alone p.options src r.split (n + 1)).signals := by simp [hsignals]
  obtain ⟨zs, hz⟩ := hreads.decodes hmem
  cases hz.symm.trans hd

/-- And so is a failure of the reader. -/
theorem failed {f : Failure} (h : r.IsAt p src [] sh)
    (hm : r.Moves p.options running sh.service r' s' (.failed f)) :
    ¬ p.ReadsThrough src r.split := by
  obtain ⟨n, hretraces, -⟩ := h.place
  have hi : r'.interrupted = false := by
    obtain ⟨rfl, -⟩ := hm.failed_eq
    rfl
  obtain ⟨-, hsignals⟩ := hretraces.step hm hi
  have hmem : .failed f ∈ (alone p.options src r.split (n + 1)).signals := by simp [hsignals]
  exact fun hreads => by cases hreads.isLoss_eq_false hmem

/-- And so is a panic. -/
theorem panicked (h : r.IsAt p src [] sh)
    (hm : r.Moves p.options running sh.service r' s' .panicked) :
    ¬ p.ReadsThrough src r.split := by
  obtain ⟨n, hretraces, -⟩ := h.place
  obtain ⟨-, hsignals⟩ := hretraces.step hm (interrupted_eq_false (hm.live rfl))
  have hmem : .panicked ∈ (alone p.options src r.split (n + 1)).signals := by simp [hsignals]
  exact fun hreads => by cases hreads.isLoss_eq_false hmem

/-- A reader that comes to its end is through with its split. -/
theorem ended (h : r.IsAt p src [] sh)
    (hm : r.Moves p.options running sh.service r' s' .ended) (hi : r'.interrupted = false) :
    Shared.IsThrough p src r.split { sh with service := s' } := by
  obtain ⟨n, hretraces, hdec⟩ := h.place
  obtain ⟨hretraces', hsignals⟩ := hretraces.step hm hi
  have hretraces' := hretraces' nofun
  have hstage : (alone p.options src r.split (n + 1)).reader.stage = .done false := by
    rw [← hm.split_eq, hretraces'.reader]
    cases hm with
    | through hr => exact absurd hr (h.live _)
    | interrupt hr hrun => cases hi
    | finish hr ho hn => rfl
  have hlive : ∀ i, (alone p.options src r.split n).reader.stage ≠ .done i := by
    rw [hretraces.reader]
    exact h.live
  refine ⟨n + 1, ?_, ?_, ?_⟩
  · rw [isThrough_eq_true_iff, hsignals]
    exact ⟨hstage, List.forall_mem_append.2 ⟨isLoss_of_live hlive hretraces.calm,
      List.forall_mem_singleton.2 rfl⟩⟩
  · rw [← hm.split_eq]
    exact hretraces'.service
  · rw [batches_concat hsignals]
    change _ = some (sh.recordsOf r.split)
    simpa [Signal.batch?] using hdec

end SplitReader.IsAt

/-! ## Workers -/

namespace Worker

/-- A worker that goes through its splits `own`: nothing was done on those
it has not taken up, and it is through with those it has put down. -/
structure Orderly (p : Plan) (src : Service) (own : List SplitId) (w : Worker)
    (sh : Shared σ) : Prop where
  nodup : (w.inHand ++ w.splits).Nodup
  ahead : ∀ x ∈ w.splits, sh.Retraced p src x 0
  through : ∀ x ∈ own, x ∈ w.inHand ++ w.splits ∨ sh.IsThrough p src x

theorem Orderly.apart (hb : w.Belongs i own) (h : w.Orderly p src own sh)
    (ha : sh.Apart i own sh') : w.Orderly p src own sh' where
  nodup := h.nodup
  ahead x hx := (h.ahead x hx).congr (ha.sameOn (hb.splits x (List.mem_append_right _ hx)))
  through x hx := (h.through x hx).imp_right fun hthrough => hthrough.congr (ha.sameOn hx)

/-- It stays so when it is through with what it puts down. -/
theorem Orderly.of_moves (h : w.Orderly p src own sh) (hm : w.Moves p sink sh w' sh')
    (hdown : ∀ x ∈ w.inHand ++ w.splits, x ∈ w'.inHand ++ w'.splits ∨ sh'.IsThrough p src x) :
    w'.Orderly p src own sh' := by
  refine ⟨h.nodup.sublist hm.sublist_splits, fun x hx => ?_, fun x hx => ?_⟩
  · have hx := hm.splits_subset x hx
    exact (h.ahead x hx).congr (hm.sameOn (not_mem_inHand h.nodup hx))
  · by_cases hin : x ∈ w.inHand
    · exact hdown x (List.mem_append_left _ hin)
    · rcases h.through x hx with hleft | hthrough
      · exact hdown x hleft
      · exact .inr (hthrough.congr (hm.sameOn hin))

/-- What a worker with the splits `own` has done on them, by where it
stands: what readings of them alone do. A worker that stops the run or
panics has come to a split that cannot be read through. -/
def Retraces (p : Plan) (src : Service) (own : List SplitId) (w : Worker) (sh : Shared σ) : Prop :=
  match w.stage with
  | .between => w.Orderly p src own sh
  | .reading r _ => w.Orderly p src own sh ∧ r.IsAt p src [] sh
  | .emitting r _ rest _ _ => w.Orderly p src own sh ∧ r.IsAt p src rest sh
  | .refused _ => False
  | .failing _ | .panicked => ∃ x ∈ own, ¬ p.ReadsThrough src x
  | .leaving _ | .left => sh.run.isRunning = true → ∀ x ∈ own, sh.IsThrough p src x

theorem Retraces.start (hn : own.Nodup) (hs : sh.service = src) (hr : ∀ x, sh.recordsOf x = []) :
    (Worker.start i own).Retraces p src own sh := by
  subst hs
  refine ⟨hn, fun x _ => ⟨.refl x _, ?_⟩, fun x hx => .inl hx⟩
  rw [hr]
  rfl

theorem Retraces.apart (hb : w.Belongs i own) (h : w.Retraces p src own sh)
    (ha : sh.Apart i own sh') : w.Retraces p src own sh' := by
  have hown : ∀ {r : SplitReader}, r.split ∈ w.inHand → sh.SameOn r.split sh' := fun hin =>
    ha.sameOn (hb.splits _ (List.mem_append_left _ hin))
  have hleft : (sh.run.isRunning = true → ∀ x ∈ own, sh.IsThrough p src x) →
      sh'.run.isRunning = true → ∀ x ∈ own, sh'.IsThrough p src x := fun h hrun x hx =>
    (h (ha.run hrun) x hx).congr (ha.sameOn hx)
  unfold Retraces at h ⊢
  cases hw : w.stage with
  | between =>
    simp only [hw] at h ⊢
    exact h.apart hb ha
  | reading r batch =>
    simp only [hw] at h ⊢
    exact ⟨h.1.apart hb ha, h.2.congr (hown (by simp [inHand, hw]))⟩
  | emitting r batch rest rows bytes =>
    simp only [hw] at h ⊢
    exact ⟨h.1.apart hb ha, h.2.congr (hown (by simp [inHand, hw]))⟩
  | refused r => simp only [hw] at h
  | failing e =>
    simp only [hw] at h ⊢
    exact h
  | panicked =>
    simp only [hw] at h ⊢
    exact h
  | leaving result =>
    simp only [hw] at h ⊢
    exact hleft h
  | left =>
    simp only [hw] at h ⊢
    exact hleft h

/-- **A worker does on its splits what readings of them alone do**, by its
own steps, when the sink takes every record. -/
theorem Retraces.of_moves (hs : sink.Accepts) (hb : w.Belongs i own)
    (h : w.Retraces p src own sh) (hm : w.Moves p sink sh w' sh') :
    w'.Retraces p src own sh' := by
  have hmem : ∀ {r : SplitReader}, r.split ∈ w.inHand → r.split ∈ own := fun hin =>
    hb.splits _ (List.mem_append_left _ hin)
  have hdown := fun horderly : w.Orderly p src own sh => horderly.of_moves hm
  -- most steps leave the worker with the splits it had
  have hkeeps : w.Orderly p src own sh → w.inHand ++ w.splits = w'.inHand ++ w'.splits →
      w'.Orderly p src own sh' := fun horderly heq =>
    hdown horderly fun x hx => .inl (heq ▸ hx)
  unfold Retraces at h
  cases hm with
  | through hw hstop =>
    simp only [hw] at h
    intro hrun x hx
    rcases hstop with hnil | hstopped
    · exact (h.through x hx).resolve_left (by simp [inHand, hw, hnil])
    · rw [hstopped] at hrun
      cases hrun
  | take hw hx hrun =>
    simp only [hw] at h
    exact ⟨hkeeps h (by simp [inHand, hw, hx]), .start (h.ahead _ (by simp [hx]))⟩
  | read hw hr =>
    simp only [hw] at h
    exact ⟨hkeeps h.1 (by simp [inHand, hw, hr.split_eq]), h.2.working hr⟩
  | decode hw hr hd =>
    simp only [hw] at h
    exact ⟨hkeeps h.1 (by simp [inHand, hw, hr.split_eq]), h.2.batch hr hd⟩
  | undecoded hw hr hd =>
    simp only [hw] at h
    exact ⟨_, hmem (by simp [inHand, hw]), h.2.undecoded hr hd⟩
  | unread hw hr =>
    simp only [hw] at h
    exact ⟨_, hmem (by simp [inHand, hw]), h.2.failed hr⟩
  | interrupted hw hr hi =>
    simp only [hw] at h
    intro hrun
    have hgo : sh.run.isRunning = true := hrun
    rw [hr.running_eq_false h.2.live hi] at hgo
    cases hgo
  | finish hw hr hi =>
    rename_i r r' batch s'
    simp only [hw] at h
    refine hdown h.1 fun x hx => ?_
    rcases List.mem_append.1 hx with hx | hx
    · obtain rfl : x = r.split := by simpa [inHand, hw] using hx
      exact .inr ((h.2.ended hr hi).congr
        ⟨(Service.alike_releaseIf s' r'.stream).sameOn r.split, rfl⟩)
    · exact .inl (List.mem_append_right _ hx)
  | panic hw hr =>
    simp only [hw] at h
    exact ⟨_, hmem (by simp [inHand, hw]), h.2.panicked hr⟩
  | emitted hw =>
    simp only [hw] at h
    exact ⟨hkeeps h.1 (by simp [inHand, hw]), h.2.congr ⟨.refl _ _, rfl⟩⟩
  | accept hw ho =>
    simp only [hw] at h
    exact ⟨hkeeps h.1 (by simp [inHand, hw]), h.2.taken _ _⟩
  | refuse hw ho =>
    rename_i r batch rows bytes x rest y
    obtain ⟨y', hy'⟩ := hs sh.sink sh.run.isRunning w.report.worker x
    rw [hy'] at ho
    cases ho
  | cancel hw => simp only [hw] at h
  | fail hw =>
    intro hrun
    simp at hrun
  | leave hw =>
    simp only [hw] at h
    exact fun hrun x hx => (h hrun x hx).congr ⟨.refl _ _, rfl⟩

/-- Only a worker at a split that cannot be read through stops the run. -/
theorem Retraces.run_eq (h : w.Retraces p src own sh)
    (hreads : ∀ x ∈ own, p.ReadsThrough src x) (hm : w.Moves p sink sh w' sh') :
    sh'.run = sh.run := by
  unfold Retraces at h
  cases hm with
  | cancel hw => simp only [hw] at h
  | fail hw =>
    simp only [hw] at h
    obtain ⟨x, hx, hnot⟩ := h
    exact absurd (hreads x hx) hnot
  | _ => rfl

end Worker

/-! ## Runs -/

variable {c : EngineConfig} {t : Session} {selected : List String} {g : Ingestion}
variable {service : Service} {y : σ} {es : List (Event α)} {summary : Summary}

namespace Ingestion

/-- A session that opens, opens with every other number of workers, to be
read in the same way. -/
theorem exists_ofSession (hg : ofSession c t selected = .ok g) {q : UInt64} (hq : q ≠ 0) :
    ∃ g', ofSession { c with parallelism := q } t selected = .ok g' ∧ g'.plan = g.plan := by
  have hvalid : EngineConfig.validate { c with parallelism := q } = c.validate := by
    have hp : c.parallelism ≠ 0 := fun h => by
      have hpos := (ofSession_eq_ok hg).1
      rw [h] at hpos
      exact absurd hpos (Nat.lt_irrefl 0)
    rw [EngineConfig.validate, EngineConfig.validate, if_neg hq, if_neg hp]
  simp only [ofSession, bind, Except.bind, pure, Except.pure] at hg ⊢
  rw [hvalid]
  -- no other check looks at the number of workers
  split at hg
  · cases hg
  split at hg
  · cases hg
  split at hg
  · cases hg
  split at hg
  · cases hg
  cases hg
  exact ⟨_, rfl, rfl⟩

/-- The workers of a run do on their splits what readings of them alone
do. -/
theorem retraces (hg : ofSession c t selected = .ok g) (hs : sink.Accepts) (service : Service)
    (y : σ) (es : List (Event α)) :
    (g.run service sink y es).Each fun i w sh =>
      w.Belongs i (g.own i) ∧ w.Retraces g.plan service (g.own i) sh := by
  refine Machine.each_run (fun i j => disjoint_own hg) (belongs_start hg service y) ?_
    (fun hb h hm => h.of_moves hs hb hm) (fun hb h ha => h.apart hb ha) es
  intro i w hw
  obtain ⟨-, rfl⟩ := start_workers hg service y hw
  exact .start (nodup_own hg i) rfl fun _ => rfl

/-- A run that is completed is through with every split. -/
theorem isThrough_of_completed (hg : ofSession c t selected = .ok g) (hs : sink.Accepts)
    (ho : (g.run service sink y es).outcome? = some (.completed summary)) (hx : x ∈ t.splits) :
    (g.run service sink y es).shared.IsThrough g.plan service x := by
  obtain ⟨hset, hconclude⟩ := settled_of_outcome hg ho
  have hrun := Machine.isRunning_of_completed hset (Machine.tellsFailure_run rfl es) hconclude
  obtain ⟨i, hi, hown⟩ := exists_mem_own hg hx
  have hlen := length_workers_run hg service sink y es
  have hw : (g.run service sink y es).workers[i]? = some _ :=
    List.getElem?_eq_getElem (by omega)
  have hretraces := (retraces hg hs service y es i _ hw).2
  simp only [Worker.Retraces, hset.stage_eq hw] at hretraces
  exact hretraces hrun x hown

/-- A run whose splits can be read through is not stopped but from
outside. -/
theorem isRunning_of_readsThrough (hg : ofSession c t selected = .ok g) (hs : sink.Accepts)
    (hes : .cancel ∉ es) (hreads : ∀ x ∈ t.splits, g.plan.ReadsThrough service x) :
    (g.run service sink y es).shared.run.isRunning = true := by
  refine Machine.run_of_each (Q := fun m => m.shared.run.isRunning = true)
    (retraces hg hs service y) es rfl ?_ (fun h => absurd h hes) fun m a h => h
  rintro m i w w' sh' hrun - ⟨-, hretraces⟩ hm
  rw [hretraces.run_eq (fun x hx => hreads x ((own_sublist hg i).subset hx)) hm]
  exact hrun

/-- **A run is completed just when each of its splits can be read
through**, if it is over, the sink takes every record and nobody cancels. -/
theorem completed_iff (hg : ofSession c t selected = .ok g) (hs : sink.Accepts)
    (hes : .cancel ∉ es) (hover : (g.run service sink y es).isOver = true) :
    (∃ summary, (g.run service sink y es).outcome? = some (.completed summary)) ↔
      ∀ x ∈ t.splits, g.plan.ReadsThrough service x := by
  constructor
  · rintro ⟨summary, ho⟩ x hx
    exact (isThrough_of_completed hg hs ho hx).readsThrough
  · intro hreads
    obtain ⟨heach, hsource⟩ := accounts hg service sink y es
    have hcalm : (g.run service sink y es).hasPanicked = false := by
      by_contra hc
      obtain ⟨w, hw, hpanicked⟩ := List.any_eq_true.1 (Bool.of_not_eq_false hc)
      obtain ⟨i, hi⟩ := List.mem_iff_getElem?.1 hw
      have hretraces := (retraces hg hs service y es i w hi).2
      rw [Worker.Retraces, Worker.stage_of_hasPanicked hpanicked] at hretraces
      obtain ⟨x, hx, hnot⟩ := hretraces
      exact hnot (hreads x ((own_sublist hg i).subset hx))
    have hset : (g.run service sink y es).Settled g.own :=
      ⟨heach, hsource, by rw [Machine.allLeft_eq, hover, hcalm]; rfl⟩
    exact ⟨_, hset.outcome?_of_isRunning (isRunning_of_readsThrough hg hs hes hreads)⟩

end Ingestion

/-- Two runs that treat the splits `ss` alike: all in all they deliver the
same records, those of each split together and in the same order, and they
make the same calls for each split. -/
structure Shared.SameData (ss : List SplitId) (sh : Shared σ) (that : Shared τ) : Prop where
  records : sh.records.Perm that.records
  recordsOf : ∀ x ∈ ss, that.recordsOf x = sh.recordsOf x
  together : ∀ x ∈ ss, sh.IsTogether x ∧ that.IsTogether x
  calls : ∀ x ∈ ss, callsFor x that.service.calls = callsFor x sh.service.calls

/-- Completed runs that share a plan treat the splits alike. -/
theorem Ingestion.sameData_of_completed {c' : EngineConfig} {g' : Ingestion} {sink' : Sink τ β}
    {y' : τ} {es' : List (Event β)} {summary' : Summary} (hg : ofSession c t selected = .ok g)
    (hg' : ofSession c' t selected = .ok g') (hplan : g'.plan = g.plan) (hs : sink.Accepts)
    (hs' : sink'.Accepts) (ho : (g.run service sink y es).outcome? = some (.completed summary))
    (ho' : (g'.run service sink' y' es').outcome? = some (.completed summary')) :
    Shared.SameData t.splits (g.run service sink y es).shared
      (g'.run service sink' y' es').shared := by
  have hsame : ∀ x ∈ t.splits, _ := fun x hx => by
    have hthis := isThrough_of_completed hg hs ho hx
    have hthat := isThrough_of_completed hg' hs' ho' hx
    rw [hplan] at hthat
    exact hthis.same hthat
  refine ⟨?_, fun x hx => (hsame x hx).1, fun x hx => ⟨?_, ?_⟩, fun x hx => (hsame x hx).2⟩
  · have hall := List.flatMap_congr fun x hx => (hsame x hx).1
    have hperm := records_perm hg' service sink' y' es'
    rw [hall] at hperm
    exact (records_perm hg service sink y es).trans hperm.symm
  · exact isTogether hg service sink y es hx
  · exact isTogether hg' service sink' y' es' hx

/-- **How many workers there are does not change the data.** A session that
opens, opens with any other number of workers. If the sinks take every
record and nobody cancels, the runs end when every worker has its turn
again and again, and either both are completed or neither is, in whatever
order their workers move. When they are, they deliver the same records,
those of each split together and in the same order, and the client
receives the same calls for each split, in the same order. -/
theorem same_data_of_parallelism {sink' : Sink τ β} (hg : Ingestion.ofSession c t selected = .ok g)
    {q : UInt64} (hq : q ≠ 0) (service : Service) (hs : sink.Accepts) (hs' : sink'.Accepts)
    (y : σ) (y' : τ) :
    ∃ g', Ingestion.ofSession { c with parallelism := q } t selected = .ok g' ∧
      (∀ f, Machine.IsFair c.parallelism.toNat f →
        ∃ k, ((g.start service y).upTo g.plan sink f k).isOver = true) ∧
      (∀ f, Machine.IsFair q.toNat f →
        ∃ k, ((g'.start service y').upTo g'.plan sink' f k).isOver = true) ∧
      ∀ es es', .cancel ∉ es → .cancel ∉ es' →
        let m := g.run service sink y es
        let m' := g'.run service sink' y' es'
        m.isOver = true → m'.isOver = true →
          ((∃ summary, m.outcome? = some (.completed summary)) ↔
            ∃ summary, m'.outcome? = some (.completed summary)) ∧
          ∀ summary, m.outcome? = some (.completed summary) →
            m.shared.SameData t.splits m'.shared := by
  obtain ⟨g', hg', hplan⟩ := Ingestion.exists_ofSession hg hq
  refine ⟨g', hg', fun f hf => ?_, fun f hf => ?_, ?_⟩
  · refine Machine.exists_isOver hs ?_
    rw [Ingestion.length_workers_start hg]
    exact hf
  · refine Machine.exists_isOver hs' ?_
    rw [Ingestion.length_workers_start hg']
    exact hf
  · intro es es' hes hes' m m' hover hover'
    have hiff : (∃ summary, m.outcome? = some (.completed summary)) ↔
        ∃ summary, m'.outcome? = some (.completed summary) := by
      rw [Ingestion.completed_iff hg hs hes hover, Ingestion.completed_iff hg' hs' hes' hover',
        hplan]
    refine ⟨hiff, fun summary ho => ?_⟩
    obtain ⟨summary', ho'⟩ := hiff.1 ⟨summary, ho⟩
    exact Ingestion.sameData_of_completed hg hg' hplan hs hs' ho ho'

namespace Sample

/-- Three faults for each split, six all together and one more than a reader
has retries. -/
def flaky : Service :=
  { faulty with
    faults := faulty.faults ++ [(⟨"b"⟩, [.onOpen .network, .onOpen .timeout, .onOpen .aborted])] }

end Sample

/-- Two workers, of which the second moves first, and one. -/
theorem same_data_of_one_worker :
    let m := Sample.ingestion.run Sample.flaky Sink.collecting () Sample.turns.reverse
    let m' := Sample.solo.run Sample.flaky Sink.collecting () (Sample.steps 60)
    m.outcome? = some (.completed (.ofReports m.shared.reports)) ∧
      (∃ summary, m'.outcome? = some (.completed summary)) ∧
      m.shared.records = [⟨[.int64 7]⟩, ⟨[.int64 5]⟩, ⟨[.int64 6]⟩] ∧
      m'.shared.records = [⟨[.int64 5]⟩, ⟨[.int64 6]⟩, ⟨[.int64 7]⟩] ∧
      (callsFor ⟨"b"⟩ m.shared.service.calls).length = 4 ∧
      m.shared.SameData Sample.session.splits m'.shared := by
  intro m m'
  have ho : m.outcome? = some (.completed (.ofReports m.shared.reports)) :=
    Machine.outcome?_eq_completed (by decide +kernel) (by decide +kernel) (by decide +kernel)
  have hs : Sink.collecting.Accepts := fun y _ _ _ => ⟨y, rfl⟩
  obtain ⟨g', hg', -, -, hsame⟩ := same_data_of_parallelism Sample.ofSession_session
    (q := 1) (by decide) Sample.flaky hs hs () ()
  obtain rfl : Sample.solo = g' := Except.ok.inj (Sample.ofSession_solo.symm.trans hg')
  obtain ⟨hiff, hdata⟩ := hsame Sample.turns.reverse (Sample.steps 60) (by decide +kernel)
    (by decide +kernel) (by decide +kernel) (by decide +kernel)
  exact ⟨ho, hiff.1 ⟨_, ho⟩, by decide +kernel, by decide +kernel, by decide +kernel,
    hdata _ ho⟩

end Intake
