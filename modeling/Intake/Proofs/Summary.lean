import Intake.Proofs.Accounts
/-!
# The summary of a run

The summary of a run that was completed or cancelled holds the reports of
the workers that left without a failure, in the order of their numbers,
and each report counts the records the sink took from its worker. So the
summary tells of every worker and every record unless a worker failed
behind a cancellation (`summary_of_outcome`): such a worker leaves no
report, and the records it delivered before are in no sum.
-/

namespace Intake

variable {σ α : Type} {p : Plan} {sink : Sink σ α} {sh : Shared σ} {m : Machine σ}
variable {own : Nat → List SplitId}
variable {c : EngineConfig} {s : Session} {selected : List String} {g : Ingestion}

namespace Shared

theorem mem_resultsOf {i : Nat} {res : Except Failure Report} :
    res ∈ sh.resultsOf i ↔ (i, res) ∈ sh.results := by
  simp only [resultsOf, List.mem_map, List.mem_filter, beq_iff_eq]
  constructor
  · rintro ⟨⟨j, res'⟩, ⟨hr, rfl⟩, rfl⟩
    exact hr
  · intro hr
    exact ⟨(i, res), ⟨hr, rfl⟩, rfl⟩

theorem mem_reports {rep : Report} : rep ∈ sh.reports ↔ ∃ i, (i, .ok rep) ∈ sh.results := by
  simp only [reports, List.mem_filterMap]
  constructor
  · rintro ⟨⟨i, res⟩, hr, hrep⟩
    cases res with
    | error e => cases hrep
    | ok rep' =>
      obtain rfl := Option.some.inj hrep
      exact ⟨i, hr⟩
  · rintro ⟨i, hr⟩
    exact ⟨(i, .ok rep), hr, rfl⟩

theorem hasFailed_eq_true_iff {i : Nat} :
    sh.hasFailed i = true ↔ ∃ e, (i, .error e) ∈ sh.results := by
  simp only [hasFailed, List.any_eq_true, Bool.not_eq_true', mem_resultsOf]
  constructor
  · rintro ⟨res, hr, he⟩
    cases res with
    | error e => exact ⟨e, hr⟩
    | ok rep => cases he
  · rintro ⟨e, hr⟩
    exact ⟨.error e, hr, rfl⟩

/-- A run in which no worker failed has no failure to tell of. -/
theorem failure?_eq_none_iff : sh.failure? = none ↔ ∀ i, sh.hasFailed i = false := by
  simp only [failure?, List.findSome?_eq_none_iff, Prod.forall]
  constructor
  · intro h i
    by_contra hc
    obtain ⟨e, he⟩ := hasFailed_eq_true_iff.1 (by simpa using hc)
    cases h i (.error e) he
  · intro h i res hr
    cases res with
    | ok rep => rfl
    | error e =>
      have := hasFailed_eq_true_iff.2 ⟨e, hr⟩
      rw [h i] at this
      cases this

theorem length_resultsOf (i : Nat) :
    (sh.resultsOf i).length = (sh.results.map Prod.fst).count i := by
  rw [resultsOf, List.length_map, List.count, List.countP_map, List.countP_eq_length_filter]
  rfl

end Shared

namespace Machine

/-- Every worker of a run, at its end, with what it owes for its number. -/
structure Settled (own : Nat → List SplitId) (m : Machine σ) : Prop where
  each : m.Each fun i w sh => w.Belongs i (own i) ∧ w.Accounted i sh
  sourced : m.Sourced
  allLeft : m.allLeft = true

namespace Settled

theorem stage_eq (h : m.Settled own) {i : Nat} {w : Worker} (hw : m.workers[i]? = some w) :
    w.stage = .left :=
  Worker.stage_of_hasLeft (List.all_eq_true.1 h.allLeft w (List.mem_of_getElem? hw))

/-- The one result of a worker. -/
theorem result (h : m.Settled own) {i : Nat} {w : Worker} (hw : m.workers[i]? = some w) :
    ∃ res, m.shared.resultsOf i = [res] ∧ (∀ rep, res = .ok rep → rep = w.report) ∧
      (∀ e, res = .error e → m.shared.run.isRunning = false) :=
  (h.each i w hw).2.left (h.stage_eq hw)

theorem map_worker (h : m.Settled own) :
    m.workers.map (fun w => w.report.worker) = List.range m.workers.length := by
  refine List.ext_getElem (by simp) fun i h₁ h₂ => ?_
  have hi : i < m.workers.length := by simpa using h₁
  have := (h.each i m.workers[i] (List.getElem?_eq_getElem hi)).1.worker
  simpa using this

/-- A report among the results is that of its worker, which did not fail. -/
theorem worker_of_report (h : m.Settled own) {i : Nat} {rep : Report}
    (hr : (i, .ok rep) ∈ m.shared.results) :
    ∃ w, m.workers[i]? = some w ∧ w.report = rep ∧ rep.worker = i ∧
      m.shared.hasFailed i = false := by
  have hi : i < m.workers.length := h.sourced.results _ hr
  have hw : m.workers[i]? = some m.workers[i] := List.getElem?_eq_getElem hi
  obtain ⟨res, h₁, h₂, -⟩ := h.result hw
  have hres : Except.ok rep = res := by
    have := Shared.mem_resultsOf.2 hr
    rwa [h₁, List.mem_singleton] at this
  have hrep : m.workers[i].report = rep := (h₂ rep hres.symm).symm
  refine ⟨m.workers[i], hw, hrep, ?_, ?_⟩
  · rw [← hrep]
    exact (h.each i _ hw).1.worker
  · rw [Shared.hasFailed, h₁, ← hres]
    rfl

/-- A report is one of a worker that did not fail. -/
theorem mem_reports (h : m.Settled own) {rep : Report} :
    rep ∈ m.shared.reports ↔
      ∃ w ∈ m.workers, m.shared.hasFailed w.report.worker = false ∧ w.report = rep := by
  rw [Shared.mem_reports]
  constructor
  · rintro ⟨i, hr⟩
    obtain ⟨w, hw, rfl, hi, hf⟩ := h.worker_of_report hr
    exact ⟨w, List.mem_of_getElem? hw, by rw [hi]; exact hf, rfl⟩
  · rintro ⟨w, hw, hf, rfl⟩
    obtain ⟨i, hi⟩ := List.mem_iff_getElem?.1 hw
    rw [(h.each i w hi).1.worker] at hf
    obtain ⟨res, h₁, h₂, -⟩ := h.result hi
    cases res with
    | error e =>
      rw [Shared.hasFailed, h₁] at hf
      cases hf
    | ok rep =>
      rw [← h₂ rep rfl]
      exact ⟨i, Shared.mem_resultsOf.1 (by simp [h₁])⟩

theorem nodup_results (h : m.Settled own) : (m.shared.results.map Prod.fst).Nodup := by
  refine List.nodup_iff_count_le_one.2 fun i => ?_
  rw [← Shared.length_resultsOf]
  rcases Nat.lt_or_ge i m.workers.length with hi | hi
  · obtain ⟨res, h₁, -⟩ := h.result (List.getElem?_eq_getElem hi)
    rw [h₁]
    exact Nat.le_refl 1
  · have : m.shared.resultsOf i = [] := by
      refine List.eq_nil_iff_forall_not_mem.2 fun res hr => ?_
      have := h.sourced.results _ (Shared.mem_resultsOf.1 hr)
      omega
    simp [this]

/-- No two reports have one number. -/
theorem nodup_reports (h : m.Settled own) : (m.shared.reports.map Report.worker).Nodup := by
  refine h.nodup_results.sublist ?_
  have hnum : ∀ i rep, (i, .ok rep) ∈ m.shared.results → rep.worker = i := fun i rep hr =>
    (h.worker_of_report hr).choose_spec.2.2.1
  unfold Shared.reports
  generalize m.shared.results = rs at hnum
  induction rs with
  | nil => simp
  | cons r rs ih =>
    have ih := ih fun i rep hr => hnum i rep (List.mem_cons_of_mem _ hr)
    obtain ⟨i, res⟩ := r
    cases res with
    | error e => exact ih.cons i
    | ok rep =>
      have hi : rep.worker = i := hnum i rep List.mem_cons_self
      simp only [List.filterMap_cons, Except.toOption, List.map_cons, hi]
      exact ih.cons_cons i

/-- **The summary is that of the workers that did not fail**, in their
order. -/
theorem summary_eq (h : m.Settled own) :
    (Summary.ofReports m.shared.reports).workers =
      (m.workers.filter fun w => !m.shared.hasFailed w.report.worker).map Worker.report := by
  have hsorted : (m.workers.map fun w => w.report.worker).Pairwise (· < ·) := by
    rw [h.map_worker]
    exact List.pairwise_lt_range
  have hlt : ((m.workers.filter fun w => !m.shared.hasFailed w.report.worker).map
      Worker.report).Pairwise fun a b => a.worker < b.worker := by
    rw [List.pairwise_map] at hsorted ⊢
    exact hsorted.sublist List.filter_sublist
  have hperm : m.shared.reports.Perm
      ((m.workers.filter fun w => !m.shared.hasFailed w.report.worker).map Worker.report) := by
    refine (List.perm_ext_iff_of_nodup (List.Nodup.of_map _ h.nodup_reports) ?_).2 fun rep => ?_
    · exact hlt.imp fun hab he => by rw [he] at hab; exact Nat.lt_irrefl _ hab
    · rw [h.mem_reports]
      simp only [List.mem_map, List.mem_filter, Bool.not_eq_true', and_assoc]
  have hle := hlt.imp (S := fun a b : Report => a.worker ≤ b.worker) Nat.le_of_lt
  refine List.Perm.eq_of_pairwise ?_ ?_ hle ((List.mergeSort_perm _ _).trans hperm)
  · intro a b ha hb hab hba
    have ha' : a ∈ m.shared.reports := (List.mergeSort_perm _ _).subset ha
    have hb' : b ∈ m.shared.reports := hperm.symm.subset hb
    exact List.inj_on_of_nodup_map h.nodup_reports ha' hb' (Nat.le_antisymm hab hba)
  · have hsort : ((Summary.ofReports m.shared.reports).workers).Pairwise
        fun a b => decide (a.worker ≤ b.worker) = true := by
      refine List.pairwise_mergeSort ?_ ?_ m.shared.reports
      · intro a b c hab hbc
        simp only [decide_eq_true_eq] at *
        omega
      · intro a b
        simp only [Bool.or_eq_true, decide_eq_true_eq]
        omega
    exact hsort.imp fun hab => by simpa using hab

/-- The numbers in the summary are those of the workers that did not
fail. -/
theorem map_worker_summary (h : m.Settled own) :
    (Summary.ofReports m.shared.reports).workers.map Report.worker =
      (List.range m.workers.length).filter fun i => !m.shared.hasFailed i := by
  rw [h.summary_eq, ← h.map_worker, List.filter_map, List.map_map]
  rfl

/-- Each report counts the records taken from its worker. -/
theorem records_summary (h : m.Settled own) :
    ∀ rep ∈ (Summary.ofReports m.shared.reports).workers,
      rep.records = (m.shared.recordsFrom rep.worker).length := by
  intro rep hr
  rw [h.summary_eq] at hr
  obtain ⟨w, hw, rfl⟩ := List.mem_map.1 hr
  obtain ⟨i, hi⟩ := List.mem_iff_getElem?.1 (List.mem_filter.1 hw).1
  obtain ⟨hb, ha⟩ := h.each i w hi
  rw [hb.worker]
  exact ha.records

end Settled

end Machine

/-! ## Sums of records -/

namespace Shared

theorem length_filter_mem_cons {i : Nat} {is : List Nat} (hi : i ∉ is) (ds : List Delivery) :
    (ds.filter fun d => d.worker ∈ i :: is).length =
      (ds.filter fun d => d.worker == i).length + (ds.filter fun d => d.worker ∈ is).length := by
  induction ds with
  | nil => rfl
  | cons d ds ih =>
    by_cases hd : d.worker = i
    · have : d.worker ∉ is := by rwa [hd]
      simp only [List.filter_cons, hd, List.mem_cons_self, decide_true, if_true, beq_self_eq_true,
        List.length_cons, hi, decide_false, Bool.false_eq_true, if_false, ih]
      omega
    · by_cases hm : d.worker ∈ is
      · simp only [List.filter_cons, List.mem_cons, hd, hm, or_true, decide_true, if_true,
          beq_iff_eq, if_false, List.length_cons]
        simp only [List.mem_cons] at ih
        omega
      · simpa [List.filter_cons, hd, hm] using ih

/-- The counts of reports of different workers come to the number of
records taken from these workers. -/
theorem total_records {reps : List Report} (hn : (reps.map Report.worker).Nodup)
    (hc : ∀ rep ∈ reps, rep.records = (sh.recordsFrom rep.worker).length) :
    Summary.total Report.records reps =
      (sh.delivered.toList.filter fun d => d.worker ∈ reps.map Report.worker).length := by
  induction reps with
  | nil => simp [Summary.total]
  | cons rep reps ih =>
    rw [List.map_cons, List.nodup_cons] at hn
    have ih := ih hn.2 fun rep hr => hc rep (List.mem_cons_of_mem _ hr)
    rw [Summary.total, ih, hc rep List.mem_cons_self, List.map_cons,
      length_filter_mem_cons hn.1, recordsFrom, List.length_map]

theorem recordsFrom_eq_nil_iff {i : Nat} :
    sh.recordsFrom i = [] ↔ ∀ d ∈ sh.delivered.toList, d.worker ≠ i := by
  simp [recordsFrom, List.filter_eq_nil_iff]

end Shared

namespace Machine.Settled

/-- A worker that failed is one of the run. -/
theorem lt_of_hasFailed (h : m.Settled own) {i : Nat} (hf : m.shared.hasFailed i = true) :
    i < m.workers.length := by
  obtain ⟨e, he⟩ := Shared.hasFailed_eq_true_iff.1 hf
  exact h.sourced.results _ he

/-- The summary is missing no worker just when none failed. -/
theorem map_worker_summary_eq_range_iff (h : m.Settled own) :
    (Summary.ofReports m.shared.reports).workers.map Report.worker =
        List.range m.workers.length ↔ ∀ i, m.shared.hasFailed i = false := by
  rw [h.map_worker_summary, List.filter_eq_self]
  constructor
  · intro hall i
    by_contra hc
    have hf : m.shared.hasFailed i = true := by simpa using hc
    have := hall i (List.mem_range.2 (h.lt_of_hasFailed hf))
    simp [hf] at this
  · intro hall i _
    simp [hall i]

/-- It is missing no record just when the workers that failed delivered
none. -/
theorem records_summary_eq_size_iff (h : m.Settled own) :
    (Summary.ofReports m.shared.reports).records = m.shared.delivered.size ↔
      ∀ i, m.shared.hasFailed i = true → m.shared.recordsFrom i = [] := by
  have hn : ((Summary.ofReports m.shared.reports).workers.map Report.worker).Nodup := by
    rw [h.map_worker_summary]
    exact List.nodup_range.filter _
  rw [Summary.records, Shared.total_records hn h.records_summary, h.map_worker_summary,
    ← Array.length_toList, List.length_filter_eq_length_iff]
  constructor
  · intro hall i hi
    refine Shared.recordsFrom_eq_nil_iff.2 fun d hd hdi => ?_
    have := hall d hd
    simp [hdi, hi] at this
  · intro hall d hd
    have hlt := h.sourced.delivered d hd
    have hf : m.shared.hasFailed d.worker = false := by
      by_contra hc
      exact Shared.recordsFrom_eq_nil_iff.1 (hall d.worker (by simpa using hc)) d hd rfl
    simp [hlt, hf]

end Machine.Settled

/-! ## The summary -/

/-- A run that is over has settled, and ended as its state tells. -/
theorem Ingestion.settled_of_outcome (hg : ofSession c s selected = .ok g) {service : Service}
    {x : σ} {es : List (Event α)} {out : Outcome}
    (ho : (g.run service sink x es).outcome? = some out) :
    (g.run service sink x es).Settled g.own ∧ (g.run service sink x es).shared.conclude = out := by
  obtain ⟨heach, hsource⟩ := accounts hg service sink x es
  rw [Machine.outcome?] at ho
  split at ho
  · rename_i hleft
    exact ⟨⟨heach, hsource, hleft⟩, Option.some.inj ho⟩
  · cases ho

/-- A run that did not fail ends with the summary of its reports. -/
theorem Shared.eq_ofReports_of_conclude {summary : Summary}
    (h : sh.conclude.result = .ok summary) : summary = Summary.ofReports sh.reports := by
  rw [conclude] at h
  split at h
  · exact (Except.ok.inj h).symm
  · split at h
    · cases h
    · exact (Except.ok.inj h).symm

/-- A run that all workers have left, that was not cancelled and has no
failure to tell of is completed. -/
theorem Machine.outcome?_eq_completed (hleft : m.allLeft = true)
    (hc : m.shared.run.wasCancelled = false) (hf : m.shared.failure? = none) :
    m.outcome? = some (.completed (.ofReports m.shared.reports)) := by
  simp [outcome?, hleft, Shared.conclude, hc, hf]

/-- One that has a failure to tell of failed. -/
theorem Machine.outcome?_eq_failed {e : Failure} (hleft : m.allLeft = true)
    (hc : m.shared.run.wasCancelled = false) (hf : m.shared.failure? = some e) :
    m.outcome? = some (.failed e) := by
  simp [outcome?, hleft, Shared.conclude, hc, hf]

/-- In a run that was completed no worker failed. -/
theorem Shared.hasFailed_eq_false_of_conclude {summary : Summary}
    (h : sh.conclude = .completed summary) (i : Nat) : sh.hasFailed i = false := by
  rw [conclude] at h
  split at h
  · cases h
  · split at h
    · cases h
    · rename_i hnone
      exact failure?_eq_none_iff.1 hnone i

/-- The failure a run is said to have ended with is one that a worker left
with. -/
theorem Shared.exists_of_conclude_failed {e : Failure} (h : sh.conclude = .failed e) :
    ∃ i, (i, .error e) ∈ sh.results := by
  rw [conclude] at h
  split at h
  · cases h
  · split at h
    · rename_i e' he
      obtain rfl : e' = e := by simpa using h
      obtain ⟨⟨i, res⟩, hres, hr⟩ := List.exists_of_findSome?_eq_some he
      cases res with
      | ok rep => cases hr
      | error e =>
        obtain rfl := Option.some.inj hr
        exact ⟨i, hres⟩
    · cases h

/-- **What the summary of a run tells.** It holds one report for each worker
that did not fail, in the order of the workers, and each report counts the
records the sink took from its worker. It is missing no worker just when
none failed, and no record just when those that failed delivered none. In
a run that was completed no worker failed. -/
theorem summary_of_outcome (hg : Ingestion.ofSession c s selected = .ok g) {service : Service}
    {x : σ} {es : List (Event α)} {out : Outcome} {summary : Summary}
    (ho : (g.run service sink x es).outcome? = some out) (hs : out.result = .ok summary) :
    summary.workers.map Report.worker =
        (List.range c.parallelism.toNat).filter
          (fun i => !(g.run service sink x es).shared.hasFailed i) ∧
      (∀ rep ∈ summary.workers,
        rep.records = ((g.run service sink x es).shared.recordsFrom rep.worker).length) ∧
      (summary.workers.map Report.worker = List.range c.parallelism.toNat ↔
        ∀ i, (g.run service sink x es).shared.hasFailed i = false) ∧
      (summary.records = (g.run service sink x es).shared.delivered.size ↔
        ∀ i, (g.run service sink x es).shared.hasFailed i = true →
          (g.run service sink x es).shared.recordsFrom i = []) ∧
      (out = .completed summary → ∀ i, (g.run service sink x es).shared.hasFailed i = false) := by
  rw [← Ingestion.length_workers_run hg service sink x es]
  obtain ⟨hset, rfl⟩ := Ingestion.settled_of_outcome hg ho
  obtain rfl := Shared.eq_ofReports_of_conclude hs
  exact ⟨hset.map_worker_summary, hset.records_summary, hset.map_worker_summary_eq_range_iff,
    hset.records_summary_eq_size_iff, Shared.hasFailed_eq_false_of_conclude⟩

/-- A batch is taken, the run is cancelled as its worker asks for the next,
and that call fails: the worker and its record are missing. -/
theorem summary_of_failure_behind_cancel :
    let service : Service :=
      { scripts := [(⟨"a"⟩, [⟨.avro, 1, [10]⟩])], faults := [(⟨"a"⟩, [.afterBatches 1 .internal])] }
    let es : List (Event Empty) :=
      List.replicate 6 (.step 0) ++ .cancel :: List.replicate 3 (.step 0) ++ [.step 1, .step 1]
    let m := Sample.ingestion.run service Sink.collecting () es
    let summary : Summary := ⟨[{ worker := 1 }]⟩
    m.outcome? = some (.cancelled summary) ∧
      (¬ ∀ i, m.shared.hasFailed i = false) ∧
      summary.records ≠ m.shared.delivered.size := by
  intro service es m summary
  have ho : m.outcome? = some (.cancelled summary) := by decide +kernel
  obtain ⟨-, -, hworkers, -, -⟩ := summary_of_outcome Sample.ofSession_session ho rfl
  refine ⟨ho, fun h => ?_, by decide +kernel⟩
  exact absurd (hworkers.2 h) (by decide)

end Intake
