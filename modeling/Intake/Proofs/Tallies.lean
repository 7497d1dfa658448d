import Intake.Proofs.Resumption
/-!
# Batches are counted as they are handed out

A worker counts the batches it gets from its readers, so that its count
and the number of a batch it cannot decode include the ones that were
handed out again (`Worker.Tallies`). The counts are those of the scripts
when every batch has rows, and in general those of the scripts retold
(`batches_handed_out_again`).
-/

namespace Intake

variable {σ α : Type} {p : Plan} {sink : Sink σ α} {sh sh' : Shared σ} {w w' : Worker}
variable {src : Service} {own : List SplitId} {i n k : Nat} {r r' : SplitReader}
variable {running : Bool} {x : SplitId}

/-! ## What a worker counts -/

/-- What a reader has handed out in the end of a split: all of its batches,
retold. -/
def ToldOf (src : Service) (x : SplitId) (ys : List Batch) : Prop :=
  Retold (src.batchesOf x) (src.batchesOf x) ys

/-- The number told with a batch that cannot be decoded is that of the
batches of its split handed out before. -/
def Failure.Numbers (p : Plan) (src : Service) (f : Failure) : Prop :=
  ∀ x k e, f = .decode x k e → ∃ pre b post ys, src.batchesOf x = pre ++ b :: post ∧
    Retold (src.batchesOf x) pre ys ∧ ys.length = k ∧ p.codec.decode p.layout b = .error e

namespace Worker

/-- A worker in the middle of a split of which its reader has handed out
`n` batches, `k` of them counted. -/
def Midway (src : Service) (own : List SplitId) (w : Worker) (r : SplitReader) (n k : Nat) : Prop :=
  ∃ done told ys, own = done ++ r.split :: w.splits ∧ List.Forall₂ (ToldOf src) done told ∧
    r.Hands src ys ∧ ys.length = n ∧ (∀ i, r.stage ≠ .done i) ∧
    w.report.batches = told.flatten.length + k

/-- What the count of batches of a worker is, by where it stands; nothing is
said of a worker that panicked or was refused a record, nor once the run has
stopped of one that is through. -/
def HasTallied (p : Plan) (src : Service) (own : List SplitId) (w : Worker) (running : Bool) :
    Prop :=
  match w.stage with
  | .between => ∃ done told, own = done ++ w.splits ∧ List.Forall₂ (ToldOf src) done told ∧
      w.report.batches = told.flatten.length
  | .reading r k => w.Midway src own r k k
  | .emitting r k _ _ _ => w.Midway src own r (k + 1) k
  | .refused _ | .panicked => True
  | .failing f => f.Numbers p src
  | .leaving (.error f) => running = false ∧ f.Numbers p src
  | .leaving (.ok _) | .left => running = true → ∃ told, List.Forall₂ (ToldOf src) own told ∧
      w.report.batches = told.flatten.length

/-- What a worker has counted for its number, while the service serves what
it served at the start. -/
structure Tallies (p : Plan) (src : Service) (own : List SplitId) (i : Nat) (w : Worker)
    (sh : Shared σ) : Prop where
  scripts : sh.service.scripts = src.scripts
  tallied : w.HasTallied p src own sh.run.isRunning
  failures : ∀ f, .error f ∈ sh.resultsOf i → f.Numbers p src

theorem Tallies.start (hw : w = Worker.start i own) (hs : sh.service.scripts = src.scripts)
    (hr : sh.resultsOf i = []) : w.Tallies p src own i sh := by
  subst hw
  exact ⟨hs, ⟨[], [], rfl, .nil, rfl⟩, by simp [hr]⟩

theorem Tallies.apart (h : w.Tallies p src own i sh) (ha : sh.Apart i own sh') :
    w.Tallies p src own i sh' := by
  have hstopped := ha.stopped
  refine ⟨ha.scripts.trans h.scripts, ?_, by rw [ha.results]; exact h.failures⟩
  have ht := h.tallied
  unfold HasTallied at ht ⊢
  split
  all_goals simp_all
  all_goals exact fun hr => ht (ha.run hr)

/-- The step of a reader in a worker in the middle of a split. -/
theorem Midway.of_moves {o : ReadOptions} {s s' : Service} {g : Signal}
    (hrows : ∀ x ∈ own, rowTotal (src.batchesOf x) < UInt64.size) (hs : s.scripts = src.scripts)
    (h : w.Midway src own r n k) (hm : r.Moves o running s r' s' g)
    (hlast : g.isLast = false) : w.Midway src own r' (n + g.batch?.toList.length) k := by
  obtain ⟨done, told, ys, hown, htold, hhands, rfl, -, hcount⟩ := h
  have hx : r.split ∈ own := by simp [hown]
  refine ⟨done, told, ys ++ g.batch?.toList, ?_, htold, hhands.of_moves hs (hrows _ hx) hm,
    List.length_append, hm.live hlast, hcount⟩
  rw [hm.split_eq]
  exact hown

/-- A failure that a reader tells is not one of a batch. -/
theorem numbers_of_failed {o : ReadOptions} {s s' : Service} {f : Failure}
    (hm : r.Moves o running s r' s' (.failed f)) : f.Numbers p src := by
  cases hm with
  | fail hr hf hb => exact nofun

/-- **A worker counts the batches handed out to it** by its own steps. -/
theorem Tallies.of_moves (hrows : ∀ x ∈ own, rowTotal (src.batchesOf x) < UInt64.size)
    (h : w.Tallies p src own i sh) (hm : w.Moves p sink sh w' sh') :
    w'.Tallies p src own i sh' := by
  obtain ⟨hs, ht, hfail⟩ := h
  refine ⟨hm.service_eq.1.trans hs, ?_, ?_⟩
  · unfold HasTallied at ht
    cases hm with
    | through hw hr =>
      simp only [hw] at ht
      obtain ⟨done, told, hown, htold, hcount⟩ := ht
      intro hrun
      rcases hr with hr | hr
      · rw [hr, List.append_nil] at hown
        exact ⟨told, hown ▸ htold, hcount⟩
      · rw [hr] at hrun
        cases hrun
    | take hw hx hrun =>
      simp only [hw] at ht
      obtain ⟨done, told, hown, htold, hcount⟩ := ht
      rw [hx] at hown
      exact ⟨done, told, [], hown, htold, .start _, rfl, by simp, hcount⟩
    | read hw hr =>
      simp only [hw] at ht
      exact ht.of_moves hrows hs hr rfl
    | decode hw hr hdec =>
      simp only [hw] at ht
      exact ht.of_moves hrows hs hr rfl
    | undecoded hw hr hdec =>
      simp only [hw] at ht
      obtain ⟨done, told, ys, hown, -, hhands, hlen, -⟩ := ht
      obtain ⟨pre, post, hpre, hretold⟩ := hhands.front hs hr
      rintro x k e ⟨⟩
      rw [hr.split_eq]
      exact ⟨pre, _, post, ys, hpre, hretold, hlen, hdec⟩
    | unread hw hr => exact numbers_of_failed hr
    | interrupted hw hr hi =>
      simp only [hw] at ht
      obtain ⟨-, -, -, -, -, -, -, hlive, -⟩ := ht
      intro hrun
      change sh.run.isRunning = true at hrun
      rw [hr.running_eq_false hlive hi] at hrun
      cases hrun
    | finish hw hr hi =>
      simp only [hw] at ht
      obtain ⟨done, told, ys, hown, htold, hhands, hlen, hlive, hcount⟩ := ht
      rename_i r r' batch s'
      obtain ⟨s₁, st, ho, hn⟩ := hr.exists_end hlive hi
      have hall : ToldOf src r.split ys := hhands.ended hs ho hn
      refine ⟨done ++ [r.split], told ++ [ys], by simpa using hown,
        List.rel_append htold (.cons hall .nil), ?_⟩
      change w.report.batches = _
      rw [hcount, List.flatten_append, List.flatten_singleton, List.length_append, hlen]
    | panic hw hr => trivial
    | emitted hw =>
      simp only [hw] at ht
      obtain ⟨done, told, ys, hown, htold, hhands, hlen, hlive, hcount⟩ := ht
      refine ⟨done, told, ys, hown, htold, hhands, hlen, hlive, ?_⟩
      rw [← Nat.add_assoc, ← hcount]
    | accept hw ho =>
      simp only [hw] at ht
      exact ht
    | refuse hw ho => trivial
    | cancel hw => exact fun hrun => by simp [close] at hrun
    | fail hw =>
      simp only [hw] at ht
      exact ⟨by simp, ht⟩
    | leave hw =>
      rename_i res
      intro hrun
      change sh.run.isRunning = true at hrun
      simp only [hw] at ht
      cases res with
      | ok rep => exact ht hrun
      | error f =>
        rw [ht.1] at hrun
        cases hrun
  · cases hm with
    | leave hw =>
      rename_i res
      intro f hf
      rcases List.mem_append.1 (Shared.mem_resultsOf.1 hf) with hf | hf
      · exact hfail f (Shared.mem_resultsOf.2 hf)
      · obtain ⟨-, rfl⟩ := Prod.mk.inj (List.mem_singleton.1 hf)
        unfold HasTallied at ht
        simp only [hw] at ht
        exact ht.2
    | _ => exact hfail

end Worker

/-! ## What a run counts -/

variable {c : EngineConfig} {t : Session} {selected : List String} {g : Ingestion}
variable {service : Service}

/-- Workers count the batches handed out to them throughout a run. -/
theorem Ingestion.tallies (hg : ofSession c t selected = .ok g)
    (hrows : ∀ z ∈ t.splits, rowTotal (service.batchesOf z) < UInt64.size) (sink : Sink σ α)
    (y : σ) (es : List (Event α)) :
    (g.run service sink y es).Each fun i w sh =>
      w.Belongs i (g.own i) ∧ w.Tallies g.plan service (g.own i) i sh := by
  refine Machine.each_run (fun i j => disjoint_own hg) (belongs_start hg service y) ?_
    (fun _ h hm => h.of_moves (fun z hz => hrows z ((own_sublist hg _).subset hz)) hm)
    (fun _ h ha => h.apart ha) es
  intro i w hw
  exact .start (start_workers hg service y hw).2 rfl rfl

/-- Batches that all have rows are told as they are in the scripts. -/
theorem eq_map_of_rows {told : List (List Batch)} (h : List.Forall₂ (ToldOf src) own told)
    (hb : ∀ x ∈ own, ∀ b ∈ src.batchesOf x, b.rowCount ≠ 0) : told = own.map src.batchesOf := by
  induction h with
  | nil => rfl
  | cons hx htold ih =>
    rw [List.forall_mem_cons] at hb
    rw [List.map_cons, hx.eq_of_rows hb.1, ih hb.2]

/-- **Batches without rows are handed out again, and counted again.** What
a reader hands out is at every moment the batches of its split retold, all
of them once it has come to its end; and it begins the script, whatever the
service, the faults and the options, just when every batch of the script
has rows. The number told with a batch that cannot be decoded is that of
the batches of its split handed out before, and the report of a worker in
a run that is completed counts all batches handed out to it; where every
batch has rows these are the numbers of the scripts. -/
theorem batches_handed_out_again (hg : Ingestion.ofSession c t selected = .ok g)
    (hrows : ∀ z ∈ t.splits, rowTotal (service.batchesOf z) < UInt64.size)
    (sink : Sink σ α) (y : σ) (es : List (Event α)) :
    (∀ (x : SplitId) (bs : List Batch), rowTotal bs < UInt64.size →
      (∀ src o flags, src.script? x = some bs →
        ∃ pre, Retold bs pre ((SplitReading.start x src).run o flags).batches ∧
          (((SplitReading.start x src).run o flags).isThrough = true → pre = bs)) ∧
      ((∀ src o flags, src.script? x = some bs →
        ((SplitReading.start x src).run o flags).batches <+: bs ∧
          (((SplitReading.start x src).run o flags).isThrough = true →
            ((SplitReading.start x src).run o flags).batches = bs)) ↔
        ∀ b ∈ bs, b.rowCount ≠ 0)) ∧
    (∀ i x k e, (i, .error (.decode x k e)) ∈ (g.run service sink y es).shared.results →
      ∃ pre b post ys, service.batchesOf x = pre ++ b :: post ∧
        Retold (service.batchesOf x) pre ys ∧ ys.length = k ∧
        g.plan.codec.decode g.plan.layout b = .error e ∧
        ((∀ b ∈ service.batchesOf x, b.rowCount ≠ 0) → k = pre.length)) ∧
    ∀ summary, (g.run service sink y es).outcome? = some (.completed summary) →
      ∀ rep ∈ summary.workers,
        ∃ told, List.Forall₂ (ToldOf service) (g.own rep.worker) told ∧
          rep.batches = told.flatten.length ∧
          ((∀ x ∈ g.own rep.worker, ∀ b ∈ service.batchesOf x, b.rowCount ≠ 0) →
            told = (g.own rep.worker).map service.batchesOf) := by
  have htallies := Ingestion.tallies hg hrows sink y es
  refine ⟨fun x bs hbs => ⟨fun src o flags hx => SplitReading.retold hx hbs o flags,
    SplitReading.begins_iff x hbs⟩, ?_, ?_⟩
  · intro i x k e hmem
    have hi := (Ingestion.accounts hg service sink y es).2.results _ hmem
    obtain ⟨-, htally⟩ := htallies i _ (List.getElem?_eq_getElem hi)
    obtain ⟨pre, b, post, ys, hpre, hretold, hlen, hdec⟩ :=
      htally.failures _ (Shared.mem_resultsOf.2 hmem) x k e rfl
    refine ⟨pre, b, post, ys, hpre, hretold, hlen, hdec, fun hb => ?_⟩
    rw [← hlen, hretold.eq_of_rows hb]
  · intro summary ho rep hrep
    obtain ⟨hset, hconclude⟩ := Ingestion.settled_of_outcome hg ho
    have htell : (g.run service sink y es).TellsFailure := Machine.tellsFailure_run rfl es
    have hrun := Machine.isRunning_of_completed hset htell hconclude
    obtain rfl := Shared.eq_ofReports_of_conclude
      (show (g.run service sink y es).shared.conclude.result = .ok summary by rw [hconclude]; rfl)
    obtain ⟨i, hi⟩ := Shared.mem_reports.1 (List.mem_mergeSort.1 hrep)
    obtain ⟨w, hw, rfl, hworker, -⟩ := hset.worker_of_report hi
    have ht := (htallies i w hw).2.tallied
    rw [Worker.HasTallied, hset.stage_eq hw] at ht
    obtain ⟨told, htold, hcount⟩ := ht hrun
    rw [hworker]
    exact ⟨told, htold, hcount, fun hb => eq_map_of_rows htold hb⟩

/-- The batch without rows of split `a` is handed out three times, and the
report counts five batches where the script has three. -/
theorem five_of_three_batches :
    let m := Sample.ingestion.run Sample.faulty Sink.collecting () Sample.turns
    let z := (SplitReading.start ⟨"a"⟩ Sample.faulty).run {} (List.replicate 30 true)
    z.batches = [⟨.avro, 1, [10]⟩, ⟨.avro, 0, []⟩, ⟨.avro, 0, []⟩, ⟨.avro, 0, []⟩,
        ⟨.avro, 1, [12]⟩] ∧
      Retold (Sample.faulty.batchesOf ⟨"a"⟩) (Sample.faulty.batchesOf ⟨"a"⟩) z.batches ∧
      m.outcome? = some (.completed (.ofReports [⟨0, 1, 5, 2, 3⟩, ⟨1, 1, 1, 1, 0⟩])) ∧
      ∃ told, List.Forall₂ (ToldOf Sample.faulty) [⟨"a"⟩] told ∧ told.flatten.length = 5 := by
  intro m z
  have hrows : ∀ z ∈ Sample.session.splits, rowTotal (Sample.faulty.batchesOf z) < UInt64.size := by
    decide
  have hreports : m.shared.reports = [⟨0, 1, 5, 2, 3⟩, ⟨1, 1, 1, 1, 0⟩] := by decide +kernel
  have ho : m.outcome? = some (.completed (.ofReports m.shared.reports)) :=
    Machine.outcome?_eq_completed (by decide +kernel) (by decide +kernel) (by decide +kernel)
  obtain ⟨hreading, -, hcount⟩ := batches_handed_out_again Sample.ofSession_session hrows
    Sink.collecting () Sample.turns
  refine ⟨by decide +kernel, ?_, by rw [ho, hreports], ?_⟩
  · obtain ⟨pre, hretold, hall⟩ := (hreading ⟨"a"⟩ _ (hrows _ List.mem_cons_self)).1
      Sample.faulty {} (List.replicate 30 true) rfl
    obtain rfl := hall (by decide +kernel)
    exact hretold
  · obtain ⟨told, htold, hbatches, -⟩ := hcount _ ho ⟨0, 1, 5, 2, 3⟩
      (List.mem_mergeSort.2 (by rw [hreports]; exact List.mem_cons_self))
    exact ⟨told, htold, hbatches.symm⟩

end Intake
