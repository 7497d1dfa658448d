import Intake.Run.Counters
import Intake.Run.Sink
import Intake.Run.SplitReader
/-!
# Workers

A worker reads its splits in order, decodes each batch and offers its
records to the sink one by one. Workers share the service, the sink, the
counters and the state of the run, and move in steps, each of which
touches what is shared at most at one point. A batch is decoded as a
whole before the first of its records is offered. A sink that refuses a
record cancels the run; a failure stops it. A worker whose reader panics
drops what it holds and is gone: it stops nobody and reports nothing.

The main statement: a worker that moves gets nearer to its end
(`effort_step_lt`), so that a worker left to itself leaves the run,
panics, or comes to wait for the sink.
-/

namespace Intake

/-- What a worker got through. -/
structure Report where
  worker : Nat
  splits : Nat := 0
  batches : Nat := 0
  records : Nat := 0
  retries : Nat := 0
  deriving DecidableEq, Repr

/-- A record that the sink has taken, and where it comes from. -/
structure Delivery where
  worker : Nat
  split : SplitId
  record : Record
  deriving DecidableEq, Repr

/-- What the workers of a run go by. -/
structure Plan where
  options : ReadOptions
  codec : Codec
  layout : Layout

/-- What the workers of a run share, the sink being in a state `σ`. -/
structure Shared (σ : Type) where
  service : Service
  run : RunState := .running
  sink : σ
  /-- the records taken by the sink, in the order it took them -/
  delivered : Array Delivery := #[]
  counters : Counters := {}
  /-- how the workers that have left ended, in the order they left -/
  results : List (Nat × Except Failure Report) := []

/-- Where a worker stands. -/
inductive WorkerStage where
  /-- about to take up its next split -/
  | between
  /-- reading batch number `batch` of a split -/
  | reading (r : SplitReader) (batch : Nat)
  /-- offering the records left of a batch of `rows` rows and `bytes` bytes -/
  | emitting (r : SplitReader) (batch : Nat) (rest : List Record) (rows bytes : Nat)
  /-- about to cancel the run, a record having been refused -/
  | refused (r : SplitReader)
  /-- about to stop the run -/
  | failing (e : Failure)
  /-- about to leave -/
  | leaving (result : Except Failure Report)
  | left
  /-- gone without a result -/
  | panicked

/-- A worker: the splits it has not taken up, what it got through, and
where it stands. -/
structure Worker where
  splits : List SplitId
  report : Report
  stage : WorkerStage := .between

namespace Worker

variable {σ α : Type}

/-- Worker number `index` at its start. -/
def start (index : Nat) (splits : List SplitId) : Worker := ⟨splits, { worker := index }, .between⟩

/-- Whether the worker has left the run with a result. -/
def hasLeft (w : Worker) : Bool := w.stage matches .left

def hasPanicked (w : Worker) : Bool := w.stage matches .panicked

/-- Whether the worker moves no more. -/
def isGone (w : Worker) : Bool := w.hasLeft || w.hasPanicked

theorem stage_of_hasLeft {w : Worker} (h : w.hasLeft = true) : w.stage = .left := by
  rw [hasLeft] at h
  split at h
  · assumption
  · cases h

theorem stage_of_hasPanicked {w : Worker} (h : w.hasPanicked = true) : w.stage = .panicked := by
  rw [hasPanicked] at h
  split at h
  · assumption
  · cases h

theorem stage_of_isGone {w : Worker} (h : w.isGone = true) :
    w.stage = .left ∨ w.stage = .panicked :=
  (Bool.or_eq_true _ _ ▸ h).imp stage_of_hasLeft stage_of_hasPanicked

/-- The report once a reader's retries are counted. -/
def account (w : Worker) (r : SplitReader) : Report :=
  { w.report with retries := w.report.retries + r.retries }

/-- What is shared once a reader's retries are counted and its stream is
given back. -/
def close (r : SplitReader) (sh : Shared σ) : Shared σ :=
  { sh with
    service := sh.service.releaseIf r.stream
    counters := sh.counters.addRetries (UInt64.ofNat r.retries) }

/-- The worker takes up its next split, or is through. -/
def stepBetween (w : Worker) (sh : Shared σ) : Worker :=
  match w.splits with
  | [] => { w with stage := .leaving (.ok w.report) }
  | s :: ss =>
    if sh.run.isRunning then { w with splits := ss, stage := .reading { split := s } 0 }
    else { w with stage := .leaving (.ok w.report) }

/-- The reader moves, and a batch it yields is decoded. -/
def stepReading (p : Plan) (w : Worker) (r : SplitReader) (batch : Nat) (sh : Shared σ) :
    Worker × Shared σ :=
  match r.step p.options sh.run.isRunning sh.service with
  | (r, service, .working) => ({ w with stage := .reading r batch }, { sh with service })
  | (r, service, .batch b) =>
    match p.codec.decode p.layout b with
    | .ok records =>
      ({ w with stage := .emitting r batch records records.length b.data.length },
        { sh with service })
    | .error e =>
      ({ w with report := w.account r, stage := .failing (.decode r.split batch e) },
        close r { sh with service })
  | (r, service, .failed e) =>
    ({ w with report := w.account r, stage := .failing e }, close r { sh with service })
  | (r, service, .ended) =>
    let report := w.account r
    let sh := close r { sh with service }
    if r.interrupted then ({ w with report, stage := .leaving (.ok report) }, sh)
    else
      ({ w with report := { report with splits := report.splits + 1 }, stage := .between },
        { sh with counters := sh.counters.addSplit })
  | (r, service, .panicked) =>
    ({ w with stage := .panicked }, { sh with service := service.releaseIf r.stream })

/-- One step of a worker, `none` if it is gone or waits for the sink. -/
def step (p : Plan) (sink : Sink σ α) (w : Worker) (sh : Shared σ) : Option (Worker × Shared σ) :=
  match w.stage with
  | .between => some (w.stepBetween sh, sh)
  | .reading r batch => some (w.stepReading p r batch sh)
  | .emitting r batch [] rows bytes =>
    some ({ w with
        report := { w.report with batches := w.report.batches + 1 }
        stage := .reading r (batch + 1) },
      { sh with
        counters := sh.counters.addBatch (UInt64.ofNat rows) (UInt64.ofNat bytes) })
  | .emitting r batch (x :: rest) rows bytes =>
    match sink.offer sh.sink sh.run.isRunning w.report.worker x with
    | .accepted s =>
      some ({ w with
          report := { w.report with records := w.report.records + 1 }
          stage := .emitting r batch rest rows bytes },
        { sh with sink := s, delivered := sh.delivered.push ⟨w.report.worker, r.split, x⟩ })
    | .refused s => some ({ w with stage := .refused r }, { sh with sink := s })
    | .full => none
  | .refused r =>
    let report := w.account r
    some ({ w with report, stage := .leaving (.ok report) },
      close r { sh with run := sh.run.cancel })
  | .failing e =>
    some ({ w with stage := .leaving (.error e) }, { sh with run := sh.run.fail })
  | .leaving result =>
    some ({ w with stage := .left },
      { sh with results := sh.results ++ [(w.report.worker, result)] })
  | .left | .panicked => none

/-- A worker that is gone moves no more. -/
theorem step_of_isGone {w : Worker} (h : w.isGone = true) (p : Plan) (sink : Sink σ α)
    (sh : Shared σ) : w.step p sink sh = none := by
  rcases stage_of_isGone h with h | h <;> simp [step, h]

/-! ## Getting nearer to the end -/

/-- How many batches a reader may still get from the stream it has, or from
one it would open. -/
def stock (s : Service) (r : SplitReader) : Nat :=
  match r.stream with
  | some stream => stream.remaining.length
  | none => ((s.script? r.split).getD []).length + 1

/-- How far a worker is from its end: what is left of its work as a whole,
of the retries on its split, of the batches of its stream, and of the
batch in hand. -/
def effort (o : ReadOptions) (s : Service) (w : Worker) : Nat × Nat × Nat × Nat :=
  match w.stage with
  | .left | .panicked => (0, 0, 0, 0)
  | .leaving _ => (1, 0, 0, 0)
  | .refused _ | .failing _ => (2, 0, 0, 0)
  | .between => (2 * w.splits.length + 3, 0, 0, 0)
  | .reading r _ => (2 * w.splits.length + 4, o.maxRetries.toNat - r.retries, stock s r, r.rank)
  | .emitting r _ rest _ _ =>
    (2 * w.splits.length + 4, o.maxRetries.toNat - r.retries, stock s r, rest.length + 4)

/-- The order in which a worker gets nearer to its end. -/
abbrev Nearer : Nat × Nat × Nat × Nat → Nat × Nat × Nat × Nat → Prop :=
  Prod.Lex (· < ·) (Prod.Lex (· < ·) (Prod.Lex (· < ·) (· < ·)))

section

variable {o : ReadOptions} {r r' : SplitReader} {s s' : Service}

theorem stock_congr (h : s'.scripts = s.scripts) (r : SplitReader) : stock s' r = stock s r := by
  simp [stock, Service.script?, h]

/-- A stream that a call opens holds no more than the script of its split. -/
theorem length_of_read {c : ReadCall} {stream : Stream} (h : s.read c = (s', .ok stream)) :
    stream.remaining.length ≤ ((s.script? c.split).getD []).length := by
  have hs : s.streamFor c (s.faultsOf c.split).head? = .ok stream := by
    unfold Service.read at h
    dsimp only at h
    split at h
    · simp at h
    · rename_i heq
      simp only [Prod.mk.injEq, Except.ok.injEq] at h
      rw [heq, h.2]
  unfold Service.streamFor at hs
  split at hs
  · simp at hs
  · -- no fault on opening: the stream holds what is left of the script
    split at hs
    · simp at hs
    · rename_i batches hb
      dsimp only at hs
      split at hs
      · simp at hs
      · simp only [Except.ok.injEq] at hs
        subst hs
        simpa [hb] using length_skipRows c.offset 0 batches

theorem scripts_pull {stream : Stream} {g : Signal} (h : r.pull o s stream = (r', s', g)) :
    s'.scripts = s.scripts := by
  unfold SplitReader.pull at h
  split at h
  · rename_i e _
    cases hf : r.onFailure o e with
    | mk r₁ g =>
      rw [hf] at h
      simp only [Prod.mk.injEq] at h
      rw [← h.2.1]
      rfl
  · simp only [Prod.mk.injEq] at h
    rw [← h.2.1]
    rfl
  · split at h <;>
    · simp only [Prod.mk.injEq] at h
      rw [← h.2.1]

/-- No step of a reader changes what the service serves. -/
theorem scripts_step {running : Bool} {g : Signal} (h : r.step o running s = (r', s', g)) :
    s'.scripts = s.scripts := by
  unfold SplitReader.step at h
  split at h
  · simp only [Prod.mk.injEq] at h
    rw [← h.2.1]
  · split at h
    · simp only [Prod.mk.injEq] at h
      rw [← h.2.1]
    · simp only [Prod.mk.injEq] at h
      rw [← h.2.1, Service.scripts_releaseIf]
  · split at h
    · simp only [Prod.mk.injEq] at h
      rw [← h.2.1]
    · simp only [Prod.mk.injEq] at h
      rw [← h.2.1, Service.scripts_releaseIf]
  · split at h
    · exact scripts_pull h
    · split at h
      · rename_i s₁ e hc
        cases hf : r.onFailure o e with
        | mk r₁ g =>
          rw [hf] at h
          simp only [Prod.mk.injEq] at h
          rw [← h.2.1, ← Service.scripts_read s (r.call o), hc]
      · rename_i s₁ stream hc
        rw [scripts_pull h, ← Service.scripts_read s (r.call o), hc]

theorem retries_onFailure {e : TransportError} (h : r.onFailure o e = (r', .working)) :
    r.retries < o.maxRetries.toNat ∧ r'.retries = r.retries + 1 := by
  unfold SplitReader.onFailure at h
  split at h
  · rename_i hc
    simp only [Prod.mk.injEq, and_true] at h
    subst h
    exact ⟨hc.2, rfl⟩
  · simp at h

/-- A failure yields no batch. -/
theorem onFailure_ne_batch {e : TransportError} {b : Batch} :
    r.onFailure o e ≠ (r', .batch b) := by
  unfold SplitReader.onFailure
  split <;> simp

theorem retries_pull {stream : Stream} (h : r.pull o s stream = (r', s', .working)) :
    r.retries < o.maxRetries.toNat ∧ r'.retries = r.retries + 1 := by
  unfold SplitReader.pull at h
  split at h
  · rename_i e _
    cases hf : r.onFailure o e with
    | mk r₁ g =>
      rw [hf] at h
      simp only [Prod.mk.injEq] at h
      obtain ⟨rfl, -, rfl⟩ := h
      exact retries_onFailure hf
  · simp at h
  · split at h <;> simp at h

/-- A step of a reader that yields nothing uses up a retry, or leaves the
stream as it is and brings the reader nearer to a call. -/
theorem step_working {running : Bool} (h : r.step o running s = (r', s', .working)) :
    (r.retries < o.maxRetries.toNat ∧ r'.retries = r.retries + 1) ∨
      (r'.retries = r.retries ∧ stock s' r' = stock s r ∧ r'.rank < r.rank) := by
  have hs := scripts_step h
  unfold SplitReader.step at h
  split at h
  · simp at h
  · rename_i hr
    split at h
    · simp only [Prod.mk.injEq, and_true] at h
      obtain ⟨rfl, rfl⟩ := h
      exact .inr ⟨rfl, rfl, by simp [SplitReader.rank, hr]⟩
    · simp at h
  · rename_i hr
    split at h
    · simp only [Prod.mk.injEq, and_true] at h
      obtain ⟨rfl, rfl⟩ := h
      exact .inr ⟨rfl, rfl, by simp [SplitReader.rank, hr]⟩
    · simp at h
  · split at h
    · exact .inl (retries_pull h)
    · split at h
      · rename_i e _
        cases hf : r.onFailure o e with
        | mk r₁ g =>
          rw [hf] at h
          simp only [Prod.mk.injEq] at h
          obtain ⟨rfl, -, rfl⟩ := h
          exact .inl (retries_onFailure hf)
      · exact .inl (retries_pull h)

/-- A batch that is taken off a stream shortens it. -/
theorem length_lt_of_next {stream stream' : Stream} {b : Batch}
    (h : stream.next = .ok (some (b, stream'))) :
    stream'.remaining.length < stream.remaining.length := by
  unfold Stream.next at h
  split at h
  · simp at h
  · split at h
    · simp at h
    · rename_i hrem
      simp only [Except.ok.injEq, Option.some.injEq, Prod.mk.injEq] at h
      obtain ⟨-, rfl⟩ := h
      simp [hrem]

theorem stock_pull {stream : Stream} {b : Batch} (h : r.pull o s stream = (r', s', .batch b)) :
    r'.retries = r.retries ∧ stock s' r' < stream.remaining.length := by
  unfold SplitReader.pull at h
  split at h
  · rename_i e _
    cases hf : r.onFailure o e with
    | mk r₁ g =>
      rw [hf] at h
      simp only [Prod.mk.injEq] at h
      obtain ⟨rfl, -, rfl⟩ := h
      exact absurd hf onFailure_ne_batch
  · simp at h
  · rename_i b' stream' hn
    split at h
    · simp only [Prod.mk.injEq, Signal.batch.injEq] at h
      obtain ⟨rfl, rfl, -⟩ := h
      exact ⟨rfl, length_lt_of_next hn⟩
    · simp at h

/-- A batch that a reader yields is off its stock. -/
theorem step_batch {running : Bool} {b : Batch} (h : r.step o running s = (r', s', .batch b)) :
    r'.retries = r.retries ∧ stock s' r' < stock s r := by
  unfold SplitReader.step at h
  split at h
  · simp at h
  · split at h <;> simp at h
  · split at h <;> simp at h
  · split at h
    · rename_i stream hst
      have := stock_pull h
      simpa [stock, hst] using this
    · rename_i hst
      split at h
      · rename_i e _
        cases hf : r.onFailure o e with
        | mk r₁ g =>
          rw [hf] at h
          simp only [Prod.mk.injEq] at h
          obtain ⟨rfl, -, rfl⟩ := h
          exact absurd hf onFailure_ne_batch
      · -- a new stream, of which the first batch is taken at once
        rename_i s₁ stream hc
        have hl := length_of_read hc
        have hp := stock_pull h
        refine ⟨hp.1, ?_⟩
        have : stock s r = ((s.script? r.split).getD []).length + 1 := by simp [stock, hst]
        have hcall : (r.call o).split = r.split := rfl
        rw [hcall] at hl
        omega

end

/-- **A worker that moves gets nearer to its end.** -/
theorem effort_step_lt {p : Plan} {sink : Sink σ α} {w w' : Worker} {sh sh' : Shared σ}
    (h : w.step p sink sh = some (w', sh')) :
    Nearer (w'.effort p.options sh'.service) (w.effort p.options sh.service) := by
  unfold step at h
  split at h
  · -- between splits: one fewer is left, or the worker is about to leave
    rename_i hw
    simp only [Option.some.injEq, Prod.mk.injEq] at h
    obtain ⟨rfl, rfl⟩ := h
    unfold stepBetween
    split
    · rename_i hs
      simp only [effort, hw, hs]
      exact .left _ _ (by simp)
    · rename_i hs
      split <;> (simp only [effort, hw, hs]; exact .left _ _ (by simp only [List.length_cons]; omega))
  · -- reading: the split goes on only by way of a retry or a batch
    rename_i r batch hw
    simp only [Option.some.injEq] at h
    unfold stepReading at h
    split at h
    · rename_i r₁ s₁ hr
      simp only [Prod.mk.injEq] at h
      obtain ⟨rfl, rfl⟩ := h
      simp only [effort, hw]
      refine .right _ ?_
      rcases step_working hr with ⟨h₁, h₂⟩ | ⟨h₁, h₂, h₃⟩
      · exact .left _ _ (by omega)
      · rw [h₁, h₂]
        exact .right _ (.right _ h₃)
    · rename_i r₁ s₁ b hr
      split at h
      · simp only [Prod.mk.injEq] at h
        obtain ⟨rfl, rfl⟩ := h
        obtain ⟨h₁, h₂⟩ := step_batch hr
        simp only [effort, hw, h₁]
        exact .right _ (.right _ (.left _ _ h₂))
      · simp only [Prod.mk.injEq] at h
        obtain ⟨rfl, rfl⟩ := h
        simp only [effort, hw]
        exact .left _ _ (by omega)
    · simp only [Prod.mk.injEq] at h
      obtain ⟨rfl, rfl⟩ := h
      simp only [effort, hw]
      exact .left _ _ (by omega)
    · dsimp only at h
      split at h
      · simp only [Prod.mk.injEq] at h
        obtain ⟨rfl, rfl⟩ := h
        simp only [effort, hw]
        exact .left _ _ (by omega)
      · simp only [Prod.mk.injEq] at h
        obtain ⟨rfl, rfl⟩ := h
        simp only [effort, hw]
        exact .left _ _ (by omega)
    · simp only [Prod.mk.injEq] at h
      obtain ⟨rfl, rfl⟩ := h
      simp only [effort, hw]
      exact .left _ _ (by omega)
  · -- the batch in hand is through: four steps of slack against a rank
    rename_i r batch rows bytes hw
    simp only [Option.some.injEq, Prod.mk.injEq] at h
    obtain ⟨rfl, rfl⟩ := h
    simp only [effort, hw]
    refine .right _ (.right _ (.right _ ?_))
    simp only [SplitReader.rank, List.length_nil]
    split <;> omega
  · -- offering a record
    rename_i r batch x rest rows bytes hw
    split at h
    · simp only [Option.some.injEq, Prod.mk.injEq] at h
      obtain ⟨rfl, rfl⟩ := h
      simp only [effort, hw]
      exact .right _ (.right _ (.right _ (by simp)))
    · simp only [Option.some.injEq, Prod.mk.injEq] at h
      obtain ⟨rfl, rfl⟩ := h
      simp only [effort, hw]
      exact .left _ _ (by omega)
    · simp at h
  · rename_i r hw
    simp only [Option.some.injEq, Prod.mk.injEq] at h
    obtain ⟨rfl, rfl⟩ := h
    simp only [effort, hw]
    exact .left _ _ (by omega)
  · rename_i e hw
    simp only [Option.some.injEq, Prod.mk.injEq] at h
    obtain ⟨rfl, rfl⟩ := h
    simp only [effort, hw]
    exact .left _ _ (by omega)
  · rename_i result hw
    simp only [Option.some.injEq, Prod.mk.injEq] at h
    obtain ⟨rfl, rfl⟩ := h
    simp only [effort, hw]
    exact .left _ _ (by omega)
  · simp at h
  · simp at h

end Worker

end Intake
