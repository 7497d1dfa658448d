import Intake.Run.Machine
/-!
# What a step can do

Readers and workers move by functions that branch on where they stand.
This file says once, as relations with a rule for each thing that can
happen, what a step leads to and under which conditions
(`SplitReader.moves_of_step`, `Worker.moves_of_step`). Every invariant of
a run is proved by cases over these rules, and no other proof opens the
step functions. For a reader the relation is the graph of its step
(`SplitReader.Moves.step_eq`).
-/

namespace Intake

/-! ## Readers -/

namespace SplitReader

variable {o : ReadOptions} {running : Bool} {r r' : SplitReader} {s s' s₁ : Service}
variable {st st' : Stream} {e : TransportError} {b : Batch} {g : Signal}

/-- The stream a reader pulls from: the one it holds, or the one its call
opens. -/
inductive Opens (o : ReadOptions) (r : SplitReader) (s : Service) : Service → Stream → Prop where
  | held {st : Stream} (h : r.stream = some st) : Opens o r s s st
  | called {s₁ : Service} {st : Stream} (h : r.stream = none)
      (hc : s.read (r.call o) = (s₁, .ok st)) : Opens o r s s₁ st

/-- A fetch that fails, with the service once its stream is given back. -/
inductive Fails (o : ReadOptions) (r : SplitReader) (s : Service) :
    Service → TransportError → Prop where
  | call {s₁ : Service} {e : TransportError} (h : r.stream = none)
      (hc : s.read (r.call o) = (s₁, .error e)) : Fails o r s s₁ e
  | stream {s₁ : Service} {st : Stream} {e : TransportError} (h : Opens o r s s₁ st)
      (hn : st.next = .error e) : Fails o r s s₁.release e

/-- What a step of a reader can lead to. -/
inductive Moves (o : ReadOptions) (running : Bool) (r : SplitReader) (s : Service) :
    SplitReader → Service → Signal → Prop where
  | through {i : Bool} (hr : r.stage = .done i) : Moves o running r s r s .ended
  | look (hr : r.stage = .ready) (hrun : running = true) :
      Moves o running r s { r with stage := .fetching } s .working
  | resume (hr : r.stage = .waiting) (hrun : running = true) :
      Moves o running r s { r with stage := .ready } s .working
  | interrupt (hr : r.stage = .ready ∨ r.stage = .waiting) (hrun : running = false) :
      Moves o running r s (r.finish true) (s.releaseIf r.stream) .ended
  | retry {s₁ : Service} {e : TransportError} (hr : r.stage = .fetching) (hf : Fails o r s s₁ e)
      (ht : e.isTransient = true) (hb : r.retries < o.maxRetries.toNat) :
      Moves o running r s { r with stream := none, retries := r.retries + 1, stage := .waiting }
        s₁ .working
  | fail {s₁ : Service} {e : TransportError} (hr : r.stage = .fetching) (hf : Fails o r s s₁ e)
      (hb : ¬ (e.isTransient = true ∧ r.retries < o.maxRetries.toNat)) :
      Moves o running r s (r.finish false) s₁ (.failed (.stream r.split (r.retries + 1) e))
  | batch {s₁ : Service} {st st' : Stream} {b : Batch} (hr : r.stage = .fetching)
      (ho : Opens o r s s₁ st) (hn : st.next = .ok (some (b, st'))) (hfits : r.CanCount b) :
      Moves o running r s
        { r with stream := some st', rows := r.rows + b.rowCount, stage := .ready } s₁ (.batch b)
  | panic {s₁ : Service} {st st' : Stream} {b : Batch} (hr : r.stage = .fetching)
      (ho : Opens o r s s₁ st) (hn : st.next = .ok (some (b, st'))) (hover : ¬ r.CanCount b) :
      Moves o running r s { r with stream := some st', stage := .ready } s₁ .panicked
  | finish {s₁ : Service} {st : Stream} (hr : r.stage = .fetching) (ho : Opens o r s s₁ st)
      (hn : st.next = .ok none) : Moves o running r s (r.finish false) s₁.release .ended

/-- A failed fetch is met by a retry, or ends the reader. -/
theorem moves_of_onFailure (hr : r.stage = .fetching) (hf : Fails o r s s₁ e)
    (h : r.onFailure o e = (r', g)) : Moves o running r s r' s₁ g := by
  unfold onFailure at h
  split at h
  · rename_i hc
    obtain ⟨rfl, rfl⟩ := Prod.mk.inj h
    exact .retry hr hf hc.1 hc.2
  · rename_i hc
    obtain ⟨rfl, rfl⟩ := Prod.mk.inj h
    exact .fail hr hf hc

theorem moves_of_pull (hr : r.stage = .fetching) (ho : Opens o r s s₁ st)
    (h : r.pull o s₁ st = (r', s', g)) : Moves o running r s r' s' g := by
  unfold pull at h
  split at h
  · rename_i e hn
    cases hf : r.onFailure o e with
    | mk r₁ g₁ =>
      rw [hf] at h
      cases h
      exact moves_of_onFailure hr (.stream ho hn) hf
  · rename_i hn
    cases h
    exact .finish hr ho hn
  · rename_i b st' hn
    split at h
    · rename_i hfits
      cases h
      exact .batch hr ho hn hfits
    · rename_i hover
      cases h
      exact .panic hr ho hn hover

/-- **A step of a reader is one of the moves.** -/
theorem moves_of_step (h : r.step o running s = (r', s', g)) : Moves o running r s r' s' g := by
  unfold step at h
  split at h
  · rename_i i hr
    cases h
    exact .through hr
  · rename_i hr
    split at h
    · rename_i hrun
      cases h
      exact .look hr hrun
    · rename_i hrun
      cases h
      exact .interrupt (.inl hr) (by simpa using hrun)
  · rename_i hr
    split at h
    · rename_i hrun
      cases h
      exact .resume hr hrun
    · rename_i hrun
      cases h
      exact .interrupt (.inr hr) (by simpa using hrun)
  · rename_i hr
    split at h
    · rename_i st hst
      exact moves_of_pull hr (.held hst) h
    · rename_i hst
      split at h
      · rename_i s₁ e hc
        cases hf : r.onFailure o e with
        | mk r₁ g₁ =>
          rw [hf] at h
          cases h
          exact moves_of_onFailure hr (.call hst hc) hf
      · rename_i s₁ st hc
        exact moves_of_pull hr (.called hst hc) h

/-- A fetch that fails is a step to what the failure leads to. -/
theorem step_of_fails (hr : r.stage = .fetching) (hf : Fails o r s s₁ e)
    (h : r.onFailure o e = (r', g)) : r.step o running s = (r', s₁, g) := by
  cases hf with
  | call hst hc => simp only [step, hr, hst, hc, h]
  | stream ho hn =>
    cases ho with
    | held hst => simp only [step, hr, hst, pull, hn, h]
    | called hst hc => simp only [step, hr, hst, hc, pull, hn, h]

/-- **Each of the moves is the step of a reader.** -/
theorem Moves.step_eq (h : Moves o running r s r' s' g) : r.step o running s = (r', s', g) := by
  cases h with
  | through hr => simp only [step, hr]
  | look hr hrun => simp only [step, hr, hrun, if_true]
  | resume hr hrun => simp only [step, hr, hrun, if_true]
  | interrupt hr hrun => rcases hr with hr | hr <;> simp [step, hr, hrun]
  | retry hr hf ht hb => exact step_of_fails hr hf (if_pos ⟨ht, hb⟩)
  | fail hr hf hb => exact step_of_fails hr hf (if_neg hb)
  | batch hr ho hn hfits =>
    cases ho with
    | held hst => simp only [step, hr, hst, pull, hn, if_pos hfits]
    | called hst hc => simp only [step, hr, hst, hc, pull, hn, if_pos hfits]
  | panic hr ho hn hover =>
    cases ho with
    | held hst => simp only [step, hr, hst, pull, hn, if_neg hover]
    | called hst hc => simp only [step, hr, hst, hc, pull, hn, if_neg hover]
  | finish hr ho hn =>
    cases ho with
    | held hst => simp only [step, hr, hst, pull, hn]
    | called hst hc => simp only [step, hr, hst, hc, pull, hn]

end SplitReader

/-! ## Workers -/

namespace Worker

variable {σ α : Type} {p : Plan} {sink : Sink σ α} {w w' : Worker} {sh sh' : Shared σ}
variable {r : SplitReader} {batch : Nat}

/-- What a step of a worker can lead to. -/
inductive Moves (p : Plan) (sink : Sink σ α) (w : Worker) (sh : Shared σ) :
    Worker → Shared σ → Prop where
  | through (hw : w.stage = .between) (h : w.splits = [] ∨ sh.run.isRunning = false) :
      Moves p sink w sh { w with stage := .leaving (.ok w.report) } sh
  | take {x : SplitId} {xs : List SplitId} (hw : w.stage = .between) (hx : w.splits = x :: xs)
      (hrun : sh.run.isRunning = true) :
      Moves p sink w sh { w with splits := xs, stage := .reading { split := x } 0 } sh
  | read {r r' : SplitReader} {batch : Nat} {s' : Service} (hw : w.stage = .reading r batch)
      (hr : r.Moves p.options sh.run.isRunning sh.service r' s' .working) :
      Moves p sink w sh { w with stage := .reading r' batch } { sh with service := s' }
  | decode {r r' : SplitReader} {batch : Nat} {s' : Service} {b : Batch} {records : List Record}
      (hw : w.stage = .reading r batch)
      (hr : r.Moves p.options sh.run.isRunning sh.service r' s' (.batch b))
      (hd : p.codec.decode p.layout b = .ok records) :
      Moves p sink w sh
        { w with stage := .emitting r' batch records records.length b.data.length }
        { sh with service := s' }
  | undecoded {r r' : SplitReader} {batch : Nat} {s' : Service} {b : Batch} {e : DecodeError}
      (hw : w.stage = .reading r batch)
      (hr : r.Moves p.options sh.run.isRunning sh.service r' s' (.batch b))
      (hd : p.codec.decode p.layout b = .error e) :
      Moves p sink w sh
        { w with report := w.account r', stage := .failing (.decode r'.split batch e) }
        (close r' { sh with service := s' })
  | unread {r r' : SplitReader} {batch : Nat} {s' : Service} {e : Failure}
      (hw : w.stage = .reading r batch)
      (hr : r.Moves p.options sh.run.isRunning sh.service r' s' (.failed e)) :
      Moves p sink w sh { w with report := w.account r', stage := .failing e }
        (close r' { sh with service := s' })
  | interrupted {r r' : SplitReader} {batch : Nat} {s' : Service} (hw : w.stage = .reading r batch)
      (hr : r.Moves p.options sh.run.isRunning sh.service r' s' .ended)
      (hi : r'.interrupted = true) :
      Moves p sink w sh { w with report := w.account r', stage := .leaving (.ok (w.account r')) }
        (close r' { sh with service := s' })
  | finish {r r' : SplitReader} {batch : Nat} {s' : Service} (hw : w.stage = .reading r batch)
      (hr : r.Moves p.options sh.run.isRunning sh.service r' s' .ended)
      (hi : r'.interrupted = false) :
      Moves p sink w sh
        { w with
          report := { w.account r' with splits := w.report.splits + 1 }
          stage := .between }
        { close r' { sh with service := s' } with
          counters := (close r' { sh with service := s' }).counters.addSplit }
  | panic {r r' : SplitReader} {batch : Nat} {s' : Service} (hw : w.stage = .reading r batch)
      (hr : r.Moves p.options sh.run.isRunning sh.service r' s' .panicked) :
      Moves p sink w sh { w with stage := .panicked }
        { sh with service := s'.releaseIf r'.stream }
  | emitted {r : SplitReader} {batch rows bytes : Nat}
      (hw : w.stage = .emitting r batch [] rows bytes) :
      Moves p sink w sh
        { w with
          report := { w.report with batches := w.report.batches + 1 }
          stage := .reading r (batch + 1) }
        { sh with counters := sh.counters.addBatch (UInt64.ofNat rows) (UInt64.ofNat bytes) }
  | accept {r : SplitReader} {batch rows bytes : Nat} {x : Record} {rest : List Record} {y : σ}
      (hw : w.stage = .emitting r batch (x :: rest) rows bytes)
      (ho : sink.offer sh.sink sh.run.isRunning w.report.worker x = .accepted y) :
      Moves p sink w sh
        { w with
          report := { w.report with records := w.report.records + 1 }
          stage := .emitting r batch rest rows bytes }
        { sh with sink := y, delivered := sh.delivered.push ⟨w.report.worker, r.split, x⟩ }
  | refuse {r : SplitReader} {batch rows bytes : Nat} {x : Record} {rest : List Record} {y : σ}
      (hw : w.stage = .emitting r batch (x :: rest) rows bytes)
      (ho : sink.offer sh.sink sh.run.isRunning w.report.worker x = .refused y) :
      Moves p sink w sh { w with stage := .refused r } { sh with sink := y }
  | cancel {r : SplitReader} (hw : w.stage = .refused r) :
      Moves p sink w sh { w with report := w.account r, stage := .leaving (.ok (w.account r)) }
        (close r { sh with run := sh.run.cancel })
  | fail {e : Failure} (hw : w.stage = .failing e) :
      Moves p sink w sh { w with stage := .leaving (.error e) } { sh with run := sh.run.fail }
  | leave {result : Except Failure Report} (hw : w.stage = .leaving result) :
      Moves p sink w sh { w with stage := .left }
        { sh with results := sh.results ++ [(w.report.worker, result)] }

theorem moves_of_stepBetween (hw : w.stage = .between) :
    Moves p sink w sh (w.stepBetween sh) sh := by
  unfold stepBetween
  split
  · rename_i hs
    exact .through hw (.inl hs)
  · rename_i x xs hs
    split
    · rename_i hrun
      exact .take hw hs hrun
    · rename_i hrun
      exact .through hw (.inr (by simpa using hrun))

theorem moves_of_stepReading (hw : w.stage = .reading r batch)
    (h : w.stepReading p r batch sh = (w', sh')) : Moves p sink w sh w' sh' := by
  unfold stepReading at h
  split at h
  · rename_i r' s' hr
    obtain ⟨rfl, rfl⟩ := Prod.mk.inj h
    exact .read hw (SplitReader.moves_of_step hr)
  · rename_i r' s' b hr
    split at h
    · rename_i records hd
      obtain ⟨rfl, rfl⟩ := Prod.mk.inj h
      exact .decode hw (SplitReader.moves_of_step hr) hd
    · rename_i e hd
      obtain ⟨rfl, rfl⟩ := Prod.mk.inj h
      exact .undecoded hw (SplitReader.moves_of_step hr) hd
  · rename_i r' s' e hr
    obtain ⟨rfl, rfl⟩ := Prod.mk.inj h
    exact .unread hw (SplitReader.moves_of_step hr)
  · rename_i r' s' hr
    dsimp only at h
    split at h
    · rename_i hi
      obtain ⟨rfl, rfl⟩ := Prod.mk.inj h
      exact .interrupted hw (SplitReader.moves_of_step hr) hi
    · rename_i hi
      obtain ⟨rfl, rfl⟩ := Prod.mk.inj h
      exact .finish hw (SplitReader.moves_of_step hr) (by simpa using hi)
  · rename_i r' s' hr
    obtain ⟨rfl, rfl⟩ := Prod.mk.inj h
    exact .panic hw (SplitReader.moves_of_step hr)

/-- **A step of a worker is one of the moves.** -/
theorem moves_of_step (h : w.step p sink sh = some (w', sh')) : Moves p sink w sh w' sh' := by
  unfold step at h
  split at h
  · rename_i hw
    obtain ⟨rfl, rfl⟩ := Prod.mk.inj (Option.some.inj h)
    exact moves_of_stepBetween hw
  · rename_i r batch hw
    exact moves_of_stepReading hw (Option.some.inj h)
  · rename_i r batch rows bytes hw
    obtain ⟨rfl, rfl⟩ := Prod.mk.inj (Option.some.inj h)
    exact .emitted hw
  · rename_i r batch x rest rows bytes hw
    split at h
    · rename_i y ho
      obtain ⟨rfl, rfl⟩ := Prod.mk.inj (Option.some.inj h)
      exact .accept hw ho
    · rename_i y ho
      obtain ⟨rfl, rfl⟩ := Prod.mk.inj (Option.some.inj h)
      exact .refuse hw ho
    · cases h
  · rename_i r hw
    obtain ⟨rfl, rfl⟩ := Prod.mk.inj (Option.some.inj h)
    exact .cancel hw
  · rename_i e hw
    obtain ⟨rfl, rfl⟩ := Prod.mk.inj (Option.some.inj h)
    exact .fail hw
  · rename_i result hw
    obtain ⟨rfl, rfl⟩ := Prod.mk.inj (Option.some.inj h)
    exact .leave hw
  · cases h
  · cases h

end Worker

end Intake
