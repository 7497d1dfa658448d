import Intake.Proofs.Delivery
/-!
# What stops a run

Three things may stop a run: a request to cancel, a record that the sink
refuses, and a failure of a worker. Each is a call on the state of the
run, and any number of them may come in any order. An onlooker that notes
these calls as they come, with their answers, knows the state of the run
from the first of them: it alone is answered that it stopped the run, and
the run stays as it left it (`Machine.stoppedBy_run`).
-/

namespace Intake

variable {σ α β : Type} {p : Plan} {sink : Sink σ α} {sh sh' : Shared σ} {w w' : Worker}
variable {m : Machine σ}

/-! ## Onlookers -/

/-- What is noted along a run: of a worker in front of its step, and of what
is shared in front of a request to cancel. -/
structure Onlooker (σ β : Type) where
  worker : Worker → Shared σ → Option β
  cancel : Shared σ → Option β := fun _ => none

namespace Onlooker

variable {l : Onlooker σ β}

/-- What is noted in front of an event. -/
def look (l : Onlooker σ β) (m : Machine σ) : Event α → Option β
  | .step i => m.workers[i]?.bind (l.worker · m.shared)
  | .cancel => l.cancel m.shared
  | .act _ => none

/-- What is noted along a list of events, in order. -/
def notes (l : Onlooker σ β) (p : Plan) (sink : Sink σ α) (m : Machine σ) : List (Event α) → List β
  | [] => []
  | e :: es => (l.look m e).toList ++ l.notes p sink (m.apply p sink e) es

theorem notes_concat (l : Onlooker σ β) (m : Machine σ) (es : List (Event α)) (e : Event α) :
    l.notes p sink m (es ++ [e]) = l.notes p sink m es ++ (l.look (m.run p sink es) e).toList := by
  induction es generalizing m with
  | nil => simp [notes, Machine.run]
  | cons f es ih => rw [List.cons_append, notes, ih, notes, List.append_assoc]; rfl

/-- **What steps and the outside keep, of a run and of what is noted along
it**, holds after every list of events. -/
theorem run_notes {I : Nat → Worker → Shared σ → Prop} {Q : List β → Machine σ → Prop}
    (hI : ∀ es : List (Event α), (m.run p sink es).Each I)
    (idle : ∀ {w sh}, w.step p sink sh = none → l.worker w sh = none)
    (es : List (Event α)) (h : Q [] m)
    (step : ∀ {m : Machine σ} {bs i w w' sh'}, Q bs m → m.workers[i]? = some w →
      I i w m.shared → w.Moves p sink m.shared w' sh' →
      Q (bs ++ (l.worker w m.shared).toList) ⟨sh', m.workers.set i w'⟩)
    (cancel : ∀ {m : Machine σ} {bs}, Q bs m →
      Q (bs ++ (l.cancel m.shared).toList) { m with shared := m.shared.cancel })
    (act : ∀ {m : Machine σ} {bs} a, Q bs m → Q bs { m with shared := m.shared.act sink a }) :
    Q (l.notes p sink m es) (m.run p sink es) := by
  induction es using List.reverseRecOn with
  | nil => exact h
  | append_singleton es e ih =>
    rw [notes_concat, Machine.run_append]
    change Q _ ((m.run p sink es).apply p sink e)
    cases e with
    | cancel => exact cancel ih
    | act a =>
      rw [look, Option.toList_none, List.append_nil]
      exact act a ih
    | step i =>
      rw [look]
      cases hw : (m.run p sink es).workers[i]? with
      | none => simpa [Machine.apply, hw] using ih
      | some w =>
        cases hs : w.step p sink (m.run p sink es).shared with
        | none => simpa [Machine.apply, hw, hs, idle hs] using ih
        | some moved =>
          rw [Machine.apply_step hw hs]
          exact step ih hw (hI es i w hw) (Worker.moves_of_step hs)

end Onlooker

/-- Only a worker that waits for the sink, or is gone, does not move. -/
theorem Worker.stage_of_step_eq_none (h : w.step p sink sh = none) :
    (∃ r batch rest rows bytes, w.stage = .emitting r batch rest rows bytes) ∨
      w.stage = .left ∨ w.stage = .panicked := by
  unfold step at h
  split at h <;> simp_all

/-! ## Causes -/

/-- What stops a run. -/
inductive Cause where
  /-- a request to cancel -/
  | request
  /-- a record that the sink refused -/
  | refusal
  /-- a failure of a worker -/
  | failure (e : Failure)
  deriving DecidableEq, Repr

namespace Cause

/-- The state in which a cause leaves a run that goes on. -/
def state : Cause → RunState
  | .failure _ => .failed
  | .request | .refusal => .cancelled

/-- The state in which causes leave a run: that of the first of them. -/
def settle : List Cause → RunState
  | [] => .running
  | c :: _ => c.state

/-- How a run ends that is stopped by the first of these causes. -/
def lifecycle : List Cause → Lifecycle
  | [] => .completed
  | .failure _ :: _ => .failed
  | _ => .cancelled

/-- Causes with the answers of their calls: the first stops the run. -/
def answered : List Cause → List (Cause × Bool)
  | [] => []
  | c :: cs => (c, true) :: cs.map fun c => (c, false)

theorem settle_concat (cs : List Cause) (c : Cause) :
    settle (cs ++ [c]) = RunState.stop c.state (settle cs) := by
  cases cs with
  | nil => rfl
  | cons d cs => cases d <;> rfl

theorem answered_concat (cs : List Cause) (c : Cause) :
    answered (cs ++ [c]) = answered cs ++ [(c, (settle cs).isRunning)] := by
  cases cs with
  | nil => rfl
  | cons d cs => cases d <;> simp [answered, settle, state, RunState.isRunning]

end Cause

/-- What a worker is about to stop the run for, if anything. -/
def Worker.cause? (w : Worker) : Option Cause :=
  match w.stage with
  | .refused _ => some .refusal
  | .failing e => some (.failure e)
  | _ => none

/-- Notes each call that is to stop the run, with its answer. -/
def Onlooker.stops : Onlooker σ (Cause × Bool) where
  worker w sh := w.cause?.map fun c => (c, (RunState.transition c.state sh.run).1)
  cancel sh := some (.request, (RunState.transition .cancelled sh.run).1)

/-- A step stops the run as its cause has it, if it has one. -/
theorem Worker.Moves.run_eq (h : w.Moves p sink sh w' sh') :
    sh'.run = match w.cause? with
      | some c => (RunState.transition c.state sh.run).2
      | none => sh.run := by
  cases h with
  | cancel hw => simp [cause?, hw, RunState.transition_eq, Cause.state, close, RunState.cancel]
  | fail hw => simp [cause?, hw, RunState.transition_eq, Cause.state, RunState.fail]
  | _ => simp_all [cause?, close]

namespace Machine

/-- The calls noted so far leave the run in the state it is in, and are
answered in that way. -/
structure StoppedBy (calls : List (Cause × Bool)) (m : Machine σ) : Prop where
  answers : calls = Cause.answered (calls.map Prod.fst)
  run : m.shared.run = Cause.settle (calls.map Prod.fst)

variable {calls : List (Cause × Bool)}

/-- One more call stops the run, or is answered that it has stopped. -/
theorem StoppedBy.concat (h : m.StoppedBy calls) (c : Cause) {m' : Machine σ}
    (hrun : m'.shared.run = (RunState.transition c.state m.shared.run).2) :
    m'.StoppedBy (calls ++ [(c, (RunState.transition c.state m.shared.run).1)]) := by
  rw [RunState.transition_eq] at hrun ⊢
  have hmap : (calls ++ [(c, m.shared.run.isRunning)]).map Prod.fst =
      calls.map Prod.fst ++ [c] := by simp
  refine ⟨?_, ?_⟩
  · rw [hmap, Cause.answered_concat, ← h.answers, ← h.run]
  · rw [hmap, Cause.settle_concat, ← h.run, hrun]

/-- A worker that does not move stops nothing. -/
theorem idle_stops {w : Worker} {sh : Shared σ} (hs : w.step p sink sh = none) :
    Onlooker.stops.worker w sh = none := by
  rcases Worker.stage_of_step_eq_none hs with ⟨_, _, _, _, _, hw⟩ | hw | hw <;>
    simp [Onlooker.stops, Worker.cause?, hw]

/-- **The state of a run is that of the first call to stop it**, which alone
is answered that it did. -/
theorem stoppedBy_run (hm : m.shared.run = .running) (es : List (Event α)) :
    (m.run p sink es).StoppedBy (Onlooker.stops.notes p sink m es) := by
  refine Onlooker.run_notes (I := fun _ _ _ => True) (fun _ _ _ _ => trivial) idle_stops es
    ⟨rfl, hm⟩ ?_ ?_ (fun a h => ⟨h.answers, h.run⟩)
  · intro m calls i w w' sh' h hw _ hmoves
    have hrun := hmoves.run_eq
    rw [Onlooker.stops]
    dsimp only
    cases hc : w.cause? with
    | none =>
      rw [hc] at hrun
      rw [Option.map_none, Option.toList_none, List.append_nil]
      exact ⟨h.answers, hrun.trans h.run⟩
    | some c =>
      rw [hc] at hrun
      exact h.concat c hrun
  · intro m calls h
    refine h.concat .request ?_
    rw [RunState.transition_eq]
    rfl

/-- A failure that a worker leaves with has been among the calls. -/
structure Tells (calls : List (Cause × Bool)) (m : Machine σ) : Prop where
  leaving : ∀ w ∈ m.workers, ∀ e, w.stage = .leaving (.error e) →
    .failure e ∈ calls.map Prod.fst
  left : ∀ i e, (i, .error e) ∈ m.shared.results → .failure e ∈ calls.map Prod.fst

theorem tells_run (hm : ∀ w ∈ m.workers, w.stage = .between) (hr : m.shared.results = [])
    (es : List (Event α)) : (m.run p sink es).Tells (Onlooker.stops.notes p sink m es) := by
  refine Onlooker.run_notes (I := fun _ _ _ => True) (fun _ _ _ _ => trivial) idle_stops es
    ⟨fun w hw e he => by simp [hm w hw] at he, by simp [hr]⟩ ?_ ?_
    (fun a h => ⟨h.leaving, h.left⟩)
  · intro m calls i w w' sh' h hw _ hmoves
    have hstay : ∀ {c}, c ∈ calls.map Prod.fst →
        c ∈ (calls ++ (Onlooker.stops.worker w m.shared).toList).map Prod.fst := fun hc => by
      rw [List.map_append]
      exact List.mem_append_left _ hc
    have hmem := List.mem_of_getElem? hw
    refine ⟨fun v hv e he => ?_, fun j e he => ?_⟩
    · rcases List.mem_or_eq_of_mem_set hv with hv | rfl
      · exact hstay (h.leaving v hv e he)
      · cases hmoves with
        | fail hf =>
          obtain rfl : _ = e := by simpa using he
          simp [Onlooker.stops, Worker.cause?, hf]
        | _ => simp_all
    -- what a worker leaves with is what it was failing with
    · cases hmoves with
      | leave hl =>
        rcases List.mem_append.1 he with he | he
        · exact hstay (h.left j e he)
        · obtain ⟨rfl, rfl⟩ : j = w.report.worker ∧ Except.error e = _ := by simpa using he
          exact hstay (h.leaving w hmem e hl)
      | _ => exact hstay (h.left j e he)
  · intro m calls h
    refine ⟨fun w hw e he => ?_, fun i e he => ?_⟩
    · simp [h.leaving w hw e he]
    · simp [h.left i e he]

end Machine

end Intake
