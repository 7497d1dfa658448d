import Intake.Run.Machine
/-!
# Runs in which workers take turns

One order in which a run can go: the first worker moves until it is gone
or waits for a sink that stays full, then the second, and so on. The
outside may cancel the run as a given call arrives or behind a given
record, and may make room in a sink that is full.

The main statement: what taking turns leads to is what some list of
events leads to (`exists_run_eq_takeTurns`), so that what holds of every
run holds of these.
-/

namespace Intake

variable {σ α : Type}

/-- What the outside does while workers take turns. -/
structure Outside (σ α : Type) where
  /-- the call, counted over the run, as which arrives the run is cancelled -/
  cancelAtCall : Option Nat := none
  /-- the record, counted over the run, behind which the run is cancelled -/
  cancelBehind : Option Nat := none
  /-- how room is made in a sink that is full -/
  relieve : σ → Option α := fun _ => none

namespace Outside

/-- Whether the run is to be cancelled before a worker moves. -/
def cancels (out : Outside σ α) (w : Worker) (sh : Shared σ) : Bool :=
  (match w.stage with
    | .reading r _ => r.isCall out.cancelAtCall sh.service
    | _ => false) ||
  (0 < sh.delivered.size && out.cancelBehind == some sh.delivered.size)

/-- What is shared once the outside had its chance to cancel. -/
def prepare (out : Outside σ α) (w : Worker) (sh : Shared σ) : Shared σ :=
  if out.cancels w sh then sh.cancel else sh

@[simp] theorem service_prepare (out : Outside σ α) (w : Worker) (sh : Shared σ) :
    (out.prepare w sh).service = sh.service := by
  unfold prepare
  split <;> rfl

end Outside

/-- A worker moves until it is gone or waits for a sink that stays full. -/
def Worker.takeTurn (p : Plan) (sink : Sink σ α) (out : Outside σ α) (w : Worker)
    (sh : Shared σ) : Worker × Shared σ :=
  match _h : w.step p sink (out.prepare w sh) with
  | some (w', sh') => takeTurn p sink out w' sh'
  | none =>
    match if w.isGone then none else out.relieve (out.prepare w sh).sink with
    | none => (w, out.prepare w sh)
    | some a =>
      match _h : w.step p sink ((out.prepare w sh).act sink a) with
      | some (w', sh') => takeTurn p sink out w' sh'
      | none => (w, (out.prepare w sh).act sink a)
termination_by w.effort p.options sh.service
decreasing_by
  · have := Worker.effort_step_lt _h
    rwa [Outside.service_prepare] at this
  · have := Worker.effort_step_lt _h
    rwa [Shared.act, Outside.service_prepare] at this

namespace Machine

/-- A worker of a run takes its turn. -/
def turn (p : Plan) (sink : Sink σ α) (out : Outside σ α) (m : Machine σ) (i : Nat) :
    Machine σ :=
  match m.workers[i]? with
  | none => m
  | some w =>
    let (w, sh) := w.takeTurn p sink out m.shared
    ⟨sh, m.workers.set i w⟩

/-- All workers of a run take their turns, each once. -/
def takeTurns (p : Plan) (sink : Sink σ α) (out : Outside σ α) (m : Machine σ) : Machine σ :=
  (List.range m.workers.length).foldl (turn p sink out) m

/-! ## Turns are runs -/

/-- A chance to cancel, as a list of events. -/
theorem exists_run_eq_prepare (p : Plan) (sink : Sink σ α) (out : Outside σ α) (w : Worker)
    (m : Machine σ) :
    ∃ es, m.run p sink es = { m with shared := out.prepare w m.shared } := by
  unfold Outside.prepare
  split
  · exact ⟨[.cancel], rfl⟩
  · exact ⟨[], rfl⟩

theorem exists_run_eq_takeTurn (p : Plan) (sink : Sink σ α) (out : Outside σ α) (i : Nat)
    (w : Worker) (sh : Shared σ) :
    ∀ ws : List Worker, ws[i]? = some w →
      ∃ es, run p sink ⟨sh, ws⟩ es =
        ⟨(w.takeTurn p sink out sh).2, ws.set i (w.takeTurn p sink out sh).1⟩ := by
  fun_induction Worker.takeTurn p sink out w sh with
  | case1 w sh w' sh' h ih =>
    -- the worker moves
    intro ws hw
    have hi : i < ws.length := (List.getElem?_eq_some_iff.1 hw).1
    obtain ⟨es, he⟩ := exists_run_eq_prepare p sink out w ⟨sh, ws⟩
    obtain ⟨fs, hf⟩ := ih (ws.set i w') (by simp [hi])
    refine ⟨es ++ .step i :: fs, ?_⟩
    rw [run_append, he, run, List.foldl_cons, apply_step hw h, ← run, hf, List.set_set]
  | case2 w sh h ha =>
    -- it is gone, or the sink stays full
    intro ws hw
    obtain ⟨es, he⟩ := exists_run_eq_prepare p sink out w ⟨sh, ws⟩
    obtain ⟨hi, rfl⟩ := List.getElem?_eq_some_iff.1 hw
    exact ⟨es, by rw [he, List.set_getElem_self]⟩
  | case3 w sh h a ha w' sh' h' ih =>
    -- room is made, and it moves
    intro ws hw
    have hi : i < ws.length := (List.getElem?_eq_some_iff.1 hw).1
    obtain ⟨es, he⟩ := exists_run_eq_prepare p sink out w ⟨sh, ws⟩
    obtain ⟨fs, hf⟩ := ih (ws.set i w') (by simp [hi])
    refine ⟨es ++ .act a :: .step i :: fs, ?_⟩
    rw [run_append, he, run, List.foldl_cons, List.foldl_cons]
    have hs := apply_step (m := ⟨(out.prepare w sh).act sink a, ws⟩) hw h'
    rw [show apply p sink ⟨out.prepare w sh, ws⟩ (.act a) =
      ⟨(out.prepare w sh).act sink a, ws⟩ from rfl, hs, ← run, hf, List.set_set]
  | case4 w sh h a ha h' =>
    -- what was done made no room
    intro ws hw
    obtain ⟨es, he⟩ := exists_run_eq_prepare p sink out w ⟨sh, ws⟩
    obtain ⟨hi, rfl⟩ := List.getElem?_eq_some_iff.1 hw
    refine ⟨es ++ [.act a], ?_⟩
    rw [run_append, he, List.set_getElem_self]
    rfl

theorem exists_run_eq_turn (p : Plan) (sink : Sink σ α) (out : Outside σ α) (m : Machine σ)
    (i : Nat) : ∃ es, m.run p sink es = m.turn p sink out i := by
  unfold turn
  split
  · exact ⟨[], rfl⟩
  · rename_i w hw
    exact exists_run_eq_takeTurn p sink out i w m.shared m.workers hw

/-- **What taking turns leads to is what some list of events leads to.** -/
theorem exists_run_eq_takeTurns (p : Plan) (sink : Sink σ α) (out : Outside σ α)
    (m : Machine σ) : ∃ es, m.run p sink es = m.takeTurns p sink out := by
  unfold takeTurns
  generalize List.range m.workers.length = is
  induction is generalizing m with
  | nil => exact ⟨[], rfl⟩
  | cons i is ih =>
    obtain ⟨es, he⟩ := exists_run_eq_turn p sink out m i
    obtain ⟨fs, hf⟩ := ih (m.turn p sink out i)
    exact ⟨es ++ fs, by rw [run_append, he, hf, List.foldl_cons]⟩

end Machine

end Intake
