import Intake.Proofs.Boundaries
/-!
# Runs of one worker

When a run has one worker, nobody else touches what is shared, so that more
can be said than of one worker among others: a property of the worker and
of all that is shared, kept by its own steps and by the outside, holds
after every list of events (`Machine.run_solo`). It may speak of the events
so far.
-/

namespace Intake

variable {σ α : Type} {p : Plan} {sink : Sink σ α} {m : Machine σ} {w : Worker}

namespace Shared

/-- The records the sink took, in the order it took them. -/
def records (sh : Shared σ) : List Record := sh.delivered.toList.map Delivery.record

theorem records_push (sh : Shared σ) (y : σ) (d : Delivery) :
    Shared.records { sh with sink := y, delivered := sh.delivered.push d } =
      sh.records ++ [d.record] := by
  simp [records]

end Shared

/-- There is no result before the one worker has left. -/
theorem Worker.Moves.results_eq_nil {w' : Worker} {sh sh' : Shared σ}
    (hm : w.Moves p sink sh w' sh') (h : w.stage ≠ .left → sh.results = []) :
    w'.stage ≠ .left → sh'.results = [] := by
  intro hl
  have hstay : w.stage ≠ .left := by
    intro hw
    cases hm <;> simp_all
  cases hm with
  | leave hw => exact absurd rfl hl
  | _ => exact h hstay

namespace Machine

/-- **What the steps of the one worker and the outside keep holds after
every list of events.** -/
theorem run_solo {I : List (Event α) → Worker → Shared σ → Prop} (hm : m.workers = [w])
    (h : I [] w m.shared) (es : List (Event α))
    (step : ∀ {fs w sh w' sh'}, m.run p sink fs = ⟨sh, [w]⟩ → I fs w sh →
      w.Moves p sink sh w' sh' → I (fs ++ [.step 0]) w' sh')
    (stay : ∀ {fs w sh i}, m.run p sink fs = ⟨sh, [w]⟩ → I fs w sh →
      (i = 0 → w.step p sink sh = none) → I (fs ++ [.step i]) w sh)
    (cancel : .cancel ∈ es → ∀ {fs w sh}, I fs w sh → I (fs ++ [.cancel]) w sh.cancel)
    (act : ∀ {fs w sh} a, I fs w sh → I (fs ++ [.act a]) w (sh.act sink a)) :
    ∃ v, (m.run p sink es).workers = [v] ∧ I es v (m.run p sink es).shared := by
  induction es using List.reverseRecOn with
  | nil => exact ⟨w, hm, h⟩
  | append_singleton es e ih =>
    obtain ⟨v, hv, hI⟩ := ih fun hc => cancel (List.mem_append_left _ hc)
    have hrun : m.run p sink es = ⟨(m.run p sink es).shared, [v]⟩ := by rw [← hv]
    rw [run_append]
    cases e with
    | cancel => exact ⟨v, hv, cancel (by simp) hI⟩
    | act a => exact ⟨v, hv, act a hI⟩
    | step i =>
      change ∃ u, ((m.run p sink es).apply p sink (.step i)).workers = [u] ∧
        I _ u ((m.run p sink es).apply p sink (.step i)).shared
      cases i with
      | succ i =>
        have hnone : (m.run p sink es).workers[i + 1]? = none := by simp [hv]
        simp only [apply, hnone]
        exact ⟨v, hv, stay hrun hI (by simp)⟩
      | zero =>
        have hsome : (m.run p sink es).workers[0]? = some v := by simp [hv]
        cases hs : v.step p sink (m.run p sink es).shared with
        | none =>
          simp only [apply, hsome, hs]
          exact ⟨v, hv, stay hrun hI fun _ => hs⟩
        | some moved =>
          obtain ⟨v', sh'⟩ := moved
          rw [apply_step hsome hs]
          exact ⟨v', by simp [hv], step hrun hI (Worker.moves_of_step hs)⟩

/-- So does what does not speak of the events. -/
theorem run_alone {I : Worker → Shared σ → Prop} (hm : m.workers = [w]) (h : I w m.shared)
    (es : List (Event α))
    (step : ∀ {w sh w' sh'}, I w sh → w.Moves p sink sh w' sh' → I w' sh')
    (cancel : ∀ {w sh}, I w sh → I w sh.cancel)
    (act : ∀ {w sh} a, I w sh → I w (sh.act sink a)) :
    ∃ v, (m.run p sink es).workers = [v] ∧ I v (m.run p sink es).shared :=
  run_solo (I := fun _ => I) hm h es (fun _ => step) (fun _ h _ => h) (fun _ _ _ _ => cancel) act

end Machine

variable {c : EngineConfig} {t : Session} {selected : List String} {g : Ingestion}

namespace Ingestion

/-- The one worker owns all splits. -/
theorem own_solo (hg : ofSession c t selected = .ok g) (hp : c.parallelism = 1) :
    g.own 0 = t.splits := by
  have hall : ∀ xs : List SplitId, stride 1 0 xs = xs := by
    intro xs
    induction xs with
    | nil => rfl
    | cons x xs ih => rw [stride, ih]
  rw [own_eq hg (by simp [hp]), Assignment.splitsOf, hp]
  exact hall t.splits

theorem workers_solo (hg : ofSession c t selected = .ok g) (hp : c.parallelism = 1)
    (service : Service) (y : σ) : (g.start service y).workers = [Worker.start 0 t.splits] := by
  have hlen : (g.start service y).workers.length = 1 := by
    rw [length_workers_start hg, hp]
    rfl
  obtain ⟨w, hw⟩ := List.length_eq_one_iff.1 hlen
  obtain ⟨-, rfl⟩ := start_workers hg service y (i := 0) (w := w) (by simp [hw])
  rw [hw, own_solo hg hp]

/-- All records are those of the one worker. -/
theorem recordsFrom_solo (hg : ofSession c t selected = .ok g) (hp : c.parallelism = 1)
    (service : Service) (sink : Sink σ α) (y : σ) (es : List (Event α)) :
    (g.run service sink y es).shared.recordsFrom 0 = (g.run service sink y es).shared.records := by
  have hsource := (accounts hg service sink y es).2
  have hlen := length_workers_run hg service sink y es
  rw [Shared.recordsFrom, Shared.records, List.filter_eq_self.2]
  intro d hd
  have := hsource.delivered d hd
  rw [hlen, hp] at this
  have hd : d.worker < 1 := this
  simp [Nat.lt_one_iff.1 hd]

end Ingestion

end Intake
