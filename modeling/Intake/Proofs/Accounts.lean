import Intake.Proofs.Opened
import Intake.Run.Outcome
/-!
# Reports and the records behind them

A worker counts every record the sink takes from it, and leaves the run
once, with its own report or with a failure, and with a failure only
when the run has stopped. These accounts hold of every worker after
every list of events (`Ingestion.accounts`).
-/

namespace Intake

variable {σ α : Type} {p : Plan} {sink : Sink σ α} {sh sh' : Shared σ} {w w' : Worker}
variable {c : EngineConfig} {s : Session} {selected : List String} {g : Ingestion}

namespace Shared

/-- Whether a worker left the run with a failure. -/
def hasFailed (sh : Shared σ) (i : Nat) : Bool := (sh.resultsOf i).any fun r => !r.isOk

end Shared

namespace Worker

/-- What a worker owes for its number: its count of records is that of the
records taken from it, its result is there once it has left and not
before, a report that is its result is its own, and a failure that is
means that the run has stopped. -/
structure Accounted (i : Nat) (w : Worker) (sh : Shared σ) : Prop where
  records : w.report.records = (sh.recordsFrom i).length
  leaving : ∀ rep, w.stage = .leaving (.ok rep) → rep = w.report
  failing : ∀ e, w.stage = .leaving (.error e) → sh.run.isRunning = false
  present : w.stage ≠ .left → sh.resultsOf i = []
  left : w.stage = .left → ∃ res, sh.resultsOf i = [res] ∧
    (∀ rep, res = .ok rep → rep = w.report) ∧ (∀ e, res = .error e → sh.run.isRunning = false)

variable {i : Nat}

theorem Accounted.apart {own : List SplitId} (h : Accounted i w sh) (ha : sh.Apart i own sh') :
    Accounted i w sh' := by
  refine ⟨by rw [ha.records]; exact h.records, h.leaving, fun e he => ha.stopped (h.failing e he),
    fun hs => by rw [ha.results]; exact h.present hs, fun hs => ?_⟩
  obtain ⟨res, h₁, h₂, h₃⟩ := h.left hs
  exact ⟨res, by rw [ha.results]; exact h₁, h₂, fun e he => ha.stopped (h₃ e he)⟩

/-- Steps at which the worker neither delivers nor leaves. -/
theorem Accounted.of_eq (h : Accounted i w sh) (hl : w.stage ≠ .left)
    (hrec : w'.report.records = w.report.records) (hd : sh'.recordsFrom i = sh.recordsFrom i)
    (hres : sh'.resultsOf i = sh.resultsOf i) (hl' : w'.stage ≠ .left)
    (hok : ∀ rep, w'.stage = .leaving (.ok rep) → rep = w'.report)
    (herr : ∀ e, w'.stage = .leaving (.error e) → sh'.run.isRunning = false) :
    Accounted i w' sh' :=
  ⟨by rw [hrec, hd]; exact h.records, hok, herr, fun _ => by rw [hres]; exact h.present hl,
    fun hc => absurd hc hl'⟩

theorem Accounted.of_moves {own : List SplitId} (hb : w.Belongs i own) (h : Accounted i w sh)
    (hm : w.Moves p sink sh w' sh') : Accounted i w' sh' := by
  have hwi := hb.worker
  cases hm with
  | through hw hs =>
    refine h.of_eq (by simp [hw]) rfl rfl rfl (by simp) ?_ (by simp)
    simp +contextual [eq_comm]
  | take hw hx hrun => exact h.of_eq (by simp [hw]) rfl rfl rfl (by simp) (by simp) (by simp)
  | read hw hr => exact h.of_eq (by simp [hw]) rfl rfl rfl (by simp) (by simp) (by simp)
  | decode hw hr hd => exact h.of_eq (by simp [hw]) rfl rfl rfl (by simp) (by simp) (by simp)
  | undecoded hw hr hd => exact h.of_eq (by simp [hw]) rfl rfl rfl (by simp) (by simp) (by simp)
  | unread hw hr => exact h.of_eq (by simp [hw]) rfl rfl rfl (by simp) (by simp) (by simp)
  | interrupted hw hr hi =>
    refine h.of_eq (by simp [hw]) rfl rfl rfl (by simp) ?_ (by simp)
    simp +contextual [eq_comm]
  | finish hw hr hi => exact h.of_eq (by simp [hw]) rfl rfl rfl (by simp) (by simp) (by simp)
  | panic hw hr => exact h.of_eq (by simp [hw]) rfl rfl rfl (by simp) (by simp) (by simp)
  | emitted hw => exact h.of_eq (by simp [hw]) rfl rfl rfl (by simp) (by simp) (by simp)
  | accept hw ho =>
    -- the one step that delivers: both counts go up by one
    refine ⟨?_, by simp, by simp, fun _ => h.present (by simp [hw]), by simp⟩
    simp [Shared.recordsFrom, List.filter_append, hwi, h.records]
  | refuse hw ho => exact h.of_eq (by simp [hw]) rfl rfl rfl (by simp) (by simp) (by simp)
  | cancel hw =>
    refine h.of_eq (by simp [hw]) rfl rfl rfl (by simp) ?_ (by simp)
    simp +contextual [eq_comm]
  | fail hw =>
    exact h.of_eq (by simp [hw]) rfl rfl rfl (by simp) (by simp) fun _ _ => by simp
  | leave hw =>
    rename_i res
    have hnil := h.present (by simp [hw])
    refine ⟨h.records, by simp, by simp, by simp, fun _ => ⟨res, ?_, ?_, ?_⟩⟩
    · simp only [Shared.resultsOf] at hnil
      simp [Shared.resultsOf, List.filter_append, hwi, List.map_eq_nil_iff.1 hnil]
    · rintro rep rfl
      exact h.leaving rep hw
    · rintro e rfl
      exact h.failing e hw

end Worker

/-! ## Where records and results come from -/

theorem Worker.Moves.delivered_eq (h : w.Moves p sink sh w' sh') :
    sh'.delivered = sh.delivered ∨
      ∃ r x, sh'.delivered = sh.delivered.push ⟨w.report.worker, r, x⟩ := by
  cases h with
  | accept hw ho => exact .inr ⟨_, _, rfl⟩
  | _ => exact .inl rfl

theorem Worker.Moves.results_eq (h : w.Moves p sink sh w' sh') :
    sh'.results = sh.results ∨ ∃ res, sh'.results = sh.results ++ [(w.report.worker, res)] := by
  cases h with
  | leave hw => exact .inr ⟨_, rfl⟩
  | _ => exact .inl rfl

namespace Machine

variable {m : Machine σ}

/-- Every record taken and every result come from a worker of the run. -/
structure Sourced (m : Machine σ) : Prop where
  delivered : ∀ d ∈ m.shared.delivered.toList, d.worker < m.workers.length
  results : ∀ r ∈ m.shared.results, r.1 < m.workers.length

theorem Sourced.of_moves {i : Nat} (h : m.Sourced) (hi : w.report.worker < m.workers.length)
    (hm : w.Moves p sink m.shared w' sh') : Sourced ⟨sh', m.workers.set i w'⟩ := by
  constructor
  · rw [List.length_set]
    rcases hm.delivered_eq with he | ⟨r, x, he⟩
    · rw [he]
      exact h.delivered
    · rw [he, Array.toList_push]
      intro d hd
      rcases List.mem_append.1 hd with hd | hd
      · exact h.delivered d hd
      · rw [List.mem_singleton.1 hd]
        exact hi
  · rw [List.length_set]
    rcases hm.results_eq with he | ⟨res, he⟩
    · rw [he]
      exact h.results
    · rw [he]
      intro r hr
      rcases List.mem_append.1 hr with hr | hr
      · exact h.results r hr
      · rw [List.mem_singleton.1 hr]
        exact hi

end Machine

namespace Ingestion

/-- **The accounts of a run**: what its workers owe for their numbers, and
that nothing comes from anywhere else. -/
theorem accounts (hg : ofSession c s selected = .ok g) (service : Service) (sink : Sink σ α)
    (x : σ) (es : List (Event α)) :
    ((g.run service sink x es).Each fun i w sh => w.Belongs i (g.own i) ∧ w.Accounted i sh) ∧
      (g.run service sink x es).Sourced := by
  have hd : ∀ i j, i ≠ j → (g.own i).Disjoint (g.own j) := fun i j => disjoint_own hg
  have hstart : (g.start service x).Each Worker.Accounted := by
    intro i w hw
    obtain ⟨-, rfl⟩ := start_workers hg service x hw
    exact ⟨rfl, by simp [Worker.start], by simp [Worker.start], fun _ => rfl,
      by simp [Worker.start]⟩
  have heach : ∀ fs, (g.run service sink x fs).Each
      fun i w sh => w.Belongs i (g.own i) ∧ w.Accounted i sh :=
    Machine.each_run hd (belongs_start hg service x) hstart Worker.Accounted.of_moves
      fun _ => Worker.Accounted.apart
  -- a step is taken by a worker whose number is its place
  refine ⟨heach es, Machine.run_of_each heach es ⟨by simp [start], by simp [start]⟩ ?_
    (fun _ m h => ⟨h.1, h.2⟩) (fun m a h => ⟨h.1, h.2⟩)⟩
  rintro m i w w' sh' hs hw ⟨hb, -⟩ hm
  obtain ⟨hlt, -⟩ := List.getElem?_eq_some_iff.1 hw
  exact hs.of_moves (by rw [hb.worker]; exact hlt) hm

end Ingestion

end Intake
