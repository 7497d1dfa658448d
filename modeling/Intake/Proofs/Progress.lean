import Intake.Proofs.Opened
/-!
# Runs come to an end

A step of a worker brings it nearer to its end, and no step of another
takes it away from there, as the scripts stay what they are. So when the
sink takes every record, a schedule that lets every worker move again and
again ends the run, whatever else happens on the way
(`Machine.exists_isOver`).
-/

namespace Intake

variable {σ α : Type} {p : Plan} {sink : Sink σ α} {sh sh' : Shared σ} {w w' : Worker}
variable {o : ReadOptions} {s s' : Service} {m : Machine σ} {f : Nat → Event α} {i k : Nat}

/-- A sink that takes every record. -/
def Sink.Accepts (sink : Sink σ α) : Prop :=
  ∀ y running i x, ∃ y', sink.offer y running i x = .accepted y'

namespace Worker

/-! ## A worker gets nearer to its end -/

/-- How near a worker is to its end depends on the scripts alone. -/
theorem effort_congr (h : s'.scripts = s.scripts) (w : Worker) :
    w.effort o s' = w.effort o s := by
  unfold effort
  split <;> simp [stock_congr h]

/-- There is no getting nearer to the end for ever. -/
theorem wellFounded_nearer : WellFounded Nearer :=
  (Prod.lex Nat.lt_wfRel (Prod.lex Nat.lt_wfRel (Prod.lex Nat.lt_wfRel Nat.lt_wfRel))).wf

/-- When the sink takes every record, a worker moves until it is gone. -/
theorem exists_step (hs : sink.Accepts) (hl : w.isGone = false) (p : Plan) (sh : Shared σ) :
    ∃ q, w.step p sink sh = some q := by
  unfold step
  split
  all_goals try exact ⟨_, rfl⟩
  · rename_i r batch x rest rows bytes _
    obtain ⟨y, hy⟩ := hs sh.sink sh.run.isRunning w.report.worker x
    rw [hy]
    exact ⟨_, rfl⟩
  · rename_i hw
    simp [isGone, hasLeft, hw] at hl
  · rename_i hw
    simp [isGone, hasPanicked, hw] at hl

end Worker

namespace Machine

/-! ## Schedules -/

/-- The run after the first `k` events of a schedule. -/
def upTo (m : Machine σ) (p : Plan) (sink : Sink σ α) (f : Nat → Event α) (k : Nat) : Machine σ :=
  m.run p sink ((List.range k).map f)

theorem upTo_succ (m : Machine σ) (p : Plan) (sink : Sink σ α) (f : Nat → Event α) (k : Nat) :
    m.upTo p sink f (k + 1) = (m.upTo p sink f k).apply p sink (f k) := by
  simp [upTo, run, List.range_succ]

/-- A schedule under which each of `n` workers has its turn again and
again. -/
def IsFair (n : Nat) (f : Nat → Event α) : Prop := ∀ i < n, ∀ k, ∃ j, k ≤ j ∧ f j = .step i

/-- An event that is not a step of a worker leaves it where it is, and the
scripts as they are. -/
theorem apply_of_ne {e : Event α} (hw : m.workers[i]? = some w) (he : e ≠ .step i) :
    (m.apply p sink e).workers[i]? = some w ∧
      (m.apply p sink e).shared.service.scripts = m.shared.service.scripts := by
  cases e with
  | step j =>
    have hij : j ≠ i := fun h => he (by rw [h])
    rw [apply]
    split
    · exact ⟨hw, rfl⟩
    · split
      · exact ⟨hw, rfl⟩
      · rename_i v _ v' sh' hv
        refine ⟨?_, (Worker.moves_of_step hv).service_eq.1⟩
        rw [List.getElem?_set_ne hij]
        exact hw
  | cancel => exact ⟨hw, rfl⟩
  | act a => exact ⟨hw, rfl⟩

/-- A worker that is gone stays away. -/
theorem isGone_apply (hw : m.workers[i]? = some w) (hl : w.isGone = true) (e : Event α) :
    (m.apply p sink e).workers[i]? = some w := by
  by_cases he : e = .step i
  · subst he
    simp [apply, hw, Worker.step_of_isGone hl]
  · exact (apply_of_ne hw he).1

theorem isGone_upTo {j : Nat} (hw : (m.upTo p sink f k).workers[i]? = some w)
    (hl : w.isGone = true) (hj : k ≤ j) : (m.upTo p sink f j).workers[i]? = some w := by
  induction hj with
  | refl => exact hw
  | step _ ih =>
    rw [upTo_succ]
    exact isGone_apply ih hl _

/-! ## The end of a run -/

/-- At its turn a worker that is not gone gets nearer to its end. -/
theorem exists_nearer (hs : sink.Accepts) (hw : m.workers[i]? = some w)
    (hl : w.isGone = false) :
    ∃ v, (m.apply p sink (.step i)).workers[i]? = some v ∧
      Worker.Nearer (v.effort p.options (m.apply p sink (.step i)).shared.service)
        (w.effort p.options m.shared.service) := by
  obtain ⟨⟨v, sh'⟩, hstep⟩ := Worker.exists_step hs hl p m.shared
  have hi : i < m.workers.length := (List.getElem?_eq_some_iff.1 hw).1
  rw [apply_step hw hstep]
  exact ⟨v, by simp [hi], Worker.effort_step_lt hstep⟩

/-- Until its next turn a worker stays where it is. -/
theorem exists_turn (hf : ∃ j, k ≤ j ∧ f j = .step i)
    (hw : (m.upTo p sink f k).workers[i]? = some w) :
    ∃ j, f j = .step i ∧ (m.upTo p sink f j).workers[i]? = some w ∧
      (m.upTo p sink f j).shared.service.scripts = (m.upTo p sink f k).shared.service.scripts := by
  obtain ⟨j, hkj, hj⟩ := hf
  obtain ⟨d, rfl⟩ := Nat.exists_eq_add_of_le hkj
  clear hkj
  induction d generalizing k with
  | zero => exact ⟨k, hj, hw, rfl⟩
  | succ d ih =>
    by_cases he : f k = .step i
    · exact ⟨k, he, hw, rfl⟩
    · obtain ⟨hw', hscripts⟩ := apply_of_ne (p := p) hw he
      rw [← upTo_succ] at hw' hscripts
      obtain ⟨j, h₁, h₂, h₃⟩ := ih hw' (by rw [← hj]; congr 1; omega)
      exact ⟨j, h₁, h₂, h₃.trans hscripts⟩

/-- **A worker that has its turn again and again is gone at some time.** -/
theorem exists_isGone (hs : sink.Accepts) (hf : ∀ k, ∃ j, k ≤ j ∧ f j = .step i)
    (hw : (m.upTo p sink f k).workers[i]? = some w) :
    ∃ j v, (m.upTo p sink f j).workers[i]? = some v ∧ v.isGone = true := by
  -- the induction is on how far the worker is from its end
  generalize ha : w.effort p.options (m.upTo p sink f k).shared.service = a
  induction a using Worker.wellFounded_nearer.induction generalizing k w with
  | _ a ih =>
    obtain ⟨j, hj, hwj, hscripts⟩ := exists_turn (hf k) hw
    cases hl : w.isGone with
    | true => exact ⟨j, w, hwj, hl⟩
    | false =>
      obtain ⟨v, hv, hnear⟩ := exists_nearer (p := p) hs hwj hl
      rw [← hj, ← upTo_succ] at hv hnear
      rw [Worker.effort_congr hscripts, ha] at hnear
      exact ih _ hnear hv rfl

/-- **A run comes to an end** when the sink takes every record and every
worker has its turn again and again. -/
theorem exists_isOver (hs : sink.Accepts) (hf : IsFair m.workers.length f) :
    ∃ k, (m.upTo p sink f k).isOver = true := by
  -- worker after worker, as those that are gone stay away
  have hall : ∀ n ≤ m.workers.length, ∃ k, ∀ i < n, ∃ w,
      (m.upTo p sink f k).workers[i]? = some w ∧ w.isGone = true := by
    intro n
    induction n with
    | zero => exact fun _ => ⟨0, fun i hi => absurd hi (Nat.not_lt_zero i)⟩
    | succ n ih =>
      intro hn
      obtain ⟨k, hk⟩ := ih (by omega)
      have hlt : n < (m.upTo p sink f 0).workers.length := by
        rw [upTo, length_workers_run]
        omega
      obtain ⟨j, v, hv, hl⟩ := exists_isGone (p := p) hs (hf n hn)
        (List.getElem?_eq_getElem hlt)
      refine ⟨max k j, fun i hi => ?_⟩
      rcases Nat.lt_or_ge i n with h | h
      · obtain ⟨w, hw, hwl⟩ := hk i h
        exact ⟨w, isGone_upTo hw hwl (Nat.le_max_left k j), hwl⟩
      · obtain rfl : i = n := by omega
        exact ⟨v, isGone_upTo hv hl (Nat.le_max_right k j), hl⟩
  obtain ⟨k, hk⟩ := hall m.workers.length (Nat.le_refl _)
  refine ⟨k, List.all_eq_true.2 fun w hw => ?_⟩
  obtain ⟨i, hi⟩ := List.mem_iff_getElem?.1 hw
  have hlen : (m.upTo p sink f k).workers.length = m.workers.length := by simp [upTo]
  obtain ⟨v, hv, hl⟩ := hk i (by rw [← hlen]; exact (List.getElem?_eq_some_iff.1 hi).1)
  rw [hi] at hv
  exact Option.some.inj hv ▸ hl

end Machine

end Intake
