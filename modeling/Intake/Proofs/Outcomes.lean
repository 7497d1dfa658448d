import Intake.Proofs.Causes
/-!
# What outcomes tell

The outcome of a run is put together when all of its workers have left,
from the state of the run and the results of the workers, although a
worker that stopped early leaves with a report like one that is through.
An onlooker that notes the calls that are to stop the run, and the splits
that are read to their end, can tell the outcome beforehand.

The main statement, for any number of workers, any service, sink and order
of events (`outcome_of_causes`): the run ends as the first of these calls
has it; a run that is completed met none and read every split to its end;
and a run that failed tells of a split that was not.
-/

namespace Intake

variable {σ α : Type} {p : Plan} {sink : Sink σ α} {sh sh' : Shared σ} {w w' : Worker}
variable {o : ReadOptions} {running : Bool} {r r' : SplitReader} {s s' : Service} {g : Signal}
variable {m : Machine σ} {x : SplitId} {i : Nat}

/-! ## Splits read to their end -/

/-- The split that a reader comes to the end of by its next step, if any. -/
def SplitReader.finishes? (o : ReadOptions) (running : Bool) (r : SplitReader) (s : Service) :
    Option SplitId :=
  match r.step o running s with
  | (r', _, g) => if g = .ended ∧ r'.interrupted = false then some r.split else none

theorem SplitReader.Moves.finishes?_eq (h : r.Moves o running s r' s' g) :
    r.finishes? o running s =
      if g = .ended ∧ r'.interrupted = false then some r.split else none := by
  rw [finishes?, h.step_eq]

namespace Worker

/-- The split that a worker has read to its end by its next step, if any. -/
def finishes? (p : Plan) (w : Worker) (sh : Shared σ) : Option SplitId :=
  match w.stage with
  | .reading r _ => r.finishes? p.options sh.run.isRunning sh.service
  | _ => none

theorem mem_inHand_of_finishes? (h : w.finishes? p sh = some x) : x ∈ w.inHand := by
  unfold finishes? at h
  split at h
  · rename_i r k hw
    unfold SplitReader.finishes? at h
    dsimp only at h
    split at h
    · obtain rfl := Option.some.inj h
      simp [inHand, hw]
    · cases h
  · cases h

theorem finishes?_eq_none (hw : ∀ r k, w.stage ≠ .reading r k) : w.finishes? p sh = none := by
  unfold finishes?
  split
  · exact absurd ‹_› (hw _ _)
  · rfl

theorem finishes?_of_reading {k : Nat} (hw : w.stage = .reading r k)
    (hr : r.Moves p.options sh.run.isRunning sh.service r' s' g) :
    w.finishes? p sh = if g = .ended ∧ r'.interrupted = false then some r.split else none := by
  simp only [finishes?, hw]
  exact hr.finishes?_eq

end Worker

/-- Notes the splits that are read to their end. -/
def Onlooker.finished (p : Plan) : Onlooker σ SplitId where
  worker w sh := w.finishes? p sh

/-- A failure to read a split, or to decode one of its batches. -/
def Failure.IsOf (e : Failure) (x : SplitId) : Prop :=
  (∃ attempts source, e = .stream x attempts source) ∨ ∃ batch source, e = .decode x batch source

namespace Worker

/-- A failure breaks off one of the splits `own`, of which `done` are read
to their end. -/
def BreaksOffBehind (own done : List SplitId) (e : Failure) : Prop :=
  ∃ x ∈ own, x ∉ done ∧ e.IsOf x

/-- Where worker `i` stands among the splits `own`, of which it has read
`done` to their end. -/
def Reads (own done : List SplitId) (i : Nat) (w : Worker) (sh : Shared σ) : Prop :=
  match w.stage with
  | .between => own = done ++ w.splits
  | .reading r _ | .emitting r .. =>
    (∀ i, r.stage ≠ .done i) ∧ own = done ++ r.split :: w.splits
  | .refused _ => True
  | .failing e | .leaving (.error e) => BreaksOffBehind own done e
  | .leaving (.ok _) => sh.run.isRunning = true → done = own
  | .left => ∀ res ∈ sh.resultsOf i,
    match res with
    | .ok _ => sh.run.isRunning = true → done = own
    | .error e => BreaksOffBehind own done e
  | .panicked => True

variable {own done : List SplitId}

theorem Reads.apart (h : w.Reads own done i sh) (ha : sh.Apart i own sh') :
    w.Reads own done i sh' := by
  unfold Reads at h ⊢
  split
  case h_7 hw =>
    simp only [hw] at h
    exact fun hrun => h (ha.run hrun)
  case h_8 hw =>
    simp only [hw] at h
    intro res hres
    rw [ha.results] at hres
    have := h res hres
    cases res with
    | ok rep => exact fun hrun => this (ha.run hrun)
    | error e => exact this
  all_goals simp_all

/-- **A worker reads its splits in order**, by its own steps. -/
theorem Reads.of_moves (hn : own.Nodup) (ha : w.Accounted i sh) (hb : w.Belongs i own)
    (h : w.Reads own done i sh) (hm : w.Moves p sink sh w' sh') :
    w'.Reads own (done ++ (w.finishes? p sh).toList) i sh' := by
  -- only the end of a reader adds to what is read
  have hsame : ∀ {v : Worker} {sh₁ : Shared σ}, (∀ r k, w.stage ≠ .reading r k) →
      v.Reads own done i sh₁ → v.Reads own (done ++ (w.finishes? p sh).toList) i sh₁ := by
    intro v sh₁ hw hv
    rwa [finishes?_eq_none hw, Option.toList_none, List.append_nil]
  have hgoes : ∀ {v : Worker} {sh₁ : Shared σ} {r r' : SplitReader} {k : Nat} {s' : Service}
      {g : Signal}, w.stage = .reading r k →
      r.Moves p.options sh.run.isRunning sh.service r' s' g →
      (g ≠ .ended ∨ r'.interrupted = true) → v.Reads own done i sh₁ →
      v.Reads own (done ++ (w.finishes? p sh).toList) i sh₁ := by
    intro v sh₁ r r' k s' g hw hr hg hv
    have hno : ¬ (g = .ended ∧ r'.interrupted = false) := by
      rintro ⟨h₁, h₂⟩
      rcases hg with hg | hg
      · exact hg h₁
      · rw [h₂] at hg
        cases hg
    rwa [finishes?_of_reading hw hr, if_neg hno, Option.toList_none, List.append_nil]
  -- the split in hand is not yet among those read
  have hbreaks : ∀ {r r' : SplitReader} {k : Nat} {s' : Service} {g : Signal} {e : Failure},
      w.stage = .reading r k → r.Moves p.options sh.run.isRunning sh.service r' s' g →
      e.IsOf r'.split → BreaksOffBehind own done e := by
    intro r r' k s' g e hw hr he
    simp only [Reads, hw] at h
    refine ⟨r'.split, by simp [h.2, hr.split_eq], fun hmem => ?_, he⟩
    rw [h.2, List.nodup_append] at hn
    exact hn.2.2 _ hmem _ (by simp [hr.split_eq]) rfl
  unfold Reads at h
  cases hm with
  | through hw hs =>
    simp only [hw] at h
    refine hsame (by simp [hw]) fun hrun => ?_
    rcases hs with hs | hs
    · rw [h, hs, List.append_nil]
    · rw [hs] at hrun
      cases hrun
  | take hw hx hrun =>
    simp only [hw] at h
    exact hsame (by simp [hw]) ⟨by simp, by rw [h, hx]⟩
  | read hw hr =>
    simp only [hw] at h
    refine hgoes hw hr (.inl nofun) ⟨hr.live rfl, ?_⟩
    rw [hr.split_eq]
    exact h.2
  | decode hw hr hd =>
    simp only [hw] at h
    refine hgoes hw hr (.inl nofun) ⟨hr.live rfl, ?_⟩
    rw [hr.split_eq]
    exact h.2
  | undecoded hw hr hd =>
    exact hgoes hw hr (.inl nofun) (hbreaks hw hr (.inr ⟨_, _, rfl⟩))
  | unread hw hr =>
    refine hgoes hw hr (.inl nofun) (hbreaks hw hr ?_)
    cases hr with
    | fail hf hfail hb => exact .inl ⟨_, _, rfl⟩
  | interrupted hw hr hi =>
    simp only [hw] at h
    refine hgoes hw hr (.inr hi) fun hrun => ?_
    have hgo : sh.run.isRunning = true := hrun
    rw [hr.running_eq_false h.1 hi] at hgo
    cases hgo
  | finish hw hr hi =>
    simp only [hw] at h
    rw [finishes?_of_reading hw hr, if_pos ⟨rfl, hi⟩]
    change own = (done ++ _) ++ w.splits
    rw [h.2, List.append_assoc]
    rfl
  | panic hw hr => exact hgoes hw hr (.inl nofun) trivial
  | emitted hw =>
    simp only [hw] at h
    exact hsame (by simp [hw]) h
  | accept hw ho =>
    simp only [hw] at h
    exact hsame (by simp [hw]) h
  | refuse hw ho => exact hsame (by simp [hw]) trivial
  | cancel hw =>
    refine hsame (by simp [hw]) fun hrun => ?_
    simp [close] at hrun
  | fail hw =>
    simp only [hw] at h
    exact hsame (by simp [hw]) h
  | leave hw =>
    rename_i res
    refine hsame (by simp [hw]) fun res' hres' => ?_
    have hnil := ha.present (by simp [hw])
    obtain rfl : res' = res := by
      rw [Shared.resultsOf, List.map_eq_nil_iff] at hnil
      simpa [Shared.resultsOf, List.filter_append, hnil, hb.worker] using hres'
    cases res' with
    | ok rep =>
      simp only [hw] at h
      exact h
    | error e =>
      simp only [hw] at h
      exact h

/-- A worker counts the splits it reads to their end. -/
theorem Moves.splits_eq (h : w.Moves p sink sh w' sh') :
    w'.report.splits = w.report.splits + (w.finishes? p sh).toList.length := by
  cases h with
  | read hw hr => simp [finishes?_of_reading hw hr]
  | decode hw hr hd => simp [finishes?_of_reading hw hr]
  | undecoded hw hr hd => simp [finishes?_of_reading hw hr, account]
  | unread hw hr => simp [finishes?_of_reading hw hr, account]
  | interrupted hw hr hi => simp [finishes?_of_reading hw hr, account, hi]
  | finish hw hr hi => simp [finishes?_of_reading hw hr, hi]
  | panic hw hr => simp [finishes?_of_reading hw hr]
  | _ =>
    rw [finishes?_eq_none (by simp [*])]
    simp [account]

end Worker

theorem Summary.total_set {ws : List Worker} (hw : ws[i]? = some w) (w' : Worker)
    (count : Report → Nat) :
    total count ((ws.set i w').map Worker.report) + count w.report =
      total count (ws.map Worker.report) + count w'.report := by
  induction ws generalizing i with
  | nil => cases hw
  | cons v ws ih =>
    cases i with
    | zero =>
      obtain rfl := Option.some.inj hw
      simp only [List.set_cons_zero, List.map_cons, total]
      omega
    | succ i =>
      have := ih (by simpa using hw)
      simp only [List.set_cons_succ, List.map_cons, total]
      omega

namespace Machine

/-- Where the workers of a run stand, which share out the splits as `own`
has it and have read those in `done` to their end. -/
structure HasRead (own : Nat → List SplitId) (done : List SplitId) (m : Machine σ) : Prop where
  reads : m.Each fun i w sh => w.Reads (own i) (done.filter (· ∈ own i)) i sh
  owned : ∀ x ∈ done, ∃ i, x ∈ own i
  count : Summary.total Report.splits (m.workers.map Worker.report) = done.length

variable {own : Nat → List SplitId} {done : List SplitId}

theorem HasRead.of_moves (hd : ∀ i j, i ≠ j → (own i).Disjoint (own j))
    (hn : ∀ i, (own i).Nodup) (h : m.HasRead own done) (hw : m.workers[i]? = some w)
    (hb : w.Belongs i (own i)) (ha : w.Accounted i m.shared)
    (hm : w.Moves p sink m.shared w' sh') :
    HasRead own (done ++ (w.finishes? p m.shared).toList) ⟨sh', m.workers.set i w'⟩ := by
  have hmem : ∀ x ∈ (w.finishes? p m.shared).toList, x ∈ own i := fun x hx =>
    hb.splits x (List.mem_append_left _
      (Worker.mem_inHand_of_finishes? (Option.mem_toList.1 hx)))
  refine ⟨fun j v hv => ?_, fun x hx => ?_, ?_⟩
  · have hi : i < m.workers.length := (List.getElem?_eq_some_iff.1 hw).1
    dsimp only
    rw [List.filter_append]
    by_cases hij : j = i
    · subst hij
      rw [List.getElem?_set_self hi] at hv
      obtain rfl := Option.some.inj hv
      have hself : (w.finishes? p m.shared).toList.filter (· ∈ own j) =
          (w.finishes? p m.shared).toList :=
        List.filter_eq_self.2 fun x hx => by simpa using hmem x hx
      rw [hself]
      exact (h.reads j w hw).of_moves (hn j) ha hb hm
    · have hnil : (w.finishes? p m.shared).toList.filter (· ∈ own j) = [] :=
        List.filter_eq_nil_iff.2 fun x hx hj => hd j i hij (by simpa using hj) (hmem x hx)
      rw [List.getElem?_set_ne (fun he => hij he.symm)] at hv
      rw [hnil, List.append_nil]
      exact (h.reads j v hv).apart (hm.apart hij (hd j i hij) hb)
  · rcases List.mem_append.1 hx with hx | hx
    · exact h.owned x hx
    · exact ⟨i, hmem x hx⟩
  · have hset := Summary.total_set hw w' Report.splits
    have hsplits := hm.splits_eq
    have hcount := h.count
    dsimp only
    rw [List.length_append]
    omega

end Machine

variable {c : EngineConfig} {t : Session} {selected : List String} {g : Ingestion}
variable {service : Service} {y : σ} {es : List (Event α)} {out : Outcome}

namespace Ingestion

/-- Every split of a session is owned by one of its workers. -/
theorem exists_mem_own (hg : ofSession c t selected = .ok g) (hx : x ∈ t.splits) :
    ∃ i, i < c.parallelism.toNat ∧ x ∈ g.own i := by
  obtain ⟨hp, -⟩ := ofSession_eq_ok hg
  obtain ⟨k, hk⟩ := List.mem_iff_getElem?.1 hx
  have hi : k % c.parallelism.toNat < c.parallelism.toNat := Nat.mod_lt _ hp
  refine ⟨k % c.parallelism.toNat, hi, List.mem_iff_getElem?.2 ⟨k / c.parallelism.toNat, ?_⟩⟩
  rw [own_eq hg hi, Assignment.splitsOf, getElem?_stride (by omega), Nat.max_eq_left hp,
    Nat.mod_add_div']
  exact hk

/-- The splits noted as read to their end are those that the workers have
read. -/
theorem hasRead (hg : ofSession c t selected = .ok g) (service : Service) (sink : Sink σ α)
    (y : σ) (es : List (Event α)) :
    (g.run service sink y es).HasRead g.own
      ((Onlooker.finished g.plan).notes g.plan sink (g.start service y) es) := by
  have hd : ∀ i j, i ≠ j → (g.own i).Disjoint (g.own j) := fun i j => disjoint_own hg
  refine Onlooker.run_notes (fun fs => (accounts hg service sink y fs).1) ?_ es ?_ ?_ ?_ ?_
  · intro w sh hs
    exact Worker.finishes?_eq_none fun r k hw => by
      rcases Worker.stage_of_step_eq_none hs with ⟨_, _, _, _, _, h⟩ | h | h <;> simp [hw] at h
  · refine ⟨fun i w hw => ?_, nofun, ?_⟩
    · obtain ⟨-, rfl⟩ := start_workers hg service y hw
      rfl
    · rw [start, List.map_map]
      generalize g.assignments = as
      induction as with
      | nil => rfl
      | cons a as ih =>
        rw [List.map_cons, Summary.total, ih]
        rfl
  · intro m done i w w' sh' h hw hI hm
    exact h.of_moves hd (nodup_own hg) hw hI.1 hI.2 hm
  · intro m done h
    refine ⟨fun i w hw => ?_, fun x hx => h.owned x (by simpa [Onlooker.finished] using hx), ?_⟩
    · simpa [Onlooker.finished] using
        (h.reads i w hw).apart (m.shared.apart_cancel i (g.own i))
    · simpa [Onlooker.finished] using h.count
  · intro m done a h
    exact ⟨fun i w hw => (h.reads i w hw).apart (m.shared.apart_act sink a i (g.own i)),
      h.owned, h.count⟩

/-- In a run that is over and was never stopped every split is read to its
end, once. -/
theorem perm_of_isRunning (hg : ofSession c t selected = .ok g) {m : Machine σ}
    {done : List SplitId} (hset : m.Settled g.own) (hlen : m.workers.length = c.parallelism.toNat)
    (hread : m.HasRead g.own done) (hrun : m.shared.run.isRunning = true) :
    done.Perm t.splits := by
  -- what is read of the splits of a worker is all of them
  have hown : ∀ i, i < c.parallelism.toNat → done.filter (· ∈ g.own i) = g.own i := by
    intro i hi
    have hw : m.workers[i]? = some m.workers[i] := List.getElem?_eq_getElem (by omega)
    have hreads := hread.reads i _ hw
    simp only [Worker.Reads, hset.stage_eq hw] at hreads
    obtain ⟨res, hres, -, herr⟩ := hset.result hw
    have hall := hreads res (by simp [hres])
    cases res with
    | ok rep => exact hall hrun
    | error e =>
      have hstopped := herr e rfl
      rw [hrun] at hstopped
      cases hstopped
  have hlt : ∀ {i x}, x ∈ g.own i → i < c.parallelism.toNat := fun {i x} hx => by
    by_contra hc
    rw [own_eq_nil hg (Nat.le_of_not_lt hc)] at hx
    cases hx
  have hnodup : done.Nodup := by
    refine List.nodup_iff_count_le_one.2 fun x => ?_
    by_cases hx : x ∈ done
    · obtain ⟨i, hi⟩ := hread.owned x hx
      have hcount : (done.filter (· ∈ g.own i)).count x = done.count x :=
        List.count_filter (by simpa using hi)
      rw [← hcount, hown i (hlt hi)]
      exact List.nodup_iff_count_le_one.1 (nodup_own hg i) x
    · rw [List.count_eq_zero_of_not_mem hx]
      exact Nat.zero_le 1
  refine (List.perm_ext_iff_of_nodup hnodup (ofSession_eq_ok hg).2.1).2 fun x => ⟨fun hx => ?_,
    fun hx => ?_⟩
  · obtain ⟨i, hi⟩ := hread.owned x hx
    exact (own_sublist hg i).subset hi
  · obtain ⟨i, hi, hxi⟩ := exists_mem_own hg hx
    rw [← hown i hi] at hxi
    exact (List.mem_filter.1 hxi).1

end Ingestion

/-! ## Outcomes -/

/-- How a run that is over ended, by its state. -/
theorem Machine.Settled.lifecycle_conclude {own : Nat → List SplitId} (hset : m.Settled own)
    (ht : m.TellsFailure) :
    m.shared.conclude.lifecycle =
      match m.shared.run with
      | .running => .completed
      | .failed => .failed
      | .cancelled => .cancelled := by
  cases hrun : m.shared.run with
  | cancelled => simp [Shared.conclude, hrun, RunState.wasCancelled, Outcome.lifecycle]
  | running =>
    have hnone : m.shared.failure? = none := by
      refine Shared.failure?_eq_none_iff.2 fun i => ?_
      by_contra hc
      obtain ⟨e, he⟩ := Shared.hasFailed_eq_true_iff.1 (by simpa using hc)
      have hi : i < m.workers.length := hset.sourced.results _ he
      obtain ⟨res, hres, -, herr⟩ := hset.result (List.getElem?_eq_getElem hi)
      have hmem := Shared.mem_resultsOf.2 he
      rw [hres, List.mem_singleton] at hmem
      have hstopped := herr e hmem.symm
      rw [hrun] at hstopped
      cases hstopped
    simp [Shared.conclude, hrun, hnone, RunState.wasCancelled, Outcome.lifecycle]
  | failed =>
    have hsome : m.shared.failure? ≠ none := by
      intro hnone
      rcases ht hrun with ⟨i, hi⟩ | ⟨w, hw, e, he⟩
      · rw [Shared.failure?_eq_none_iff.1 hnone i] at hi
        cases hi
      · obtain ⟨i, hi⟩ := List.mem_iff_getElem?.1 hw
        rw [hset.stage_eq hi] at he
        cases he
    obtain ⟨e, he⟩ := Option.ne_none_iff_exists'.1 hsome
    simp [Shared.conclude, hrun, he, RunState.wasCancelled, Outcome.lifecycle]

/-- **The outcome of a run is that of the first call to stop it.** Of the
calls that are to stop a run, in whatever order, only the first is answered
that it did, and the run stays as it left it. A run that is over was
completed when there was none, and then it read every split to its end and
counts them all. When the first was for a failure the run failed, with a
failure that some worker stopped the run for, on a split of the session
that was not read to its end. When it was for a request or a refused
record, the run was cancelled. -/
theorem outcome_of_causes (hg : Ingestion.ofSession c t selected = .ok g)
    (ho : (g.run service sink y es).outcome? = some out) :
    let calls := Onlooker.stops.notes g.plan sink (g.start service y)
    let causes := (calls es).map Prod.fst
    let finished := (Onlooker.finished g.plan).notes g.plan sink (g.start service y) es
    (∀ fs, calls fs = Cause.answered ((calls fs).map Prod.fst) ∧
      (g.run service sink y fs).shared.run = Cause.settle ((calls fs).map Prod.fst)) ∧
      out.lifecycle = Cause.lifecycle causes ∧
      (∀ summary, out = .completed summary →
        causes = [] ∧ finished.Perm t.splits ∧ summary.splits = t.splits.length) ∧
      (∀ e, out = .failed e →
        (g.run service sink y es).shared.run.wasCancelled = false ∧ .failure e ∈ causes ∧
          ∃ x ∈ t.splits, x ∉ finished ∧ e.IsOf x) ∧
      (∀ summary, out = .cancelled summary →
        ∃ rest, causes = .request :: rest ∨ causes = .refusal :: rest) := by
  intro calls causes finished
  obtain ⟨hset, hconclude⟩ := Ingestion.settled_of_outcome hg ho
  have hstop : ∀ fs, (g.run service sink y fs).StoppedBy (calls fs) := Machine.stoppedBy_run rfl
  have htell : (g.run service sink y es).TellsFailure := Machine.tellsFailure_run rfl es
  have hread := Ingestion.hasRead hg service sink y es
  have hlife : out.lifecycle = Cause.lifecycle causes := by
    rw [← hconclude, hset.lifecycle_conclude htell, (hstop es).run]
    change _ = Cause.lifecycle ((calls es).map Prod.fst)
    rcases (calls es).map Prod.fst with _ | ⟨c, cs⟩
    · rfl
    · cases c <;> rfl
  refine ⟨fun fs => ⟨(hstop fs).answers, (hstop fs).run⟩, hlife, ?_, ?_, ?_⟩
  · rintro summary rfl
    have hrun := Machine.isRunning_of_completed hset htell hconclude
    have hnone : causes = [] := by
      rcases hcs : causes with _ | ⟨c, cs⟩
      · rfl
      · rw [hcs] at hlife
        cases c <;> cases hlife
    have hperm := Ingestion.perm_of_isRunning hg hset
      (Ingestion.length_workers_run hg service sink y es) hread hrun
    refine ⟨hnone, hperm, ?_⟩
    -- no worker failed, so that all of their counts are in the summary
    obtain rfl := Shared.eq_ofReports_of_conclude (congrArg Outcome.result hconclude)
    have hall := Shared.hasFailed_eq_false_of_conclude hconclude
    rw [Summary.splits, hset.summary_eq, List.filter_eq_self.2 fun w _ => by simp [hall],
      hread.count]
    exact hperm.length_eq
  · rintro e rfl
    obtain ⟨i, hi⟩ := Shared.exists_of_conclude_failed hconclude
    have hw : (g.run service sink y es).workers[i]? = some _ :=
      List.getElem?_eq_getElem (hset.sourced.results _ hi)
    have hreads := hread.reads i _ hw
    simp only [Worker.Reads, hset.stage_eq hw] at hreads
    obtain ⟨x, hx, hnot, hof⟩ := hreads _ (Shared.mem_resultsOf.2 hi)
    refine ⟨?_, (Machine.tells_run (fun w hw => ?_) rfl es).left i e hi, x,
      (Ingestion.own_sublist hg i).subset hx, fun hmem => hnot ?_, hof⟩
    · by_contra hc
      simp [Shared.conclude, show (g.run service sink y es).shared.run.wasCancelled = true by
        simpa using hc] at hconclude
    · obtain ⟨a, -, rfl⟩ := List.mem_map.1 hw
      rfl
    · exact List.mem_filter.2 ⟨hmem, by simpa using hx⟩
  · rintro summary rfl
    rcases hcs : causes with _ | ⟨c, cs⟩
    · rw [hcs] at hlife
      cases hlife
    · rw [hcs] at hlife
      cases c with
      | request => exact ⟨cs, .inl rfl⟩
      | refusal => exact ⟨cs, .inr rfl⟩
      | failure e => cases hlife

/-- A split cannot be opened, and a request to cancel comes behind that: the
request is told that it came too late, and the run failed. -/
theorem failed_before_request :
    let service : Service :=
      { scripts := [(⟨"a"⟩, []), (⟨"b"⟩, [])], faults := [(⟨"a"⟩, [.onOpen .notFound])] }
    let es : List (Event Empty) :=
      List.replicate 5 (.step 0) ++ .cancel :: List.replicate 2 (.step 1)
    let m := Sample.ingestion.run service Sink.collecting () es
    let e : Failure := .stream ⟨"a"⟩ 1 ⟨.notFound, .openFault ⟨"a"⟩, none⟩
    m.outcome? = some (.failed e) ∧
      Onlooker.stops.notes Sample.ingestion.plan Sink.collecting
        (Sample.ingestion.start service ()) es = [(.failure e, true), (.request, false)] ∧
      ∃ x ∈ Sample.session.splits,
        x ∉ (Onlooker.finished Sample.ingestion.plan).notes Sample.ingestion.plan Sink.collecting
          (Sample.ingestion.start service ()) es ∧ e.IsOf x := by
  intro service es m e
  have ho : m.outcome? = some (.failed e) := by decide +kernel
  obtain ⟨-, -, -, hfailed, -⟩ := outcome_of_causes Sample.ofSession_session ho
  obtain ⟨-, -, hsplit⟩ := hfailed e rfl
  exact ⟨ho, by decide +kernel, hsplit⟩

end Intake
