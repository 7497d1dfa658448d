import Intake.Proofs.Progress
import Intake.Proofs.Solo
/-!
# Cancellation is prompt and silent

A worker that goes on after the run is cancelled winds down: it finishes
the batch in hand, makes no call, and leaves (`Worker.Winds`). A worker
whose call arrives as the run is cancelled makes that call and winds down
behind it, with at most the one batch that the call yields. Whatever goes
wrong with this call or batch is not reported (`cancelled_promptly`).
-/

namespace Intake

variable {σ α : Type} {p : Plan} {sink : Sink σ α} {sh sh' : Shared σ} {w w' : Worker}
variable {r : SplitReader} {src : Service}
variable {own : List SplitId} {i k : Nat} {calls : List ReadCall} {got total : List Record}

/-! ## Readers of a run that has stopped -/

namespace SplitReader

variable {o : ReadOptions} {running : Bool} {r' : SplitReader} {s s' : Service} {g : Signal}

/-- A reader that is not about to fetch ends. -/
theorem Moves.ended_of_stopped (h : Moves o false r s r' s' g) (hr : r.stage ≠ .fetching) :
    g = .ended := by
  cases h with
  | through hd => rfl
  | look hl hrun => cases hrun
  | resume hl hrun => cases hrun
  | interrupt hl hrun => rfl
  | retry hf => exact absurd hf hr
  | fail hf => exact absurd hf hr
  | batch hf => exact absurd hf hr
  | panic hf => exact absurd hf hr
  | finish hf => exact absurd hf hr

/-- A reader never fetches twice without looking whether the run goes on. -/
theorem Moves.stage_ne_fetching (h : Moves o running r s r' s' g) (hr : r.stage = .fetching) :
    r'.stage ≠ .fetching := by
  cases h <;> simp_all [SplitReader.finish]

theorem stage_of_callsNext (h : r.callsNext = true) : r.stage = .fetching := by
  simp only [callsNext, Bool.and_eq_true, beq_iff_eq] at h
  exact h.1

end SplitReader

/-! ## Workers wind down -/

namespace Worker

/-- Whether the next step of a worker makes a call. -/
def callsNext (w : Worker) : Bool :=
  match w.stage with
  | .reading r _ => r.callsNext
  | _ => false

theorem exists_of_callsNext (h : w.callsNext = true) :
    ∃ r k, w.stage = .reading r k ∧ r.callsNext = true := by
  unfold callsNext at h
  split at h
  · exact ⟨_, _, ‹_›, h⟩
  · cases h

/-- What the records `got` will come to, if a worker makes no call any more:
they, and what is left of the batch in hand. -/
def Completes (w : Worker) (got total : List Record) : Prop :=
  match w.stage with
  | .reading r _ => r.stage ≠ .fetching ∧ got = total
  | .emitting r _ rest _ _ => r.stage ≠ .fetching ∧ got ++ rest = total
  | .refused _ | .panicked => False
  | _ => got = total

/-- A worker of a cancelled run, with the calls that the run will have made
and the records that the sink will have taken. -/
structure Winds (w : Worker) (sh : Shared σ) (calls : List ReadCall) (total : List Record) :
    Prop where
  run : sh.run = .cancelled
  calls : sh.service.calls = calls
  completes : w.Completes sh.records total

/-- A worker that completes its batch makes no call. -/
theorem Completes.noting_eq (h : w.Completes got total) (s : Service) : w.noting p s = s := by
  unfold Completes at h
  unfold noting
  split
  · rename_i r k hw
    simp only [hw] at h
    exact SplitReader.noting_of_ne_fetching h.1 _ _
  · rfl

/-- **A worker of a cancelled run winds down** by its own steps. -/
theorem Winds.of_moves (hs : ∀ y running n x z, sink.offer y running n x ≠ .refused z)
    (h : w.Winds sh calls total) (hm : w.Moves p sink sh w' sh') : w'.Winds sh' calls total := by
  obtain ⟨hrun, rfl, hcompletes⟩ := h
  have hcalls : sh'.service.calls = sh.service.calls := by
    rw [hm.alike.calls, hcompletes.noting_eq]
  unfold Completes at hcompletes
  -- a reader can only end
  have hended : ∀ {r r' : SplitReader} {k : Nat} {s' : Service} {g : Signal},
      w.stage = .reading r k → r.Moves p.options sh.run.isRunning sh.service r' s' g →
      g = .ended ∧ sh.records = total := by
    intro r r' k s' g hw hr
    simp only [hw] at hcompletes
    rw [hrun] at hr
    exact ⟨hr.ended_of_stopped hcompletes.1, hcompletes.2⟩
  cases hm with
  | through hw h =>
    simp only [hw] at hcompletes
    exact ⟨hrun, hcalls, hcompletes⟩
  | take hw hx hgoes =>
    rw [hrun] at hgoes
    cases hgoes
  | read hw hr => cases (hended hw hr).1
  | decode hw hr hd => cases (hended hw hr).1
  | undecoded hw hr hd => cases (hended hw hr).1
  | unread hw hr => cases (hended hw hr).1
  | interrupted hw hr hi => exact ⟨hrun, hcalls, (hended hw hr).2⟩
  | finish hw hr hi => exact ⟨hrun, hcalls, (hended hw hr).2⟩
  | panic hw hr => cases (hended hw hr).1
  | emitted hw =>
    simp only [hw, List.append_nil] at hcompletes
    exact ⟨hrun, hcalls, hcompletes⟩
  | accept hw ho =>
    simp only [hw] at hcompletes
    refine ⟨hrun, hcalls, hcompletes.1, ?_⟩
    rw [Shared.records_push, List.append_assoc]
    exact hcompletes.2
  | refuse hw ho => exact absurd ho (hs _ _ _ _ _)
  | cancel hw => simp [hw] at hcompletes
  | fail hw =>
    simp only [hw] at hcompletes
    refine ⟨?_, hcalls, hcompletes⟩
    change sh.run.fail = .cancelled
    rw [hrun]
    rfl
  | leave hw =>
    simp only [hw] at hcompletes
    exact ⟨hrun, hcalls, hcompletes⟩

/-- **A worker that is about to call makes this call and winds down**, with
at most the batch that the call yields, if the rows of its split can all be
counted. -/
theorem Amid.winds_of_moves (hamid : w.Amid p src own r [] sh.records)
    (hrows : rowTotal ((src.script? r.split).getD []) < UInt64.size)
    (hscripts : sh.service.scripts = src.scripts) (hrun : sh.run = .cancelled)
    (hw : w.stage = .reading r k) (hr : r.callsNext = true) (hm : w.Moves p sink sh w' sh') :
    ∃ got, w'.Winds sh' (sh.service.calls ++ [r.call p.options]) (sh.records ++ got) ∧
      (got = [] ∨ ∃ front, p.Reads src own (front ++ [got]) ∧ sh.records = front.flatten) := by
  have hfetch := SplitReader.stage_of_callsNext hr
  have hcalls : sh'.service.calls = sh.service.calls ++ [r.call p.options] := by
    rw [hm.alike.calls, noting_of_reading hw, SplitReader.noting_of_callsNext hr,
      Service.calls_note]
  have hnil : sh.records ++ [] = sh.records := List.append_nil _
  cases hm with
  | read hw' hm =>
    cases hw.symm.trans hw'
    exact ⟨[], ⟨hrun, hcalls, hm.stage_ne_fetching hfetch, hnil.symm⟩, .inl rfl⟩
  | decode hw' hm hd =>
    cases hw.symm.trans hw'
    exact ⟨_, ⟨hrun, hcalls, hm.stage_ne_fetching hfetch, rfl⟩, .inr (hamid.reads hscripts hm hd)⟩
  | undecoded hw' hm hd => exact ⟨[], ⟨hrun, hcalls, hnil.symm⟩, .inl rfl⟩
  | unread hw' hm => exact ⟨[], ⟨hrun, hcalls, hnil.symm⟩, .inl rfl⟩
  | interrupted hw' hm hi => exact ⟨[], ⟨hrun, hcalls, hnil.symm⟩, .inl rfl⟩
  | finish hw' hm hi => exact ⟨[], ⟨hrun, hcalls, hnil.symm⟩, .inl rfl⟩
  | panic hw' hm =>
    cases hw.symm.trans hw'
    obtain ⟨xs, hstands⟩ := hamid.stands
    exact absurd hm (hstands.not_panicked hscripts hrows)
  | _ => simp_all

/-! ## What the sink has of the batch in hand -/

/-- The records `got` that the sink took are those of whole batches and
some of the batch in hand, behind which the reader looks whether the run
goes on. -/
def Offers (p : Plan) (src : Service) (own : List SplitId) (w : Worker) (got : List Record) :
    Prop :=
  match w.stage with
  | .emitting r _ rest _ _ => r.stage ≠ .fetching ∧
      ∃ front given, p.Reads src own (front ++ [given ++ rest]) ∧ got = front.flatten ++ given
  | _ => True

theorem Offers.of_moves (hb : w.Belongs i own) (ht : w.Tracks p src own i sh)
    (h : w.Offers p src own (sh.recordsFrom i)) (hm : w.Moves p sink sh w' sh') :
    w'.Offers p src own (sh'.recordsFrom i) := by
  obtain ⟨hs, hd⟩ := ht
  unfold HasDelivered at hd
  unfold Offers at h
  cases hm with
  | decode hw hr hdec =>
    simp only [hw] at hd
    obtain ⟨front, hreads, hgot⟩ := hd.reads hs hr hdec
    refine ⟨?_, front, [], hreads, by rw [List.append_nil]; exact hgot⟩
    cases hr with
    | batch hl ho hn => simp
  | accept hw ho =>
    simp only [hw] at h
    obtain ⟨hl, front, given, hreads, hgot⟩ := h
    rename_i r k rows bytes x rest y
    have hrecords := Shared.recordsFrom_push sh y (d := ⟨w.report.worker, r.split, x⟩) hb.worker
    rw [hrecords]
    exact ⟨hl, front, given ++ [x], by simpa using hreads, by simp [hgot]⟩
  | _ => trivial

/-- The sink takes a record from a worker with a batch in hand. -/
theorem Moves.exists_accept (h : w.Moves p sink sh w' sh')
    (hd : sh.delivered.size < sh'.delivered.size) :
    ∃ r k x rest rows bytes, w.stage = .emitting r k (x :: rest) rows bytes ∧
      w'.stage = .emitting r k rest rows bytes ∧ sh'.records = sh.records ++ [x] := by
  cases h with
  | accept hw ho => exact ⟨_, _, _, _, _, _, hw, rfl, Shared.records_push _ _ _⟩
  | _ => simp [close] at hd

/-- A run that failed is one that its worker leaves with a failure. -/
def Unfailed (w : Worker) (sh : Shared σ) : Prop :=
  sh.run = .failed → (∃ e, w.stage = .leaving (.error e)) ∨ w.stage = .left

theorem Unfailed.of_moves (h : w.Unfailed sh) (hm : w.Moves p sink sh w' sh') :
    w'.Unfailed sh' := by
  intro hf
  rcases hm.run_eq_failed hf with hf | he
  · rcases h hf with ⟨e, hw⟩ | hw
    · cases hm with
      | leave hl => exact .inr rfl
      | _ => simp_all
    · cases hm <;> simp_all
  · exact .inl he

/-- A worker that is not at its end can be cancelled. -/
theorem Unfailed.run_cancel (h : w.Unfailed sh)
    (hw : ∀ e, w.stage ≠ .leaving (.error e)) (hl : w.stage ≠ .left) :
    sh.cancel.run = .cancelled := by
  have hf : sh.run ≠ .failed := fun hf => (h hf).elim (fun ⟨e, he⟩ => hw e he) hl
  change sh.run.cancel = .cancelled
  cases hrun : sh.run with
  | running => rfl
  | cancelled => rfl
  | failed => exact absurd hrun hf

end Worker

/-! ## Runs that are cancelled -/

namespace Machine

variable {m : Machine σ}

/-- How a run ends that is cancelled: with these calls made and these
records taken. -/
structure EndsCancelled (m : Machine σ) (calls : List ReadCall) (records : List Record) :
    Prop where
  outcome : ∃ summary, m.outcome? = some (.cancelled summary)
  calls : m.shared.service.calls = calls
  records : m.shared.records = records

/-- The step at which the sink takes a record is one of the worker. -/
theorem exists_moves (hm : m.workers = [w]) (e : Event α)
    (hd : m.shared.delivered.size < (m.apply p sink e).shared.delivered.size) :
    ∃ w' sh', m.apply p sink e = ⟨sh', [w']⟩ ∧ w.Moves p sink m.shared w' sh' := by
  refine apply_cases (Q := fun m' => m.shared.delivered.size < m'.shared.delivered.size →
    ∃ w' sh', m' = ⟨sh', [w']⟩ ∧ w.Moves p sink m.shared w' sh') e
    (fun h => absurd h (Nat.lt_irrefl _)) ?_ (fun _ h => absurd h (Nat.lt_irrefl _))
    (fun _ h => absurd h (Nat.lt_irrefl _)) hd
  intro i v v' sh' hv hmoves _
  rw [hm, List.getElem?_singleton] at hv
  split at hv
  · rename_i hi
    obtain rfl := Option.some.inj hv
    exact ⟨v', sh', by rw [hm, hi]; rfl, hmoves⟩
  · cases hv

/-- A run whose worker has wound down ends cancelled. -/
theorem endsCancelled_of_winds (hm : m.workers = [w]) (h : w.Winds m.shared calls total)
    (hover : m.isOver = true) : m.EndsCancelled calls total := by
  have hcompletes := h.completes
  unfold Worker.Completes at hcompletes
  rcases Worker.stage_of_isGone (List.all_eq_true.1 hover w (by simp [hm])) with hw | hw
  · rw [hw] at hcompletes
    have hleft : m.allLeft = true := by simp [allLeft, hm, Worker.hasLeft, hw]
    refine ⟨⟨.ofReports m.shared.reports, ?_⟩, h.calls, hcompletes⟩
    simp [outcome?, hleft, Shared.conclude, h.run, RunState.wasCancelled]
  · rw [hw] at hcompletes
    exact hcompletes.elim

/-- **A run whose worker winds down ends cancelled.** -/
theorem endsCancelled_run (hs : ∀ y running n x z, sink.offer y running n x ≠ .refused z)
    (hm : m.workers = [w]) (h : w.Winds m.shared calls total) (fs : List (Event α))
    (hover : (m.run p sink fs).isOver = true) : (m.run p sink fs).EndsCancelled calls total := by
  obtain ⟨v, hv, hwinds⟩ := run_alone (I := fun w sh => w.Winds sh calls total) hm h fs
    (fun h hm => h.of_moves hs hm) (fun h => ⟨by simp [Shared.cancel, h.run]; rfl, h.2, h.3⟩)
    fun _ h => ⟨h.1, h.2, h.3⟩
  exact endsCancelled_of_winds hv hwinds hover

/-- **A run that is cancelled as a call arrives ends behind this call**, and
behind the batch that it yields. -/
theorem endsCancelled_of_call (hs : ∀ y running n x z, sink.offer y running n x ≠ .refused z)
    (hm : m.workers = [w]) (hamid : w.Amid p src own r [] m.shared.records)
    (hrows : rowTotal ((src.script? r.split).getD []) < UInt64.size)
    (hscripts : m.shared.service.scripts = src.scripts) (hrun : m.shared.run = .cancelled)
    (hw : w.stage = .reading r k) (hr : r.callsNext = true) (fs : List (Event α))
    (hover : (m.run p sink fs).isOver = true) :
    ∃ got, (m.run p sink fs).EndsCancelled (m.shared.service.calls ++ [r.call p.options])
        (m.shared.records ++ got) ∧
      (got = [] ∨ ∃ front, p.Reads src own (front ++ [got]) ∧
        m.shared.records = front.flatten) := by
  -- until the worker moves its call is to come, and then it winds down
  induction fs generalizing m with
  | nil =>
    -- the worker has not left
    have hl : w.isGone = true := List.all_eq_true.1 hover w (by simp [Machine.run, hm])
    simp [Worker.isGone, Worker.hasLeft, Worker.hasPanicked, hw] at hl
  | cons e fs ih =>
    cases e with
    | cancel =>
      refine ih (m := { m with shared := m.shared.cancel }) hm hamid hscripts ?_ hover
      change m.shared.run.cancel = .cancelled
      rw [hrun]
      rfl
    | act a =>
      exact ih (m := { m with shared := m.shared.act sink a }) hm hamid hscripts hrun hover
    | step i =>
      cases i with
      | succ i =>
        have hstay : m.apply p sink (.step (i + 1)) = m := by simp [apply, hm]
        rw [run, List.foldl_cons, hstay] at hover ⊢
        exact ih hm hamid hscripts hrun hover
      | zero =>
        obtain ⟨⟨w', sh'⟩, hs'⟩ : ∃ q, w.step p sink m.shared = some q :=
          ⟨_, by rw [Worker.step, hw]⟩
        have hmoved : m.apply p sink (.step 0) = ⟨sh', m.workers.set 0 w'⟩ :=
          apply_step (by simp [hm]) hs'
        rw [run, List.foldl_cons, hmoved] at hover ⊢
        obtain ⟨got, hwinds, hgot⟩ :=
          hamid.winds_of_moves hrows hscripts hrun hw hr (Worker.moves_of_step hs')
        exact ⟨got, endsCancelled_run hs (by simp [hm]) hwinds fs hover, hgot⟩

end Machine

variable {c : EngineConfig} {t : Session} {selected : List String} {g : Ingestion}
variable {service : Service} {y : σ} {es : List (Event α)}

namespace Ingestion

/-- What holds of the one worker throughout a run. -/
theorem exists_solo (hg : ofSession c t selected = .ok g) (hp : c.parallelism = 1)
    (service : Service) (sink : Sink σ α) (y : σ) (es : List (Event α)) :
    ∃ w, (g.run service sink y es).workers = [w] ∧
      (g.run service sink y es).shared.service.scripts = service.scripts ∧
      w.HasDelivered g.plan service t.splits (g.run service sink y es).shared.run.isRunning
        (g.run service sink y es).shared.records ∧
      w.Offers g.plan service t.splits (g.run service sink y es).shared.records ∧
      w.Unfailed (g.run service sink y es).shared := by
  have hstart := workers_solo hg hp service y
  obtain ⟨w, hw, hunfailed⟩ : ∃ w, (g.run service sink y es).workers = [w] ∧
      w.Unfailed (g.run service sink y es).shared :=
    Machine.run_alone hstart nofun es (fun h hm => h.of_moves hm)
      (fun h hf => h (RunState.eq_failed_of_cancel hf)) fun _ h => h
  have heach : (g.run service sink y es).Each fun i w sh => w.Belongs i (g.own i) ∧
      w.Tracks g.plan service (g.own i) i sh ∧
      w.Offers g.plan service (g.own i) (sh.recordsFrom i) := by
    refine Machine.each_run (fun i j => disjoint_own hg) (belongs_start hg service y) ?_ ?_ ?_ es
    · intro i w hw
      obtain ⟨-, rfl⟩ := start_workers hg service y hw
      exact ⟨.start rfl rfl rfl, trivial⟩
    · intro i w sh w' sh' hb h hm
      exact ⟨h.1.of_moves hb hm, h.2.of_moves hb h.1 hm⟩
    · intro i w sh sh' hb h ha
      exact ⟨h.1.apart ha, by rw [ha.records]; exact h.2⟩
  obtain ⟨-, htracks, hoffers⟩ := heach 0 w (by simp [hw])
  rw [own_solo hg hp] at htracks hoffers
  rw [recordsFrom_solo hg hp] at hoffers
  have hdelivered := htracks.delivered
  rw [recordsFrom_solo hg hp] at hdelivered
  exact ⟨w, hw, htracks.scripts, hdelivered, hoffers, hunfailed⟩

theorem run_cancel (g : Ingestion) (service : Service) (sink : Sink σ α) (y : σ)
    (es fs : List (Event α)) :
    g.run service sink y (es ++ .cancel :: fs) = Machine.run g.plan sink
      { g.run service sink y es with shared := (g.run service sink y es).shared.cancel } fs :=
  Machine.run_append _ _ _ _ _

end Ingestion

/-- **Cancellation is prompt and silent.** Take a run of one worker into a
sink that refuses nothing. When it is cancelled as a call arrives, this
call is the last, and what the sink takes behind it is nothing or the
records of one batch, which comes next in the splits. When it is cancelled
right behind a record, no further call is made, and the records end with
the batch of this record. When it is cancelled at its start, no call is made
and no record taken. However the call or the batch in hand fares, the run
ends cancelled; and it ends when the sink takes every record. -/
theorem cancelled_promptly (hg : Ingestion.ofSession c t selected = .ok g)
    (hp : c.parallelism = 1)
    (hrows : ∀ y ∈ t.splits, ∀ bs, service.script? y = some bs → rowTotal bs < UInt64.size)
    (hs : ∀ y running n x z, sink.offer y running n x ≠ .refused z) :
    (∀ es w r k fs, (g.run service sink y es).workers = [w] → w.stage = .reading r k →
      r.callsNext = true → (g.run service sink y (es ++ .cancel :: fs)).isOver = true →
      ∃ got, (g.run service sink y (es ++ .cancel :: fs)).EndsCancelled
          ((g.run service sink y es).shared.service.calls ++ [r.call g.plan.options])
          ((g.run service sink y es).shared.records ++ got) ∧
        (got = [] ∨ ∃ front, front ++ [got] <+: g.plan.readable service t.splits ∧
          (g.run service sink y es).shared.records = front.flatten)) ∧
    (∀ es e fs, (g.run service sink y es).shared.delivered.size <
        (g.run service sink y (es ++ [e])).shared.delivered.size →
      (g.run service sink y (es ++ e :: .cancel :: fs)).isOver = true →
      ∃ front given rest, front ++ [given ++ rest] <+: g.plan.readable service t.splits ∧
        given ≠ [] ∧ (g.run service sink y (es ++ [e])).shared.records = front.flatten ++ given ∧
        (g.run service sink y (es ++ e :: .cancel :: fs)).EndsCancelled
          (g.run service sink y (es ++ [e])).shared.service.calls
          (front.flatten ++ (given ++ rest))) ∧
    (∀ fs, (g.run service sink y (.cancel :: fs)).isOver = true →
      (g.run service sink y (.cancel :: fs)).EndsCancelled service.calls []) ∧
    (sink.Accepts → ∀ es f, Machine.IsFair 1 f →
      ∃ k, ((g.run service sink y (es ++ [.cancel])).upTo g.plan sink f k).isOver = true) := by
  refine ⟨?_, ?_, ?_, ?_⟩
  · intro es w r k fs hw hst hr hover
    obtain ⟨v, hv, hscripts, hdelivered, -, hunfailed⟩ :=
      Ingestion.exists_solo hg hp service sink y es
    obtain rfl := (List.cons.inj (hw.symm.trans hv)).1
    rw [Worker.HasDelivered, hst] at hdelivered
    have hmem : r.split ∈ t.splits := by
      obtain ⟨done, recs, xs, hown, -⟩ := hdelivered
      simp [hown]
    rw [Ingestion.run_cancel] at hover ⊢
    obtain ⟨got, hends, hgot⟩ := Machine.endsCancelled_of_call
      (m := { g.run service sink y es with shared := (g.run service sink y es).shared.cancel })
      hs hw hdelivered (Service.rowTotal_getD_lt (hrows _ hmem)) hscripts
      (hunfailed.run_cancel (by simp [hst]) (by simp [hst])) hst hr fs
      hover
    refine ⟨got, hends, hgot.imp_right ?_⟩
    rintro ⟨front, hreads, hfront⟩
    exact ⟨front, hreads.begins, hfront⟩
  · intro es e fs hlt hover
    obtain ⟨w, hw, -, -, hoffers, -⟩ := Ingestion.exists_solo hg hp service sink y es
    obtain ⟨v, hv, -, -, -, hunfailed⟩ := Ingestion.exists_solo hg hp service sink y (es ++ [e])
    have happly : g.run service sink y (es ++ [e]) =
        (g.run service sink y es).apply g.plan sink e := Machine.run_append _ _ _ _ _
    rw [happly] at hlt
    obtain ⟨w', sh', hmoved, hmoves⟩ := Machine.exists_moves hw e hlt
    rw [hmoved] at hlt happly
    rw [happly] at hv hunfailed ⊢
    obtain rfl := (List.cons.inj hv).1
    obtain ⟨r, k, x, rest, rows, bytes, hst, hst', hrecords⟩ := hmoves.exists_accept hlt
    rw [Worker.Offers, hst] at hoffers
    obtain ⟨hl, front, given, hreads, hgot⟩ := hoffers
    rw [hgot, List.append_assoc] at hrecords
    refine ⟨front, given ++ [x], rest, by simpa using hreads.begins, by simp, hrecords, ?_⟩
    rw [← List.singleton_append, ← List.append_assoc, Ingestion.run_cancel, happly] at hover ⊢
    refine Machine.endsCancelled_run (w := w') hs rfl ?_ fs hover
    refine ⟨hunfailed.run_cancel (by simp [hst']) (by simp [hst']), rfl, ?_⟩
    rw [Worker.Completes, hst']
    refine ⟨hl, ?_⟩
    change sh'.records ++ rest = _
    rw [hrecords]
    simp
  · intro fs hover
    have hstart := Ingestion.workers_solo hg hp service y
    exact Machine.endsCancelled_run
      (m := { g.start service y with shared := (g.start service y).shared.cancel })
      hs hstart ⟨rfl, rfl, rfl⟩ fs hover
  · intro hs es f hf
    refine Machine.exists_isOver hs ?_
    rw [Ingestion.length_workers_run hg, hp]
    exact hf

namespace Sample

/-- So many steps of the first worker before the run is cancelled, and so
many behind. -/
def cancelledBehind (before behind : Nat) : List (Event Empty) :=
  steps before ++ .cancel :: steps behind

theorem rowTotal_broken :
    ∀ y ∈ session.splits, ∀ bs, broken.script? y = some bs → rowTotal bs < UInt64.size :=
  Service.rowTotal_lt (by decide)

end Sample

/-- Cancelled behind the first record of a batch of two, the run ends with
both; cancelled as the call arrives that yields a broken batch, it ends
behind this call, and does not fail. -/
theorem cancelled_with_broken_batch :
    let inside := Sample.solo.run Sample.broken Sink.collecting () (Sample.cancelledBehind 4 6)
    let calling := Sample.solo.run Sample.broken Sink.collecting () (Sample.cancelledBehind 10 3)
    (inside.outcome?.map Outcome.lifecycle = some .cancelled ∧
        inside.shared.records = [⟨[.int64 5]⟩, ⟨[.int64 6]⟩] ∧
        inside.shared.service.calls.length = 1) ∧
      calling.outcome?.map Outcome.lifecycle = some .cancelled ∧
        calling.shared.records = [⟨[.int64 5]⟩, ⟨[.int64 6]⟩] ∧
        calling.shared.service.calls.length = 2 := by
  intro inside calling
  obtain ⟨hcall, hrecord, -, -⟩ := @cancelled_promptly _ _ Sink.collecting _ _ _ _ Sample.broken ()
    Sample.ofSession_solo rfl Sample.rowTotal_broken (by simp [Sink.collecting])
  constructor
  · obtain ⟨front, given, rest, -, -, -, hends⟩ := hrecord (Sample.steps 3) (.step 0)
      (Sample.steps 6) (by decide +kernel) (by decide +kernel)
    obtain ⟨summary, ho⟩ := hends.outcome
    have ho : inside.outcome? = some (.cancelled summary) := ho
    exact ⟨by rw [ho]; rfl, by decide +kernel, by decide +kernel⟩
  · -- the next step of the worker is its second call
    obtain ⟨w, hw, -⟩ := Ingestion.exists_solo Sample.ofSession_solo rfl Sample.broken
      Sink.collecting () (Sample.steps 10)
    have hnext : (Sample.solo.run Sample.broken Sink.collecting ()
        (Sample.steps 10)).workers.any Worker.callsNext = true := by decide +kernel
    rw [hw, List.any_cons, List.any_nil, Bool.or_false] at hnext
    obtain ⟨r, k, hst, hr⟩ := Worker.exists_of_callsNext hnext
    obtain ⟨got, hends, -⟩ := hcall _ w r k (Sample.steps 3) hw hst hr (by decide +kernel)
    obtain ⟨summary, ho⟩ := hends.outcome
    have ho : calling.outcome? = some (.cancelled summary) := ho
    exact ⟨by rw [ho]; rfl, by decide +kernel, by decide +kernel⟩

end Intake
