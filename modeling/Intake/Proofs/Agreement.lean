import Intake.Proofs.Outcomes
import Intake.Proofs.Streams
import Mathlib.Logic.Function.Basic
/-!
# Counters and reports agree

A worker keeps two books: its report, which it hands in when it leaves, and
the counters of the run. Both are written at many places of its loop, at
any of which the run may stop. Still a step adds the same to both
(`Worker.Adds`), so that the counters are the sums of the reports at every
moment. The counter of bytes has no count beside it in the reports. It is
held against a ledger of the batches that workers took in hand and of those
they got through, which an onlooker keeps (`Ingestion.ledger`).

A reader that goes on has made one call for each retry and one for the
stream it holds. So as long as nothing stops a run, its calls are the
retries, one for each split that was read to its end, and those of the
readers in hand (`Machine.TellsCalls`).

Main statement: when a run is over and no worker has failed, the counters
are what the summary says, and the calls of a run that was completed are
one for each split more than the retries (`counters_agree`).
-/

namespace Intake

variable {σ α : Type} {p : Plan} {sink : Sink σ α} {sh sh' : Shared σ} {w w' : Worker}
variable {m : Machine σ} {i : Nat}

/-! ## Two books -/

namespace Worker

/-- A step adds the same to a count of the report of its worker and to a
counter of the run. -/
def Adds (count : Report → Nat) (get : Counters → UInt64) (w w' : Worker) (sh sh' : Shared σ) :
    Prop :=
  ∃ k, count w'.report = count w.report + k ∧
    get sh'.counters = get sh.counters + UInt64.ofNat k

theorem Moves.adds_batches (h : w.Moves p sink sh w' sh') :
    w.Adds Report.batches Counters.batches w' sh sh' := by
  cases h with
  | emitted hw => exact ⟨1, rfl, rfl⟩
  | _ => exact ⟨0, rfl, (UInt64.add_zero _).symm⟩

theorem Moves.adds_splits (h : w.Moves p sink sh w' sh') :
    w.Adds Report.splits Counters.splits w' sh sh' := by
  cases h with
  | finish hw hr hi => exact ⟨1, rfl, rfl⟩
  | _ => exact ⟨0, rfl, (UInt64.add_zero _).symm⟩

/-- The retries of a reader are counted in both books when the worker has no
more use for it, whatever the reason. -/
theorem Moves.adds_retries (h : w.Moves p sink sh w' sh') :
    w.Adds Report.retries Counters.retries w' sh sh' := by
  cases h with
  | undecoded hw hr hd => exact ⟨_, rfl, rfl⟩
  | unread hw hr => exact ⟨_, rfl, rfl⟩
  | interrupted hw hr hi => exact ⟨_, rfl, rfl⟩
  | finish hw hr hi => exact ⟨_, rfl, rfl⟩
  | cancel hw => exact ⟨_, rfl, rfl⟩
  | _ => exact ⟨0, rfl, (UInt64.add_zero _).symm⟩

end Worker

/-- **A counter is the sum of the reports** after every list of events, if
each step adds the same to both. -/
theorem Machine.counter_run {count : Report → Nat} {get : Counters → UInt64}
    (hadds : ∀ {w w' : Worker} {sh sh' : Shared σ}, w.Moves p sink sh w' sh' →
      w.Adds count get w' sh sh')
    (h : get m.shared.counters = UInt64.ofNat (Summary.total count (m.workers.map Worker.report)))
    (es : List (Event α)) :
    get (m.run p sink es).shared.counters =
      UInt64.ofNat (Summary.total count ((m.run p sink es).workers.map Worker.report)) := by
  refine run_induction (Q := fun m => get m.shared.counters =
    UInt64.ofNat (Summary.total count (m.workers.map Worker.report))) es h ?_
    (fun _ h => h) fun _ _ h => h
  intro m i w w' sh' h hw hm
  obtain ⟨k, hcount, hget⟩ := hadds hm
  have hset := Summary.total_set hw w' count
  have htotal : Summary.total count ((m.workers.set i w').map Worker.report) =
      Summary.total count (m.workers.map Worker.report) + k := by omega
  dsimp only
  rw [hget, h, htotal, UInt64.ofNat_add]

/-! ## The ledger of batches -/

/-- An entry of the ledger. -/
inductive Entry where
  /-- the reader of a worker hands out a batch -/
  | taken (worker : Nat) (b : Batch)
  /-- a worker is through with the batch in hand -/
  | counted (worker : Nat)

/-- The number of the worker that an entry is about. -/
def Entry.worker : Entry → Nat
  | .taken i _ | .counted i => i

/-- The batch that each worker took in hand last, and the batches that
workers got through, each with the number of its worker. -/
structure Ledger where
  inHand : Nat → Batch := fun _ => default
  counted : List (Nat × Batch) := []

namespace Ledger

def enter (l : Ledger) : Entry → Ledger
  | .taken i b => { l with inHand := Function.update l.inHand i b }
  | .counted i => { l with counted := l.counted ++ [(i, l.inHand i)] }

/-- The ledger with these entries. -/
def ofEntries (entries : List Entry) : Ledger := entries.foldl enter {}

theorem ofEntries_append (as bs : List Entry) :
    ofEntries (as ++ bs) = bs.foldl enter (ofEntries as) := List.foldl_append

/-- The batches that a worker got through. -/
def countedBy (l : Ledger) (i : Nat) : List (Nat × Batch) := l.counted.filter fun q => q.1 == i

/-- An entry is about its worker and no other. -/
theorem enter_of_ne (l : Ledger) {entry : Entry} {j : Nat} (hj : j ≠ entry.worker) :
    (l.enter entry).inHand j = l.inHand j ∧ (l.enter entry).countedBy j = l.countedBy j := by
  cases entry with
  | taken i b =>
    have hinHand : Function.update l.inHand i b j = l.inHand j := Function.update_of_ne hj ..
    exact ⟨hinHand, rfl⟩
  | counted i =>
    change j ≠ i at hj
    have hij : (i == j) = false := by simpa using hj.symm
    exact ⟨rfl, by simp [countedBy, enter, List.filter_append, hij]⟩

end Ledger

/-- The bytes of batches. -/
def byteTotal : List (Nat × Batch) → Nat
  | [] => 0
  | q :: qs => q.2.data.length + byteTotal qs

theorem byteTotal_append (as bs : List (Nat × Batch)) :
    byteTotal (as ++ bs) = byteTotal as + byteTotal bs := by
  induction as with
  | nil => simp [byteTotal]
  | cons q as ih =>
    rw [List.cons_append, byteTotal, byteTotal, ih]
    omega

namespace Worker

/-- What the next step of a worker enters into the ledger. -/
def posted? (p : Plan) (w : Worker) (sh : Shared σ) : Option Entry :=
  match w.stage with
  | .reading r _ =>
    match r.step p.options sh.run.isRunning sh.service with
    | (_, _, .batch b) => some (.taken w.report.worker b)
    | _ => none
  | .emitting _ _ [] _ _ => some (.counted w.report.worker)
  | _ => none

theorem posted?_of_reading {r r' : SplitReader} {k : Nat} {s' : Service} {g : Signal}
    (hw : w.stage = .reading r k)
    (hr : r.Moves p.options sh.run.isRunning sh.service r' s' g) :
    w.posted? p sh = g.batch?.map (.taken w.report.worker) := by
  simp only [posted?, hw, hr.step_eq]
  cases g <;> rfl

theorem worker_of_posted? {entry : Entry} (h : w.posted? p sh = some entry) :
    entry.worker = w.report.worker := by
  unfold posted? at h
  split at h
  · split at h
    · cases h
      rfl
    · cases h
  · cases h
    rfl
  · cases h

/-- A worker that does not move enters nothing. -/
theorem posted?_of_step_eq_none (h : w.step p sink sh = none) : w.posted? p sh = none := by
  unfold posted?
  split
  · rename_i hw
    simp [step, hw] at h
  · rename_i hw
    simp [step, hw] at h
  · rfl

/-- The ledger goes with the report of worker `i` and with the batch it has
in hand. -/
structure Keeps (l : Ledger) (i : Nat) (w : Worker) : Prop where
  batches : w.report.batches = (l.countedBy i).length
  bytes : ∀ r k rest rows bytes, w.stage = .emitting r k rest rows bytes →
    (l.inHand i).data.length = bytes

variable {l : Ledger}

/-- On the way from the ledger `l` to `l'` what is added to the batches that
were counted is added to the report of worker `i` and to the counter of
bytes. -/
structure Enters (l l' : Ledger) (i : Nat) (w w' : Worker) (sh sh' : Shared σ) : Prop where
  keeps : w'.Keeps l' i
  added : ∃ qs, l'.counted = l.counted ++ qs ∧ w'.report.batches = w.report.batches + qs.length ∧
    sh'.counters.bytes = sh.counters.bytes + UInt64.ofNat (byteTotal qs)

/-- A step without an entry leaves the worker with the same report of
batches, and with the same batch in hand, if any. -/
theorem Keeps.enters_same (h : w.Keeps l i) (hbatches : w'.report.batches = w.report.batches)
    (hstage : ∀ r k rest rows bytes, w'.stage = .emitting r k rest rows bytes →
      ∃ rest', w.stage = .emitting r k rest' rows bytes)
    (hbytes : sh'.counters.bytes = sh.counters.bytes) : Enters l l i w w' sh sh' := by
  refine ⟨⟨hbatches.trans h.batches, fun r k rest rows bytes hw' => ?_⟩, [],
    (List.append_nil _).symm, hbatches, hbytes.trans (UInt64.add_zero _).symm⟩
  obtain ⟨rest', hw⟩ := hstage r k rest rows bytes hw'
  exact h.bytes r k rest' rows bytes hw

/-- **A step keeps the ledger up to date.** -/
theorem Moves.enters (hm : w.Moves p sink sh w' sh') (h : w.Keeps l w.report.worker) :
    Enters l ((w.posted? p sh).toList.foldl Ledger.enter l) w.report.worker w w' sh sh' := by
  cases hm with
  | read hw hr =>
    rw [posted?_of_reading hw hr]
    exact h.enters_same rfl (by simp) rfl
  | decode hw hr hd =>
    rw [posted?_of_reading hw hr]
    refine ⟨⟨h.batches, ?_⟩, [], (List.append_nil _).symm, rfl, (UInt64.add_zero _).symm⟩
    rintro r k rest rows bytes ⟨⟩
    simp [Signal.batch?, Ledger.enter]
  | undecoded hw hr hd =>
    rw [posted?_of_reading hw hr]
    exact ⟨⟨h.batches, by simp⟩, [], (List.append_nil _).symm, rfl, (UInt64.add_zero _).symm⟩
  | unread hw hr =>
    rw [posted?_of_reading hw hr]
    exact h.enters_same rfl (by simp) rfl
  | interrupted hw hr hi =>
    rw [posted?_of_reading hw hr]
    exact h.enters_same rfl (by simp) rfl
  | finish hw hr hi =>
    rw [posted?_of_reading hw hr]
    exact h.enters_same rfl (by simp) rfl
  | panic hw hr =>
    rw [posted?_of_reading hw hr]
    exact h.enters_same rfl (by simp) rfl
  | emitted hw =>
    -- the batch in hand is counted, with the bytes it had when it was taken
    rename_i r k rows bytes
    have hentry : w.posted? p sh = some (.counted w.report.worker) := by simp only [posted?, hw]
    have hbytes := h.bytes r k [] rows bytes hw
    rw [hentry]
    refine ⟨⟨?_, by simp⟩, [(w.report.worker, l.inHand w.report.worker)], rfl, rfl, ?_⟩
    · simp [Ledger.enter, Ledger.countedBy, List.filter_append, h.batches]
    · simp [byteTotal, hbytes, Counters.addBatch]
  | accept hw ho =>
    have hentry : w.posted? p sh = none := by simp only [posted?, hw]
    rw [hentry]
    refine h.enters_same rfl ?_ rfl
    rintro r k rest rows bytes ⟨⟩
    exact ⟨_, hw⟩
  | _ =>
    have hentry : w.posted? p sh = none := by simp only [posted?, *]
    rw [hentry]
    exact h.enters_same rfl (by simp) rfl

/-- Another worker does not notice. -/
theorem Keeps.of_ne {v : Worker} {j : Nat} (h : v.Keeps l j) (hj : j ≠ w.report.worker)
    (p : Plan) (sh : Shared σ) : v.Keeps ((w.posted? p sh).toList.foldl Ledger.enter l) j := by
  cases hentry : w.posted? p sh with
  | none => exact h
  | some entry =>
    obtain ⟨hinHand, hcounted⟩ := l.enter_of_ne ((worker_of_posted? hentry).symm ▸ hj)
    constructor
    · change _ = ((l.enter entry).countedBy j).length
      rw [hcounted]
      exact h.batches
    · change ∀ r k rest rows bytes, _ → ((l.enter entry).inHand j).data.length = bytes
      rw [hinHand]
      exact h.bytes

end Worker

/-- Notes the entries of the ledger. -/
def Onlooker.entries (p : Plan) : Onlooker σ Entry where
  worker w sh := w.posted? p sh

namespace Machine

variable {l : Ledger}

/-- The ledger goes with the reports of a run and with its counter of
bytes. -/
structure Books (m : Machine σ) (l : Ledger) : Prop where
  keeps : m.Each fun i w _ => w.Keeps l i
  batches : Summary.total Report.batches (m.workers.map Worker.report) = l.counted.length
  bytes : m.shared.counters.bytes = UInt64.ofNat (byteTotal l.counted)

theorem Books.of_moves (h : m.Books l) (hw : m.workers[i]? = some w) (hi : w.report.worker = i)
    (hm : w.Moves p sink m.shared w' sh') :
    Books ⟨sh', m.workers.set i w'⟩ ((w.posted? p m.shared).toList.foldl Ledger.enter l) := by
  subst hi
  have hlt := (List.getElem?_eq_some_iff.1 hw).1
  obtain ⟨hkeeps, qs, hcounted, hbatches, hbytes⟩ := hm.enters (h.keeps _ w hw)
  refine ⟨fun j v hv => ?_, ?_, ?_⟩
  · by_cases hj : j = w.report.worker
    · subst hj
      rw [List.getElem?_set_self hlt] at hv
      obtain rfl := Option.some.inj hv
      exact hkeeps
    · rw [List.getElem?_set_ne (Ne.symm hj)] at hv
      exact (h.keeps j v hv).of_ne hj p m.shared
  · have hset := Summary.total_set hw w' Report.batches
    have htotal := h.batches
    dsimp only
    rw [hcounted, List.length_append]
    omega
  · dsimp only
    rw [hbytes, h.bytes, hcounted, byteTotal_append, UInt64.ofNat_add]

end Machine

variable {c : EngineConfig} {t : Session} {selected : List String} {g : Ingestion}
variable {service : Service} {y : σ} {es : List (Event α)} {out : Outcome} {summary : Summary}

namespace Ingestion

/-- The ledger of a run. -/
def ledger (g : Ingestion) (service : Service) (sink : Sink σ α) (y : σ) (es : List (Event α)) :
    Ledger :=
  .ofEntries ((Onlooker.entries g.plan).notes g.plan sink (g.start service y) es)

/-- A run starts with empty reports. -/
theorem total_start {count : Report → Nat} (hcount : ∀ i, count { worker := i } = 0)
    (g : Ingestion) (service : Service) (y : σ) :
    Summary.total count ((g.start service y).workers.map Worker.report) = 0 := by
  rw [start, List.map_map]
  induction g.assignments with
  | nil => rfl
  | cons a as ih =>
    rw [List.map_cons, Summary.total, ih]
    exact hcount a.worker

/-- **The ledger of a run goes with its reports** and its counter of
bytes. -/
theorem books (hg : ofSession c t selected = .ok g) (service : Service) (sink : Sink σ α) (y : σ)
    (es : List (Event α)) : (g.run service sink y es).Books (g.ledger service sink y es) := by
  refine Onlooker.run_notes (Q := fun entries m => m.Books (.ofEntries entries))
    (fun fs => (accounts hg service sink y fs).1) Worker.posted?_of_step_eq_none es ?_ ?_ ?_ ?_
  · refine ⟨fun i w hw => ?_, total_start (fun _ => rfl) g service y, rfl⟩
    obtain ⟨-, rfl⟩ := start_workers hg service y hw
    exact ⟨rfl, nofun⟩
  · intro m entries i w w' sh' h hw hI hm
    rw [Ledger.ofEntries_append]
    exact h.of_moves hw hI.1.worker hm
  · intro m entries h
    rw [Ledger.ofEntries_append]
    exact ⟨h.keeps, h.batches, h.bytes⟩
  · intro m entries a h
    exact ⟨h.keeps, h.batches, h.bytes⟩

end Ingestion

/-! ## Calls -/

/-- A reader that finds the end of its split has made one call more than it
has retries. -/
theorem SplitReader.Moves.spent_of_ended {o : ReadOptions} {running : Bool} {r r' : SplitReader}
    {s s' : Service} (hm : Moves o running r s r' s' .ended) (hlive : ∀ i, r.stage ≠ .done i)
    (hi : r'.interrupted = false) : r.spent + (r.calling o).length = r'.retries + 1 := by
  cases hm with
  | through hr => exact absurd hr (hlive _)
  | interrupt hr hrun => simp [interrupted, SplitReader.finish] at hi
  | finish hr ho hn => exact spent_of_fetching hr o

namespace Worker

/-- The calls that are told by what a worker has done: one for each retry and
for each split read to its end, and those of the reader in hand. -/
def attempts (w : Worker) : Nat :=
  w.report.retries + w.report.splits +
    match w.stage with
    | .reading r _ | .emitting r .. | .refused r => r.spent
    | _ => 0

theorem attempts_of_inHand (w : Worker) (h : w.inHand = []) :
    w.attempts = w.report.retries + w.report.splits := by
  cases hw : w.stage with
  | reading r k => simp [inHand, hw] at h
  | emitting r k rest rows bytes => simp [inHand, hw] at h
  | refused r => simp [inHand, hw] at h
  | _ => simp only [attempts, hw, Nat.add_zero]

/-- A worker that panicked moves no more. -/
theorem Moves.stage_ne_panicked (hm : w.Moves p sink sh w' sh') : w.stage ≠ .panicked := by
  intro hw
  cases hm <;> simp_all

/-- A step that has not to do with stopping the run, nor with a panic, makes
the calls that it adds to those told. -/
theorem Moves.attempts_eq (hm : w.Moves p sink sh w' sh')
    (hlive : ∀ r k, w.stage = .reading r k → ∀ i, r.stage ≠ .done i)
    (hrun : sh.run.isRunning = true) (hc : w.cause? = none) (hc' : w'.cause? = none)
    (hcalm : w'.stage ≠ .panicked) :
    sh'.service.calls.length + w.attempts = sh.service.calls.length + w'.attempts := by
  cases hm with
  | read hw hr =>
    have hcalls := congrArg List.length hr.calls_eq
    have hspent := hr.spent_eq rfl
    rw [List.length_append] at hcalls
    simp only [attempts, hw]
    omega
  | decode hw hr hd =>
    have hcalls := congrArg List.length hr.calls_eq
    have hspent := hr.spent_eq rfl
    rw [List.length_append] at hcalls
    simp only [attempts, hw]
    omega
  | interrupted hw hr hi =>
    rw [hr.running_eq_false (hlive _ _ hw) hi] at hrun
    cases hrun
  | finish hw hr hi =>
    rename_i r r' k s'
    have hcalls := congrArg List.length hr.calls_eq
    have hspent := hr.spent_of_ended (hlive r k hw) hi
    rw [List.length_append] at hcalls
    simp only [attempts, hw, account, close, (Service.alike_releaseIf s' r'.stream).calls]
    omega
  | panic hw hr => exact absurd rfl hcalm
  | emitted hw => simp [attempts, hw]
  | accept hw ho => simp [attempts, hw]
  | _ => simp_all [attempts, cause?, SplitReader.spent]

end Worker

/-- A step of a worker that has a cause to stop the run stops it. -/
theorem Worker.Moves.cause?_eq_none (hm : w.Moves p sink sh w' sh')
    (hrun : sh'.run.isRunning = true) : w.cause? = none ∧ sh.run.isRunning = true := by
  have heq := hm.run_eq
  cases hc : w.cause? with
  | none =>
    rw [hc] at heq
    dsimp only at heq
    exact ⟨rfl, heq ▸ hrun⟩
  | some cause =>
    rw [hc] at heq
    dsimp only at heq
    rw [RunState.transition_eq] at heq
    have hstopped : (RunState.stop cause.state sh.run).isRunning = false := by
      cases cause <;> cases sh.run <;> rfl
    dsimp only at heq
    rw [heq, hstopped] at hrun
    cases hrun

namespace Machine

/-- The calls that are told by what workers have done. -/
def attemptsBy : List Worker → Nat
  | [] => 0
  | w :: ws => w.attempts + attemptsBy ws

theorem attemptsBy_set {ws : List Worker} (hw : ws[i]? = some w) (w' : Worker) :
    attemptsBy (ws.set i w') + w.attempts = attemptsBy ws + w'.attempts := by
  induction ws generalizing i with
  | nil => cases hw
  | cons v ws ih =>
    cases i with
    | zero =>
      obtain rfl := Option.some.inj hw
      simp only [List.set_cons_zero, attemptsBy]
      omega
    | succ i =>
      have := ih (by simpa using hw)
      simp only [List.set_cons_succ, attemptsBy]
      omega

/-- Of workers without a reader in hand the reports tell all calls. -/
theorem attemptsBy_eq_total {ws : List Worker} (h : ∀ w ∈ ws, w.inHand = []) :
    attemptsBy ws = Summary.total Report.retries (ws.map Worker.report) +
      Summary.total Report.splits (ws.map Worker.report) := by
  induction ws with
  | nil => rfl
  | cons w ws ih =>
    have ih := ih fun v hv => h v (List.mem_cons_of_mem _ hv)
    have hw := w.attempts_of_inHand (h w List.mem_cons_self)
    simp only [attemptsBy, List.map_cons, Summary.total]
    omega

/-- As long as nothing is about to stop the run, and no worker panicked, all
of its calls are told. -/
def TellsCalls (base : Nat) (m : Machine σ) : Prop :=
  m.shared.run.isRunning = true → (∀ w ∈ m.workers, w.cause? = none ∧ w.stage ≠ .panicked) →
    m.shared.service.calls.length = base + attemptsBy m.workers

theorem TellsCalls.of_moves {base : Nat} (h : m.TellsCalls base) (hw : m.workers[i]? = some w)
    (hlive : ∀ r k, w.stage = .reading r k → ∀ i, r.stage ≠ .done i)
    (hm : w.Moves p sink m.shared w' sh') : TellsCalls base ⟨sh', m.workers.set i w'⟩ := by
  intro hrun hcause
  have hlt := (List.getElem?_eq_some_iff.1 hw).1
  obtain ⟨hc, hrun⟩ := hm.cause?_eq_none hrun
  obtain ⟨hc', hcalm⟩ := hcause w' (List.mem_set hlt w')
  have hbefore : ∀ v ∈ m.workers, v.cause? = none ∧ v.stage ≠ .panicked := by
    intro v hv
    obtain ⟨j, hj⟩ := List.mem_iff_getElem?.1 hv
    by_cases hij : i = j
    · subst hij
      obtain rfl := Option.some.inj (hw.symm.trans hj)
      exact ⟨hc, hm.stage_ne_panicked⟩
    · refine hcause v (List.mem_of_getElem? (i := j) ?_)
      rw [List.getElem?_set_ne hij]
      exact hj
  have hcalls := h hrun hbefore
  have hstep := hm.attempts_eq hlive hrun hc hc' hcalm
  have hset := attemptsBy_set hw w'
  dsimp only
  omega

end Machine

namespace Ingestion

/-- The calls of a run are for splits of its session. -/
theorem exists_made (hg : ofSession c t selected = .ok g) (service : Service) (sink : Sink σ α)
    (y : σ) (es : List (Event α)) :
    ∃ made, (g.run service sink y es).shared.service.calls = service.calls ++ made ∧
      ∀ call ∈ made, call.split ∈ t.splits := by
  refine Machine.run_of_each (Q := fun m => ∃ made, m.shared.service.calls = service.calls ++ made ∧
    ∀ call ∈ made, call.split ∈ t.splits) (fun fs => (accounts hg service sink y fs).1) es
    ⟨[], (List.append_nil _).symm, nofun⟩ ?_ (fun _ _ h => h) fun _ _ h => h
  rintro m i w w' sh' ⟨made, hcalls, hsplits⟩ - ⟨hb, -⟩ hm
  rcases hm.calls_eq with heq | ⟨r, k, hw, -, heq⟩
  · exact ⟨made, heq.trans hcalls, hsplits⟩
  · refine ⟨made ++ [r.call g.plan.options], by rw [heq, hcalls, List.append_assoc], ?_⟩
    have hmem : r.split ∈ g.own i := hb.splits _ (by simp [Worker.inHand, hw])
    rw [List.forall_mem_append, List.forall_mem_singleton]
    exact ⟨hsplits, (own_sublist hg i).subset hmem⟩

/-- **All calls of a run are told by its reports** while nothing has stopped
it. -/
theorem tellsCalls (hg : ofSession c t selected = .ok g) (service : Service) (sink : Sink σ α)
    (y : σ) (es : List (Event α)) :
    (g.run service sink y es).TellsCalls service.calls.length := by
  refine Machine.run_of_each (Q := Machine.TellsCalls service.calls.length)
    (I := fun _ w _ => ∀ r k, w.stage = .reading r k → ∀ i, r.stage ≠ .done i) ?_ es ?_ ?_ ?_ ?_
  · intro fs i w hw r k hstage
    have hreads := (hasRead hg service sink y fs).reads i w hw
    simp only [Worker.Reads, hstage] at hreads
    exact hreads.1
  · intro _ _
    have hidle : ∀ w ∈ (g.start service y).workers, w.inHand = [] := by
      intro w hw
      obtain ⟨a, -, rfl⟩ := List.mem_map.1 hw
      rfl
    rw [Machine.attemptsBy_eq_total hidle, total_start (fun _ => rfl), total_start fun _ => rfl]
    rfl
  · intro m i w w' sh' h hw hlive hm
    exact h.of_moves hw hlive hm
  · intro _ m h hrun
    rw [Shared.cancel, RunState.isRunning_cancel] at hrun
    cases hrun
  · exact fun m a h => h

/-- The counters of a run are the sums of its reports. -/
theorem counter_eq {count : Report → Nat} {get : Counters → UInt64} (hzero : get {} = 0)
    (hcount : ∀ i, count { worker := i } = 0)
    (hadds : ∀ {w w' : Worker} {sh sh' : Shared σ}, w.Moves g.plan sink sh w' sh' →
      w.Adds count get w' sh sh') (service : Service) (y : σ) (es : List (Event α)) :
    get (g.run service sink y es).shared.counters =
      UInt64.ofNat (Summary.total count
        ((g.run service sink y es).workers.map Worker.report)) := by
  refine Machine.counter_run hadds ?_ es
  rw [total_start hcount]
  exact hzero

/-- A run that was completed makes a call for each retry, and one for each
split. -/
theorem calls_of_completed (hg : ofSession c t selected = .ok g)
    (ho : (g.run service sink y es).outcome? = some (.completed summary)) :
    ∃ made, (g.run service sink y es).shared.service.calls = service.calls ++ made ∧
      (∀ call ∈ made, call.split ∈ t.splits) ∧
      made.length = Summary.total Report.retries
        ((g.run service sink y es).workers.map Worker.report) + t.splits.length := by
  obtain ⟨hset, hconclude⟩ := settled_of_outcome hg ho
  obtain ⟨made, hcalls, hsplits⟩ := exists_made hg service sink y es
  have htell : (g.run service sink y es).TellsFailure := Machine.tellsFailure_run rfl es
  have hrun := Machine.isRunning_of_completed hset htell hconclude
  have hread := hasRead hg service sink y es
  have hperm := perm_of_isRunning hg hset (length_workers_run hg service sink y es) hread hrun
  have hleft : ∀ w ∈ (g.run service sink y es).workers, w.stage = .left := fun w hw =>
    Worker.stage_of_hasLeft (List.all_eq_true.1 hset.allLeft w hw)
  have htold := tellsCalls hg service sink y es hrun fun w hw => by
    simp [Worker.cause?, hleft w hw]
  rw [Machine.attemptsBy_eq_total fun w hw => by simp [Worker.inHand, hleft w hw], hcalls,
    List.length_append, hread.count, hperm.length_eq] at htold
  exact ⟨made, hcalls, hsplits, by omega⟩

end Ingestion

/-- A run without a failure to tell of ends with a summary. -/
theorem Shared.result_conclude (h : ∀ i, sh.hasFailed i = false) :
    sh.conclude.result = .ok (.ofReports sh.reports) := by
  have hnone := failure?_eq_none_iff.2 h
  rw [conclude]
  split
  · rfl
  · simp [hnone, Outcome.result]

/-- Its summary has the reports of all workers. -/
theorem Machine.Settled.workers_summary {own : Nat → List SplitId} (hset : m.Settled own)
    (h : ∀ i, m.shared.hasFailed i = false) :
    (Summary.ofReports m.shared.reports).workers = m.workers.map Worker.report := by
  rw [hset.summary_eq, List.filter_eq_self.2]
  intro w _
  rw [h]
  rfl

/-- **Counters and reports agree.** When a run is over and every worker has
left with a report, whatever the service, the sink and the order of events,
the run ends with a summary, and the counters of batches, splits and retries
are, modulo `2 ^ 64`, what the summary says of them. The counter of bytes is
the bytes of the batches that workers got through, which are as many as the
summary says, and of each worker as many as its report says. In a run that
was completed the calls made for the splits of the session are one for each
split more than the retries. -/
theorem counters_agree (hg : Ingestion.ofSession c t selected = .ok g)
    (ho : (g.run service sink y es).outcome? = some out)
    (hreports : ∀ i, (g.run service sink y es).shared.hasFailed i = false) :
    let m := g.run service sink y es
    let counted := (g.ledger service sink y es).counted
    ∃ summary, out.result = .ok summary ∧
      m.shared.counters.batches = UInt64.ofNat summary.batches ∧
      m.shared.counters.splits = UInt64.ofNat summary.splits ∧
      m.shared.counters.retries = UInt64.ofNat summary.retries ∧
      m.shared.counters.bytes = UInt64.ofNat (byteTotal counted) ∧
      counted.length = summary.batches ∧
      (∀ rep ∈ summary.workers,
        (counted.filter fun q => q.1 == rep.worker).length = rep.batches) ∧
      (out = .completed summary →
        ∃ made, m.shared.service.calls = service.calls ++ made ∧
          (∀ call ∈ made, call.split ∈ t.splits) ∧
          made.length = summary.retries + t.splits.length) := by
  intro m counted
  obtain ⟨hset, rfl⟩ := Ingestion.settled_of_outcome hg ho
  have hbooks : m.Books (g.ledger service sink y es) := Ingestion.books hg service sink y es
  have hworkers := hset.workers_summary hreports
  refine ⟨_, Shared.result_conclude hreports, ?_, ?_, ?_, hbooks.bytes, ?_, ?_,
    fun hcompleted => ?_⟩
  · rw [Summary.batches, hworkers]
    exact Ingestion.counter_eq rfl (fun _ => rfl) Worker.Moves.adds_batches service y es
  · rw [Summary.splits, hworkers]
    exact Ingestion.counter_eq rfl (fun _ => rfl) Worker.Moves.adds_splits service y es
  · rw [Summary.retries, hworkers]
    exact Ingestion.counter_eq rfl (fun _ => rfl) Worker.Moves.adds_retries service y es
  · rw [Summary.batches, hworkers]
    exact hbooks.batches.symm
  · intro rep hrep
    rw [hworkers] at hrep
    obtain ⟨w, hw, rfl⟩ := List.mem_map.1 hrep
    obtain ⟨i, hi⟩ := List.mem_iff_getElem?.1 hw
    rw [(hset.each i w hi).1.worker]
    exact (hbooks.keeps i w hi).batches.symm
  · rw [Summary.retries, hworkers]
    rw [hcompleted] at ho
    exact Ingestion.calls_of_completed hg ho

/-- In a run with three faults the counters are those of the summary, and
five calls are made for two splits. -/
theorem counters_agree_with_faults :
    (∀ i, Sample.faultyRun.shared.hasFailed i = false) ∧
      Sample.faultyRun.shared.counters = ⟨3, 6, 3, 3, 2⟩ ∧
      ∃ summary, Sample.faultyRun.outcome? = some (.completed summary) ∧
        Sample.faultyRun.shared.counters.batches = UInt64.ofNat summary.batches ∧
        Sample.faultyRun.shared.service.calls.length = summary.retries + 2 := by
  have ho : Sample.faultyRun.outcome? =
      some (.completed (.ofReports Sample.faultyRun.shared.reports)) :=
    Machine.outcome?_eq_completed (by decide +kernel) (by decide +kernel) (by decide +kernel)
  obtain ⟨-, hconclude⟩ := Ingestion.settled_of_outcome Sample.ofSession_session ho
  have hreports := Shared.hasFailed_eq_false_of_conclude hconclude
  obtain ⟨summary, hsummary, hbatches, -, -, -, -, -, hcompleted⟩ :=
    counters_agree Sample.ofSession_session ho hreports
  obtain rfl := Except.ok.inj hsummary
  obtain ⟨made, hcalls, -, hlength⟩ := hcompleted rfl
  rw [← Sample.faultyRun] at hcalls hreports hbatches
  refine ⟨hreports, by decide +kernel, _, ho, hbatches, ?_⟩
  rw [hcalls, List.length_append, hlength]
  exact Nat.zero_add _

end Intake
