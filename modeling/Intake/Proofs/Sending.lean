import Intake.Proofs.Solo
import Intake.Run.Channel
/-!
# Sending through a bounded channel

A run of one worker that delivers through a channel: whatever its worker,
the holder of the receiver and whoever cancels do, and in whatever order,
the records received and those on the queue are together the records that
were emitted (`Ingestion.inStep`), and a record is refused for one of two
reasons (`Machine.exists_of_refused`).

A machine sends a record in one step. A worker may be watched more closely:
it looks at the channel, and when it has its record back from a full one
it looks at the run, and between the two anything may happen. A run whose
worker sends in two looks (`Sending`) comes to where a machine comes with
some list of events (`Sending.exists_run`), as a worker that gives up could
have found the run cancelled at its first look.
-/

namespace Intake

variable {p : Plan} {m m₀ : Machine Channel} {w w' : Worker} {sh sh' : Shared Channel} {n : Nat}
variable {e : Event ReceiverAction} {es : List (Event ReceiverAction)}
variable {c : EngineConfig} {t : Session} {selected : List String} {g : Ingestion}

/-! ## What a channel keeps in step -/

namespace Shared

/-- The channel has room for `n` records and was sent what was emitted. -/
structure Sends (n : Nat) (sh : Shared Channel) : Prop where
  sent : sh.sink.sent = sh.records
  holds : sh.sink.Holds n

theorem Sends.of_moves (h : sh.Sends n) (hm : w.Moves p Channel.sink sh w' sh') : sh'.Sends n := by
  obtain ⟨hsent, hholds⟩ := h
  cases hm with
  | accept hw ho =>
    refine ⟨?_, hholds.send ho⟩
    rw [records_push, ← hsent]
    exact Channel.sent_send ho
  | refuse hw ho =>
    obtain ⟨rfl, -⟩ := Channel.send_eq_refused_iff.1 ho
    exact ⟨hsent, hholds⟩
  | _ => exact ⟨hsent, hholds⟩

theorem Sends.act (h : sh.Sends n) (a : ReceiverAction) : (sh.act Channel.sink a).Sends n :=
  ⟨(Channel.sent_act _ a).trans h.sent, h.holds.act a⟩

end Shared

/-- The record that a worker is about to offer. -/
def Worker.offered? (w : Worker) : Option Record :=
  match w.stage with
  | .emitting _ _ (x :: _) _ _ => some x
  | _ => none

/-- No step of a worker lets go of the receiver. -/
theorem Worker.Moves.hasReceiver_eq (hm : w.Moves p Channel.sink sh w' sh') :
    sh'.sink.hasReceiver = sh.sink.hasReceiver := by
  cases hm with
  | accept hw ho =>
    obtain ⟨-, -, rfl⟩ := Channel.send_eq_accepted_iff.1 ho
    rfl
  | refuse hw ho =>
    obtain ⟨rfl, -⟩ := Channel.send_eq_refused_iff.1 ho
    rfl
  | _ => rfl

namespace Machine

/-- The channel of a run, with room for `n` records, is in step with the
run: the records received, and behind them those on the queue, are the
records emitted in their order; and the worker counts what was emitted, and
so does the report that it leaves with. -/
structure InStep (n : Nat) (m : Machine Channel) : Prop where
  records : m.shared.sink.received ++ m.shared.sink.queue = m.shared.records
  length : m.shared.sink.queue.length ≤ n
  worker : ∀ w ∈ m.workers, w.report.records = m.shared.records.length
  report : ∀ rep ∈ m.shared.reports, rep.records = m.shared.records.length

/-- The first worker emits a record in vain between one state of a run and
the next. -/
def Fails (m m' : Machine Channel) : Prop := m.isRefused 0 = false ∧ m'.isRefused 0 = true

/-- Whatever happens, the channel was sent what was emitted. -/
theorem sends_run (h : m.shared.Sends n) (es : List (Event ReceiverAction)) :
    (m.run p Channel.sink es).shared.Sends n :=
  run_induction (Q := fun m => m.shared.Sends n) es h (fun h _ hm => h.of_moves hm)
    (fun _ h => ⟨h.sent, h.holds⟩) fun _ a h => h.act a

/-- **A worker is refused a record** that it offers, as the channel is and
the run stands. -/
theorem exists_of_refused {i : Nat} (h : m.isRefused i = false)
    (h' : (m.apply p Channel.sink e).isRefused i = true) :
    ∃ w x, m.workers[i]? = some w ∧ w.offered? = some x ∧
      m.shared.sink.send m.shared.run.isRunning x = .refused m.shared.sink := by
  refine apply_cases (Q := fun m' => m'.isRefused i = true → ∃ w x, m.workers[i]? = some w ∧
    w.offered? = some x ∧ m.shared.sink.send m.shared.run.isRunning x = .refused m.shared.sink) e
    (fun hr => absurd (h.symm.trans hr) (by simp)) ?_
    (fun _ hr => absurd (h.symm.trans hr) (by simp))
    (fun _ hr => absurd (h.symm.trans hr) (by simp)) h'
  intro j v v' sh' hv hmoves hr
  by_cases hij : j = i
  · subst hij
    rw [isRefused, List.getElem?_set_self (List.getElem?_eq_some_iff.1 hv).1] at hr
    cases hmoves with
    | refuse hw ho =>
      obtain ⟨rfl, -⟩ := Channel.send_eq_refused_iff.1 ho
      exact ⟨v, _, hv, by simp [Worker.offered?, hw], ho⟩
    | _ => simp at hr
  · rw [isRefused, List.getElem?_set_ne hij] at hr
    exact absurd (h.symm.trans hr) (by simp)

/-- Only by letting go is the receiver gone. -/
theorem hasReceiver_apply (he : e ≠ .act .drop) :
    (m.apply p Channel.sink e).shared.sink.hasReceiver = m.shared.sink.hasReceiver := by
  cases e with
  | cancel => rfl
  | act a => exact Channel.hasReceiver_act fun ha => he (congrArg Event.act ha)
  | step i =>
    rw [apply]
    split
    · rfl
    · split
      · rfl
      · rename_i hs
        exact (Worker.moves_of_step hs).hasReceiver_eq

/-- An event that is no turn of the one worker leaves it where it is. -/
theorem workers_apply (hm : m.workers = [w]) (he : e ≠ .step 0) :
    (m.apply p Channel.sink e).workers = [w] := by
  cases e with
  | cancel => exact hm
  | act a => exact hm
  | step i =>
    cases i with
    | zero => exact absurd rfl he
    | succ i => simp [apply, hm]

end Machine

namespace Ingestion

/-- The channel that a run delivers through, as long as its settings say. -/
def channel (g : Ingestion) : Channel := { capacity := g.config.channelCapacity.toNat }

/-- The run into its channel, after a list of events, if the worker sends in
one step. -/
def deliver (g : Ingestion) (service : Service) (es : List (Event ReceiverAction)) :
    Machine Channel :=
  g.run service Channel.sink g.channel es

/-- A run opens with the settings that it is given. -/
theorem config_of_ofSession (h : ofSession c t selected = .ok g) : g.config = c := by
  simp only [ofSession, bind, Except.bind, pure, Except.pure] at h
  repeat (split at h; · cases h)
  cases h
  rfl

/-- At its start nothing was sent. -/
theorem sends_start (hg : ofSession c t selected = .ok g) (service : Service) :
    (g.start service g.channel).shared.Sends c.channelCapacity.toNat := by
  rw [← config_of_ofSession hg]
  exact ⟨rfl, rfl, Nat.zero_le _⟩

/-- **What was received and what is on the queue is what was emitted.** -/
theorem inStep (hg : ofSession c t selected = .ok g) (hp : c.parallelism = 1)
    (service : Service) (es : List (Event ReceiverAction)) :
    (g.deliver service es).InStep c.channelCapacity.toNat := by
  have hsends := Machine.sends_run (p := g.plan) (sends_start hg service) es
  obtain ⟨heach, hsource⟩ := accounts hg service Channel.sink g.channel es
  have hlen := length_workers_run hg service Channel.sink g.channel es
  obtain ⟨w, hw⟩ := List.length_eq_one_iff.1 (hlen.trans (by rw [hp]; rfl))
  obtain ⟨-, haccounts⟩ := heach 0 w (by simp [hw])
  have hcount := haccounts.records
  rw [recordsFrom_solo hg hp] at hcount
  refine ⟨hsends.sent, hsends.holds.length, ?_, ?_⟩
  · intro v hv
    rw [deliver, hw, List.mem_singleton] at hv
    rw [hv, hcount, deliver]
  · intro rep hrep
    obtain ⟨i, hres⟩ := Shared.mem_reports.1 hrep
    have hi := hsource.results _ hres
    rw [hlen, hp] at hi
    obtain rfl : i = 0 := Nat.lt_one_iff.1 hi
    have hres := Shared.mem_resultsOf.2 hres
    by_cases hleft : w.stage = .left
    · obtain ⟨res, hone, hown, -⟩ := haccounts.left hleft
      rw [deliver, hone, List.mem_singleton] at hres
      rw [hown rep hres.symm, hcount, deliver]
    · rw [deliver, haccounts.present hleft] at hres
      cases hres

end Ingestion

/-! ## Sending in two looks -/

/-- A run of one worker that sends in two looks. -/
structure Sending where
  machine : Machine Channel
  /-- whether the worker has its record back from a full channel, and is
  about to look whether the run goes on -/
  turnedBack : Bool := false

namespace Worker

/-- Whether a worker gets the record back that it offers to a channel. -/
def meetsFull (w : Worker) (c : Channel) : Bool :=
  w.offered?.any fun x => c.send true x matches .full

/-- The worker once it gives up on the batch in hand. -/
def giveUp (w : Worker) : Worker :=
  match w.stage with
  | .emitting r _ _ _ _ => { w with stage := .refused r }
  | _ => w

end Worker

namespace Sending

/-- The run after a turn of the worker. At a look that finds the channel
full the worker keeps its record; at the look behind it the worker gives
up if the run has stopped, and else is where it was. -/
def turn (p : Plan) (s : Sending) : Sending :=
  if s.turnedBack then
    if s.machine.shared.run.isRunning then { s with turnedBack := false }
    else ⟨{ s.machine with workers := s.machine.workers.map Worker.giveUp }, false⟩
  else if s.machine.workers.any fun w => w.meetsFull s.machine.shared.sink then
    { s with turnedBack := true }
  else ⟨s.machine.apply p Channel.sink (.step 0), false⟩

/-- The run after an event. -/
def apply (p : Plan) (s : Sending) : Event ReceiverAction → Sending
  | .step 0 => s.turn p
  | e => { s with machine := s.machine.apply p Channel.sink e }

/-- The run after a list of events. -/
def run (p : Plan) (s : Sending) (es : List (Event ReceiverAction)) : Sending :=
  es.foldl (apply p) s

theorem run_append (p : Plan) (s : Sending) (es fs : List (Event ReceiverAction)) :
    s.run p (es ++ fs) = (s.run p es).run p fs :=
  List.foldl_append

variable {s s' : Sending}

/-- Any event but a turn of the worker is one of the machine. -/
theorem apply_of_ne (he : e ≠ .step 0) :
    s.apply p e = { s with machine := s.machine.apply p Channel.sink e } := by
  unfold apply
  split
  · exact absurd rfl he
  · rfl

/-- What a turn of the worker can lead to. -/
inductive Turns (p : Plan) (w : Worker) (s : Sending) : Sending → Prop where
  | again (ht : s.turnedBack = true) (hrun : s.machine.shared.run.isRunning = true) :
      Turns p w s { s with turnedBack := false }
  | giveUp (ht : s.turnedBack = true) (hrun : s.machine.shared.run.isRunning = false) :
      Turns p w s ⟨⟨s.machine.shared, [w.giveUp]⟩, false⟩
  | full {x : Record} (ht : s.turnedBack = false) (hx : w.offered? = some x)
      (hf : s.machine.shared.sink.send true x = .full) : Turns p w s { s with turnedBack := true }
  | step (ht : s.turnedBack = false)
      (hf : ∀ x, w.offered? = some x → s.machine.shared.sink.send true x ≠ .full) :
      Turns p w s ⟨s.machine.apply p Channel.sink (.step 0), false⟩

/-- **A turn of the worker is one of these.** -/
theorem turns_of_turn (hm : s.machine.workers = [w]) (h : s.turn p = s') : Turns p w s s' := by
  subst h
  unfold turn
  split
  · rename_i ht
    split
    · rename_i hrun
      exact .again ht hrun
    · rename_i hrun
      rw [hm]
      exact .giveUp ht (by simpa using hrun)
  · rename_i ht
    have ht : s.turnedBack = false := by simpa using ht
    rw [hm, List.any_cons, List.any_nil, Bool.or_false]
    split
    · rename_i hf
      rw [Worker.meetsFull, Option.any_eq_true] at hf
      obtain ⟨x, hx, hf⟩ := hf
      refine .full ht hx ?_
      split at hf
      · assumption
      · cases hf
    · rename_i hf
      refine .step ht fun x hx hfull => hf ?_
      rw [Worker.meetsFull, hx, Option.any_some, hfull]

end Sending

/-! ## Two looks come to what one step does -/

theorem Worker.exists_of_offered? {x : Record} (h : w.offered? = some x) :
    ∃ r k rest rows bytes, w.stage = .emitting r k (x :: rest) rows bytes := by
  unfold offered? at h
  split at h
  · rename_i r k y rest rows bytes hw
    obtain rfl := Option.some.inj h
    exact ⟨r, k, rest, rows, bytes, hw⟩
  · cases h

namespace Machine

/-- The run once it is cancelled and its worker gives up on the batch in
hand. -/
def givesUp (m : Machine Channel) : Machine Channel :=
  ⟨m.shared.cancel, m.workers.map Worker.giveUp⟩

/-- A run that has stopped need not be cancelled for it. -/
theorem givesUp_of_not_isRunning (h : m.shared.run.isRunning = false) :
    m.givesUp = ⟨m.shared, m.workers.map Worker.giveUp⟩ := by
  rw [givesUp, Shared.cancel, RunState.cancel, RunState.stop_of_not_isRunning h]

/-- Where the channel is full, the worker gives up when the run is
cancelled in front of its turn. -/
theorem run_cancel_step {x : Record} (hm : m.workers = [w]) (hx : w.offered? = some x)
    (hf : m.shared.sink.send true x = .full) :
    m.run p Channel.sink [.cancel, .step 0] = m.givesUp := by
  obtain ⟨r, k, rest, rows, bytes, hw⟩ := Worker.exists_of_offered? hx
  obtain ⟨-, hfull, -⟩ := Channel.send_eq_full_iff.1 hf
  have hrun : m.shared.run.cancel.isRunning = false := by
    cases m.shared.run <;> rfl
  have hsend : m.shared.sink.send false x = .refused m.shared.sink :=
    Channel.send_eq_refused_iff.2 ⟨rfl, .inr ⟨hfull, rfl⟩⟩
  have hstep : w.step p Channel.sink m.shared.cancel = some (w.giveUp, m.shared.cancel) := by
    simp [Worker.step, Worker.giveUp, hw, Channel.sink, Shared.cancel, hrun, hsend]
  have happly := apply_step (m := { m with shared := m.shared.cancel }) (i := 0)
    (by simp [hm]) hstep
  rw [givesUp, hm]
  exact happly.trans (by simp [hm])

/-- **Giving up can be done ahead** of what happens besides the turns of the
worker. -/
theorem givesUp_apply (hm : m.workers = [w]) (he : e ≠ .step 0) :
    (m.apply p Channel.sink e).givesUp = m.givesUp.apply p Channel.sink e := by
  cases e with
  | cancel => rfl
  | act a => rfl
  | step i =>
    cases i with
    | zero => exact absurd rfl he
    | succ i => simp [apply, givesUp, hm]

end Machine

namespace Sending

variable {s : Sending}

/-- A run in two looks is where a list of events leads the machine; and
while the worker is between its two looks, so is what it comes to if the
worker gives up. -/
structure Follows (p : Plan) (m₀ : Machine Channel) (s : Sending) : Prop where
  worker : ∃ w, s.machine.workers = [w] ∧ (s.turnedBack = true → ∃ x, w.offered? = some x)
  run : ∃ fs, s.machine = m₀.run p Channel.sink fs
  givesUp : s.turnedBack = true → ∃ fs, s.machine.givesUp = m₀.run p Channel.sink fs

theorem Follows.turn (h : s.Follows p m₀) : (s.turn p).Follows p m₀ := by
  obtain ⟨⟨w, hm, hoffers⟩, ⟨fs, hfs⟩, hgivesUp⟩ := h
  have hstep : ∀ es, s.machine.run p Channel.sink es = m₀.run p Channel.sink (fs ++ es) :=
    fun es => by rw [Machine.run_append, ← hfs]
  generalize hs : s.turn p = s'
  cases turns_of_turn hm hs with
  | again ht hrun => exact ⟨⟨w, hm, nofun⟩, ⟨fs, hfs⟩, nofun⟩
  | giveUp ht hrun =>
    obtain ⟨fs', hfs'⟩ := hgivesUp ht
    rw [Machine.givesUp_of_not_isRunning hrun, hm] at hfs'
    exact ⟨⟨w.giveUp, rfl, nofun⟩, ⟨fs', hfs'⟩, nofun⟩
  | full ht hx hf =>
    exact ⟨⟨w, hm, fun _ => ⟨_, hx⟩⟩, ⟨fs, hfs⟩, fun _ =>
      ⟨fs ++ [.cancel, .step 0], by rw [← hstep, Machine.run_cancel_step hm hx hf]⟩⟩
  | step ht hf =>
    have hlen : (s.machine.run p Channel.sink [.step 0]).workers.length = _ :=
      Machine.length_workers_run _ _
    rw [hm] at hlen
    obtain ⟨v, hv⟩ := List.length_eq_one_iff.1 hlen
    exact ⟨⟨v, hv, nofun⟩, ⟨_, hstep [.step 0]⟩, nofun⟩

theorem Follows.apply (h : s.Follows p m₀) (e : Event ReceiverAction) :
    (s.apply p e).Follows p m₀ := by
  by_cases he : e = .step 0
  · subst he
    exact h.turn
  obtain ⟨⟨w, hm, hoffers⟩, ⟨fs, hfs⟩, hgivesUp⟩ := h
  rw [apply_of_ne he]
  refine ⟨⟨w, Machine.workers_apply hm he, hoffers⟩, ⟨fs ++ [e], ?_⟩, fun ht => ?_⟩
  · rw [Machine.run_append, ← hfs]
    rfl
  · obtain ⟨fs', hfs'⟩ := hgivesUp ht
    refine ⟨fs' ++ [e], ?_⟩
    rw [Machine.run_append, ← hfs']
    exact Machine.givesUp_apply hm he

theorem follows_run (hm : m₀.workers = [w]) (es : List (Event ReceiverAction)) :
    (run p ⟨m₀, false⟩ es).Follows p m₀ := by
  induction es using List.reverseRecOn with
  | nil => exact ⟨⟨w, hm, nofun⟩, ⟨[], rfl⟩, nofun⟩
  | append_singleton es e ih =>
    rw [run_append]
    exact ih.apply e

/-- **Two looks come to what one step does**: a run whose worker sends in two
looks is where some list of events leads the machine. -/
theorem exists_run (hm : m₀.workers = [w]) (es : List (Event ReceiverAction)) :
    ∃ fs, (run p ⟨m₀, false⟩ es).machine = m₀.run p Channel.sink fs :=
  (follows_run hm es).run

/-! ## Why a worker gives up -/

/-- Between its looks the worker last found the channel full. -/
theorem exists_of_turnedBack (hm : m₀.workers = [w])
    (ht : (run p ⟨m₀, false⟩ es).turnedBack = true) :
    ∃ fs os, es = fs ++ .step 0 :: os ∧ .step 0 ∉ os ∧
      (run p ⟨m₀, false⟩ fs).machine.shared.sink.capacity ≤
        (run p ⟨m₀, false⟩ fs).machine.shared.sink.queue.length := by
  induction es using List.reverseRecOn with
  | nil => cases ht
  | append_singleton es e ih =>
    rw [run_append] at ht
    change ((run p ⟨m₀, false⟩ es).apply p e).turnedBack = true at ht
    by_cases he : e = .step 0
    · subst he
      obtain ⟨v, hv, -⟩ := (follows_run (p := p) hm es).worker
      refine ⟨es, [], rfl, List.not_mem_nil, ?_⟩
      generalize hs : (run p ⟨m₀, false⟩ es).apply p (.step 0) = s' at ht
      cases turns_of_turn hv hs with
      | full _ hx hf => exact (Channel.send_eq_full_iff.1 hf).2.1
      | _ => cases ht
    · rw [apply_of_ne he] at ht
      obtain ⟨fs, os, rfl, hos, hfull⟩ := ih ht
      exact ⟨fs, os ++ [e], by simp, by simpa [hos] using Ne.symm he, hfull⟩

/-- **Why a worker gives up**: the receiver is gone, or the channel had no
room for the record and the run has stopped since. -/
theorem of_isRefused (hm : s.machine.workers = [w]) (h : s.machine.isRefused 0 = false)
    (h' : (s.apply p e).machine.isRefused 0 = true) :
    s.machine.shared.sink.hasReceiver = false ∨
      s.turnedBack = true ∧ s.machine.shared.run.isRunning = false := by
  by_cases he : e = .step 0
  · subst he
    generalize hs : s.apply p (.step 0) = s' at h'
    cases turns_of_turn hm hs with
    | again => exact absurd (h.symm.trans h') (by simp)
    | full => exact absurd (h.symm.trans h') (by simp)
    | giveUp ht hrun => exact .inr ⟨ht, hrun⟩
    | step ht hf =>
      -- a step that is refused met a channel that is not full
      obtain ⟨v, x, hv, hx, hsend⟩ := Machine.exists_of_refused h h'
      rw [hm] at hv
      obtain rfl := Option.some.inj hv
      obtain ⟨-, hgone | ⟨hfull, -⟩⟩ := Channel.send_eq_refused_iff.1 hsend
      · exact .inl hgone
      · cases hheld : s.machine.shared.sink.hasReceiver with
        | false => exact .inl rfl
        | true => exact absurd (Channel.send_eq_full_iff.2 ⟨hheld, hfull, rfl⟩) (hf x hx)
  · rw [apply_of_ne he, Machine.isRefused, Machine.workers_apply hm he, ← hm] at h'
    exact absurd (h.symm.trans h') (by simp)

theorem hasReceiver_apply (he : e ≠ .act .drop) (hm : s.machine.workers = [w]) :
    (s.apply p e).machine.shared.sink.hasReceiver = s.machine.shared.sink.hasReceiver := by
  by_cases hz : e = .step 0
  · subst hz
    generalize hs : s.apply p (.step 0) = s'
    cases turns_of_turn hm hs with
    | step => exact Machine.hasReceiver_apply he
    | _ => rfl
  · rw [apply_of_ne hz]
    exact Machine.hasReceiver_apply he

/-- While nobody lets go of the receiver it is held. -/
theorem hasReceiver_run (hm : m₀.workers = [w]) (hheld : m₀.shared.sink.hasReceiver = true)
    (hes : .act .drop ∉ es) :
    (run p ⟨m₀, false⟩ es).machine.shared.sink.hasReceiver = true := by
  induction es using List.reverseRecOn with
  | nil => exact hheld
  | append_singleton es e ih =>
    rw [List.mem_append, not_or, List.mem_singleton] at hes
    obtain ⟨v, hv, -⟩ := (follows_run (p := p) hm es).worker
    rw [run_append]
    exact (hasReceiver_apply (Ne.symm hes.2) hv).trans (ih hes.1)

end Sending

namespace Ingestion

/-- The run at its start, with the channel it delivers through just opened,
`none` when opening this panics. -/
def spawn? (g : Ingestion) (service : Service) : Option Sending :=
  (Channel.open? g.config.channelCapacity.toNat).map fun c => ⟨g.start service c, false⟩

/-- The run into its channel, sending in two looks. -/
def send (g : Ingestion) (service : Service) (es : List (Event ReceiverAction)) : Sending :=
  Sending.run g.plan ⟨g.start service g.channel, false⟩ es

/-- Where its channel can be opened, the run starts with it. -/
theorem run_of_spawn? {s : Sending} (h : g.spawn? service = some s)
    (es : List (Event ReceiverAction)) : s.run g.plan es = g.send service es := by
  rw [spawn?, Channel.open?] at h
  split at h
  · cases h
    rfl
  · cases h

/-- **Why an emission in two looks fails**: the receiver was let go, or the
channel was full at the last look at it, and the run has stopped by the
look behind. -/
theorem of_fails_send (hg : ofSession c t selected = .ok g) (hp : c.parallelism = 1)
    (service : Service)
    (h : (g.send service es).machine.Fails (g.send service (es ++ [e])).machine) :
    .act .drop ∈ es ∨ (∃ fs os, es = fs ++ .step 0 :: os ∧ .step 0 ∉ os ∧
      (g.send service fs).machine.shared.sink.queue.length = c.channelCapacity.toNat) ∧
        (g.send service es).machine.shared.run.isRunning = false := by
  have hstart := workers_solo hg hp service g.channel
  obtain ⟨v, hv, -⟩ := (Sending.follows_run (p := g.plan) hstart es).worker
  have happly : g.send service (es ++ [e]) = (g.send service es).apply g.plan e :=
    Sending.run_append _ _ _ _
  rw [happly] at h
  rcases Sending.of_isRefused hv h.1 h.2 with hgone | ⟨hback, hstopped⟩
  · by_contra hc
    have hheld := Sending.hasReceiver_run (p := g.plan) hstart rfl (not_or.1 hc).1
    exact absurd (hgone.symm.trans hheld) (by simp)
  · refine .inr ⟨?_, hstopped⟩
    obtain ⟨fs, os, rfl, hos, hfull⟩ := Sending.exists_of_turnedBack hstart hback
    refine ⟨fs, os, rfl, hos, ?_⟩
    obtain ⟨gs, hgs⟩ := Sending.exists_run (p := g.plan) hstart fs
    have hsends := Machine.sends_run (p := g.plan) (sends_start hg service) gs
    rw [← hgs] at hsends
    rw [hsends.holds.capacity] at hfull
    exact Nat.le_antisymm hsends.holds.length hfull

end Ingestion

end Intake
