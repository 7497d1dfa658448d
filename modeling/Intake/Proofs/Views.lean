import Intake.Proofs.Moves
import Mathlib.Data.List.Induction
import Mathlib.Data.List.Nodup
/-!
# What one worker sees of a run

The workers of a run share the service, the sink, the records taken and
the results. A worker can tell only a part of that: the records that came
from itself, its own result, the faults queued and the calls made for its
own splits, the records taken of these, and whether the run goes on. A step
notes one call at most and changes nothing else of the service that a
worker can tell (`Worker.Moves.alike`), so that a step of another worker,
whose splits are others, leaves that part as it is, except that it may stop
the run (`Worker.Moves.apart`). A property of a worker and its part that its own
steps keep holds after every list of events (`Machine.each_run`).
-/

namespace Intake

variable {σ α : Type} {p : Plan} {sink : Sink σ α} {sh sh' : Shared σ} {w w' : Worker}
variable {o : ReadOptions} {running : Bool} {r r' : SplitReader} {s s' s₁ : Service} {g : Signal}
variable {st : Stream} {e : TransportError} {c : ReadCall} {x y : SplitId}

/-! ## The calls and the faults of a split -/

/-- The calls for a split. -/
def callsFor (x : SplitId) (made : List ReadCall) : List ReadCall :=
  made.filter fun c => c.split == x

theorem callsFor_append (x : SplitId) (as bs : List ReadCall) :
    callsFor x (as ++ bs) = callsFor x as ++ callsFor x bs := List.filter_append ..

theorem callsFor_eq_nil {made : List ReadCall} (h : ∀ c ∈ made, c.split ≠ x) :
    callsFor x made = [] :=
  List.filter_eq_nil_iff.2 fun c hc => by simpa using h c hc

namespace Service

@[simp] theorem faultsOf_setFaults_self (s : Service) (x : SplitId) (fs : List Fault) :
    (s.setFaults x fs).faultsOf x = fs := by
  simp [faultsOf, setFaults]

theorem lookup_filter_ne {β : Type} (es : List (SplitId × β)) (h : x ≠ y) :
    (es.filter fun e => e.1 != y).lookup x = es.lookup x := by
  induction es with
  | nil => rfl
  | cons e es ih =>
    by_cases he : e.1 = y
    · have hx : (x == e.1) = false := by simpa [he] using h
      rw [List.filter_cons_of_neg (by simpa using he), ih, List.lookup_cons, hx]
    · rw [List.filter_cons_of_pos (by simpa using he), List.lookup_cons, List.lookup_cons, ih]

theorem faultsOf_setFaults_of_ne (s : Service) (fs : List Fault) (h : x ≠ y) :
    (s.setFaults y fs).faultsOf x = s.faultsOf x := by
  have hx : (x == y) = false := by simpa using h
  simp [faultsOf, setFaults, List.lookup_cons, hx, lookup_filter_ne s.faults h]

/-- A call uses up the first fault of its split. -/
theorem faultsOf_note_self (s : Service) (c : ReadCall) :
    (s.note c).faultsOf c.split = (s.faultsOf c.split).tail := by
  unfold note
  split
  · rename_i h
    have : ({ s with calls := s.calls ++ [c] } : Service).faultsOf c.split = [] := h
    rw [h, this]
    rfl
  · rename_i f rest h
    rw [h, faultsOf_setFaults_self, List.tail_cons]

/-- And no fault of another. -/
theorem faultsOf_note_of_ne (s : Service) (h : x ≠ c.split) :
    (s.note c).faultsOf x = s.faultsOf x := by
  unfold note
  split
  · rfl
  · exact faultsOf_setFaults_of_ne _ _ h

@[simp] theorem calls_note (s : Service) (c : ReadCall) : (s.note c).calls = s.calls ++ [c] := by
  unfold note
  split <;> rfl

theorem streams_note (s : Service) (c : ReadCall) :
    (s.note c).opened = s.opened ∧ (s.note c).released = s.released := by
  unfold note
  split <;> exact ⟨rfl, rfl⟩

/-- The service `s'` is `s` but for the streams opened and given back. -/
structure Alike (s s' : Service) : Prop where
  scripts : s'.scripts = s.scripts
  faults : s'.faults = s.faults
  calls : s'.calls = s.calls

theorem Alike.refl (s : Service) : s.Alike s := ⟨rfl, rfl, rfl⟩

theorem Alike.trans (h : s.Alike s₁) (h' : s₁.Alike s') : s.Alike s' :=
  ⟨h'.scripts.trans h.scripts, h'.faults.trans h.faults, h'.calls.trans h.calls⟩

theorem Alike.faultsOf_eq (h : s.Alike s') (x : SplitId) : s'.faultsOf x = s.faultsOf x := by
  rw [faultsOf, faultsOf, h.faults]

theorem alike_releaseIf (s : Service) (h : Option Stream) : s.Alike (s.releaseIf h) := by
  unfold releaseIf
  split <;> exact ⟨rfl, rfl, rfl⟩

/-- What a call leads to: it is noted, and answered as the first fault of
its split has it. -/
theorem read_eq {a : Except TransportError Stream} (h : s.read c = (s₁, a)) :
    (s.note c).Alike s₁ ∧ s.streamFor c (s.faultsOf c.split).head? = a := by
  unfold read at h
  dsimp only at h
  split at h <;>
  · rename_i heq
    cases h
    exact ⟨⟨rfl, rfl, rfl⟩, heq⟩

theorem faultsOf_read_self {a : Except TransportError Stream} (h : s.read c = (s₁, a)) :
    s₁.faultsOf c.split = (s.faultsOf c.split).tail :=
  ((read_eq h).1.faultsOf_eq c.split).trans (faultsOf_note_self s c)

theorem script?_congr (h : s'.scripts = s.scripts) (x : SplitId) : s'.script? x = s.script? x := by
  rw [script?, script?, h]

end Service

/-! ## A reader stays with its split -/

namespace SplitReader

/-- The service with the call noted that a reader makes by its next step, if
any. -/
def noting (o : ReadOptions) (r : SplitReader) (s : Service) : Service :=
  if r.callsNext then s.note (r.call o) else s

theorem noting_of_callsNext (h : r.callsNext = true) (o : ReadOptions) (s : Service) :
    r.noting o s = s.note (r.call o) := if_pos h

theorem noting_of_ne_fetching (h : r.stage ≠ .fetching) (o : ReadOptions) (s : Service) :
    r.noting o s = s := by
  simp [noting, callsNext, h]

@[simp] theorem scripts_noting (o : ReadOptions) (r : SplitReader) (s : Service) :
    (r.noting o s).scripts = s.scripts := by
  unfold noting
  split <;> simp

theorem faultsOf_noting_of_ne (o : ReadOptions) (s : Service) (h : x ≠ r.split) :
    (r.noting o s).faultsOf x = s.faultsOf x := by
  unfold noting
  split
  · exact Service.faultsOf_note_of_ne s h
  · rfl

theorem Opens.alike (h : Opens o r s s₁ st) (hr : r.stage = .fetching) :
    (r.noting o s).Alike s₁ := by
  cases h with
  | held h => simp [noting, callsNext, h, Service.Alike.refl]
  | called h hc =>
    rw [noting_of_callsNext (by simp [callsNext, hr, h])]
    exact (Service.read_eq hc).1

theorem Fails.alike (h : Fails o r s s₁ e) (hr : r.stage = .fetching) :
    (r.noting o s).Alike s₁ := by
  cases h with
  | call h hc =>
    rw [noting_of_callsNext (by simp [callsNext, hr, h])]
    exact (Service.read_eq hc).1
  | stream h hn => exact (h.alike hr).trans ⟨rfl, rfl, rfl⟩

/-- **A step of a reader notes its call**, if it makes one, and changes
nothing else of the service but the streams opened and given back. -/
theorem Moves.alike (h : Moves o running r s r' s' g) : (r.noting o s).Alike s' := by
  have hstays : r.stage ≠ .fetching → s.Alike s' → (r.noting o s).Alike s' := fun hr h => by
    rwa [noting_of_ne_fetching hr]
  cases h with
  | through hr => exact hstays (by simp [hr]) (.refl s)
  | look hr hrun => exact hstays (by simp [hr]) (.refl s)
  | resume hr hrun => exact hstays (by simp [hr]) (.refl s)
  | interrupt hr hrun =>
    exact hstays (by rcases hr with hr | hr <;> simp [hr]) (Service.alike_releaseIf s _)
  | retry hr hf ht hb => exact hf.alike hr
  | fail hr hf hb => exact hf.alike hr
  | batch hr ho hn hfits => exact ho.alike hr
  | panic hr ho hn hover => exact ho.alike hr
  | finish hr ho hn => exact (ho.alike hr).trans ⟨rfl, rfl, rfl⟩

theorem Moves.scripts_eq (h : Moves o running r s r' s' g) : s'.scripts = s.scripts :=
  h.alike.scripts.trans (scripts_noting o r s)

theorem Moves.split_eq (h : Moves o running r s r' s' g) : r'.split = r.split := by
  cases h <;> rfl

end SplitReader

/-! ## A worker stays with its splits -/

namespace Worker

/-- The split a worker is reading, if any. -/
def inHand (w : Worker) : List SplitId :=
  match w.stage with
  | .reading r _ | .emitting r .. | .refused r => [r.split]
  | _ => []

/-- A worker of a number, all of whose splits are among its own. -/
structure Belongs (i : Nat) (own : List SplitId) (w : Worker) : Prop where
  worker : w.report.worker = i
  splits : ∀ x ∈ w.inHand ++ w.splits, x ∈ own

theorem Moves.worker_eq (h : Moves p sink w sh w' sh') : w'.report.worker = w.report.worker := by
  cases h <;> rfl

/-- A worker puts down the split in hand, or takes up the next, so that the
splits left are the last of those left before. -/
theorem Moves.suffix_splits (h : Moves p sink w sh w' sh') :
    w'.inHand ++ w'.splits <:+ w.inHand ++ w.splits := by
  cases h with
  | through hw h => simp [inHand, hw]
  | take hw hx hrun => simp [inHand, hw, hx]
  | read hw hr => simp [inHand, hw, hr.split_eq]
  | decode hw hr hd => simp [inHand, hw, hr.split_eq]
  | undecoded hw hr hd => simp [inHand, hw]
  | unread hw hr => simp [inHand, hw]
  | interrupted hw hr hi => simp [inHand, hw]
  | finish hw hr hi => simp [inHand, hw]
  | panic hw hr => simp [inHand, hw]
  | emitted hw => simp [inHand, hw]
  | accept hw ho => simp [inHand, hw]
  | refuse hw ho => simp [inHand, hw]
  | cancel hw => simp [inHand, hw]
  | fail hw => simp [inHand, hw]
  | leave hw => simp [inHand, hw]

theorem Moves.sublist_splits (h : Moves p sink w sh w' sh') :
    (w'.inHand ++ w'.splits).Sublist (w.inHand ++ w.splits) := h.suffix_splits.sublist

/-- A step takes up no split that the worker did not have. -/
theorem Moves.mem_splits (h : Moves p sink w sh w' sh') :
    ∀ x ∈ w'.inHand ++ w'.splits, x ∈ w.inHand ++ w.splits :=
  fun _ hx => h.sublist_splits.subset hx

/-- A worker takes up splits from the list it has. -/
theorem Moves.splits_subset (h : Moves p sink w sh w' sh') : ∀ x ∈ w'.splits, x ∈ w.splits := by
  cases h with
  | take hw hx hrun => simp +contextual [hx]
  | _ => exact fun _ h => h

/-- A split that is still to be taken up is not the one in hand. -/
theorem not_mem_inHand (hn : (w.inHand ++ w.splits).Nodup) (hx : x ∈ w.splits) : x ∉ w.inHand :=
  fun hin => (List.nodup_append.1 hn).2.2 x hin x hx rfl

theorem Belongs.of_moves {i : Nat} {own : List SplitId} (hw : Belongs i own w)
    (h : Moves p sink w sh w' sh') : Belongs i own w' :=
  ⟨h.worker_eq.trans hw.worker, fun x hx => hw.splits x (h.mem_splits x hx)⟩

/-- The service with the call noted that a worker makes by its next step, if
any. -/
def noting (p : Plan) (w : Worker) (s : Service) : Service :=
  match w.stage with
  | .reading r _ => r.noting p.options s
  | _ => s

theorem noting_of_reading {k : Nat} (hw : w.stage = .reading r k) (p : Plan) (s : Service) :
    w.noting p s = r.noting p.options s := by
  simp only [noting, hw]

/-- **A step of a worker notes its call**, if it makes one, and changes
nothing else of the service but the streams opened and given back. -/
theorem Moves.alike (h : Moves p sink w sh w' sh') :
    (w.noting p sh.service).Alike sh'.service := by
  have hread : ∀ {r r' : SplitReader} {k : Nat} {s' : Service} {g : Signal},
      w.stage = .reading r k → r.Moves p.options sh.run.isRunning sh.service r' s' g →
      (w.noting p sh.service).Alike s' := fun hw hr => by
    rw [noting_of_reading hw]
    exact hr.alike
  have hclosed := Service.alike_releaseIf
  have hstays : (∀ r k, w.stage ≠ .reading r k) → ∀ {s' : Service}, sh.service.Alike s' →
      (w.noting p sh.service).Alike s' := fun hw s' h => by
    unfold noting
    split
    · exact absurd ‹_› (hw _ _)
    · exact h
  cases h with
  | read hw hr => exact hread hw hr
  | decode hw hr hd => exact hread hw hr
  | undecoded hw hr hd => exact (hread hw hr).trans (hclosed _ _)
  | unread hw hr => exact (hread hw hr).trans (hclosed _ _)
  | interrupted hw hr hi => exact (hread hw hr).trans (hclosed _ _)
  | finish hw hr hi => exact (hread hw hr).trans (hclosed _ _)
  | panic hw hr => exact (hread hw hr).trans (hclosed _ _)
  | cancel hw => exact hstays (by simp [hw]) (hclosed _ _)
  | _ => exact hstays (by simp_all) (.refl _)

/-- A step of a worker changes no script, and no fault but those of the
split in hand. -/
theorem Moves.service_eq (h : Moves p sink w sh w' sh') :
    sh'.service.scripts = sh.service.scripts ∧
      ∀ x, x ∉ w.inHand → sh'.service.faultsOf x = sh.service.faultsOf x := by
  have ha := h.alike
  unfold noting at ha
  split at ha
  · rename_i r k hw
    refine ⟨ha.scripts.trans (SplitReader.scripts_noting _ _ _), fun x hx => ?_⟩
    have hne : x ≠ r.split := fun he => hx (by simp [inHand, hw, he])
    exact (ha.faultsOf_eq x).trans (SplitReader.faultsOf_noting_of_ne _ _ hne)
  · exact ⟨ha.scripts, fun x _ => ha.faultsOf_eq x⟩

/-- A step of a worker makes one call at most, from where its reader
stands. -/
theorem Moves.calls_eq (h : Moves p sink w sh w' sh') :
    sh'.service.calls = sh.service.calls ∨
      ∃ r batch, w.stage = .reading r batch ∧ r.callsNext = true ∧
        sh'.service.calls = sh.service.calls ++ [r.call p.options] := by
  have ha := h.alike
  unfold noting at ha
  split at ha
  · rename_i r k hw
    unfold SplitReader.noting at ha
    split at ha
    · rename_i hr
      exact .inr ⟨r, k, hw, hr, ha.calls.trans (Service.calls_note _ _)⟩
    · exact .inl ha.calls
  · exact .inl ha.calls

end Worker

/-! ## The part of a run that one worker sees -/

namespace Shared

/-- What the sink took from a worker, in the order it took it. -/
def deliveriesFrom (sh : Shared σ) (i : Nat) : List Delivery :=
  sh.delivered.toList.filter fun d => d.worker == i

/-- The records the sink took from a worker, in the order it took them. -/
def recordsFrom (sh : Shared σ) (i : Nat) : List Record :=
  (sh.delivered.toList.filter fun d => d.worker == i).map Delivery.record

/-- A record that is taken stands behind those taken before. -/
theorem recordsFrom_push (sh : Shared σ) (y : σ) {d : Delivery} {i : Nat} (hd : d.worker = i) :
    Shared.recordsFrom { sh with sink := y, delivered := sh.delivered.push d } i =
      sh.recordsFrom i ++ [d.record] := by
  simp [recordsFrom, List.filter_append, hd]

/-- The records the sink took of a split, in the order it took them. -/
def recordsOf (sh : Shared σ) (x : SplitId) : List Record :=
  (sh.delivered.toList.filter fun d => d.split == x).map Delivery.record

theorem recordsOf_push_self (sh : Shared σ) (y : σ) (d : Delivery) :
    Shared.recordsOf { sh with sink := y, delivered := sh.delivered.push d } d.split =
      sh.recordsOf d.split ++ [d.record] := by
  simp [recordsOf, List.filter_append]

theorem recordsOf_push_of_ne (sh : Shared σ) (y : σ) {d : Delivery} {x : SplitId}
    (h : d.split ≠ x) :
    Shared.recordsOf { sh with sink := y, delivered := sh.delivered.push d } x =
      sh.recordsOf x := by
  simp [recordsOf, List.filter_append, h]

/-- The results a worker left the run with. -/
def resultsOf (sh : Shared σ) (i : Nat) : List (Except Failure Report) :=
  (sh.results.filter fun r => r.1 == i).map Prod.snd

/-- What changes between two states of a run that a worker does not notice,
but for the run having stopped. -/
structure Apart (i : Nat) (own : List SplitId) (sh sh' : Shared σ) : Prop where
  deliveries : sh'.deliveriesFrom i = sh.deliveriesFrom i
  results : sh'.resultsOf i = sh.resultsOf i
  scripts : sh'.service.scripts = sh.service.scripts
  faults : ∀ x ∈ own, sh'.service.faultsOf x = sh.service.faultsOf x
  calls : ∀ x ∈ own, callsFor x sh'.service.calls = callsFor x sh.service.calls
  taken : ∀ x ∈ own, sh'.recordsOf x = sh.recordsOf x
  run : sh'.run.isRunning = true → sh.run.isRunning = true

theorem Apart.records {i : Nat} {own : List SplitId} (h : sh.Apart i own sh') :
    sh'.recordsFrom i = sh.recordsFrom i :=
  congrArg (List.map Delivery.record) h.deliveries

/-- A run that has stopped stays so. -/
theorem Apart.stopped {i : Nat} {own : List SplitId} (h : sh.Apart i own sh')
    (hs : sh.run.isRunning = false) : sh'.run.isRunning = false := by
  by_contra hc
  rw [h.run (by simpa using hc)] at hs
  cases hs

end Shared

namespace RunState

/-- A run that is asked to stop goes on no more. -/
@[simp] theorem isRunning_cancel (run : RunState) : run.cancel.isRunning = false := by
  cases run <;> rfl

@[simp] theorem isRunning_fail (run : RunState) : run.fail.isRunning = false := by
  cases run <;> rfl

/-- A request to cancel is no failure. -/
theorem eq_failed_of_cancel {run : RunState} (h : run.cancel = .failed) : run = .failed := by
  cases run <;> simp_all [cancel, stop]

end RunState

namespace Shared

/-- A request to cancel stops the run, and that is all a worker sees of
it. -/
theorem apart_cancel (sh : Shared σ) (i : Nat) (own : List SplitId) :
    sh.Apart i own sh.cancel :=
  ⟨rfl, rfl, rfl, fun _ _ => rfl, fun _ _ => rfl, fun _ _ => rfl, by simp [cancel]⟩

/-- Of what the outside does to the sink a worker sees nothing. -/
theorem apart_act (sh : Shared σ) (sink : Sink σ α) (a : α) (i : Nat) (own : List SplitId) :
    sh.Apart i own (sh.act sink a) :=
  ⟨rfl, rfl, rfl, fun _ _ => rfl, fun _ _ => rfl, fun _ _ => rfl, id⟩

end Shared

namespace Worker

/-- Only a worker with a batch of a split in hand has records of it
taken. -/
theorem Moves.recordsOf_eq (h : Moves p sink w sh w' sh') (x : SplitId) :
    sh'.recordsOf x = sh.recordsOf x ∨
      ∃ r batch rest rows bytes, w.stage = .emitting r batch rest rows bytes ∧ r.split = x := by
  cases h with
  | accept hw ho =>
    rename_i r batch rows bytes z rest y
    by_cases hx : r.split = x
    · exact .inr ⟨r, batch, _, rows, bytes, hw, hx⟩
    · exact .inl (Shared.recordsOf_push_of_ne sh y hx)
  | _ => exact .inl rfl

/-- So nothing is taken of splits that are not in hand. -/
theorem Moves.recordsOf_of_not_mem (h : Moves p sink w sh w' sh') (hx : x ∉ w.inHand) :
    sh'.recordsOf x = sh.recordsOf x := by
  refine (h.recordsOf_eq x).resolve_right ?_
  rintro ⟨r, batch, rest, rows, bytes, hw, rfl⟩
  exact hx (by simp [inHand, hw])

/-- A worker calls for no split but the one in hand. -/
theorem Moves.callsFor_eq (h : Moves p sink w sh w' sh') (hx : x ∉ w.inHand) :
    callsFor x sh'.service.calls = callsFor x sh.service.calls := by
  rcases h.calls_eq with he | ⟨r, batch, hw, -, he⟩
  · rw [he]
  · have hne : r.split ≠ x := fun hr => hx (by simp [inHand, hw, hr])
    have hnil : callsFor x [r.call p.options] = [] :=
      callsFor_eq_nil (List.forall_mem_singleton.2 hne)
    rw [he, callsFor_append, hnil, List.append_nil]

/-- **A step of a worker is out of sight of another**, which has another
number and other splits. -/
theorem Moves.apart {i j : Nat} {own other : List SplitId} (hij : i ≠ j)
    (hd : own.Disjoint other) (hw : Belongs j other w) (h : Moves p sink w sh w' sh') :
    sh.Apart i own sh' := by
  have hji : (w.report.worker == i) = false := by simpa [hw.worker] using hij.symm
  have hnot : ∀ x ∈ own, x ∉ w.inHand := fun x hx hin =>
    hd hx (hw.splits x (List.mem_append_left _ hin))
  obtain ⟨hs, hf⟩ := h.service_eq
  have hown : ∀ x ∈ own, sh'.service.faultsOf x = sh.service.faultsOf x := fun x hx =>
    hf x (hnot x hx)
  have hcalls : ∀ x ∈ own, callsFor x sh'.service.calls = callsFor x sh.service.calls :=
    fun x hx => h.callsFor_eq (hnot x hx)
  have htaken : ∀ x ∈ own, sh'.recordsOf x = sh.recordsOf x := fun x hx =>
    h.recordsOf_of_not_mem (hnot x hx)
  cases h with
  | accept hw ho =>
    refine ⟨?_, rfl, hs, hown, hcalls, htaken, id⟩
    simp [Shared.deliveriesFrom, List.filter_append, hji]
  | cancel hw => exact ⟨rfl, rfl, hs, hown, hcalls, htaken, by simp [close]⟩
  | fail hw => exact ⟨rfl, rfl, hs, hown, hcalls, htaken, by simp⟩
  | leave hw =>
    refine ⟨rfl, ?_, hs, hown, hcalls, htaken, id⟩
    simp [Shared.resultsOf, List.filter_append, hji]
  | _ => exact ⟨rfl, rfl, hs, hown, hcalls, htaken, id⟩

end Worker

/-! ## From steps to runs -/

namespace Machine

variable {m : Machine σ}

/-- What an event leads to: nothing, a step of a worker, or what the
outside does. -/
theorem apply_cases {Q : Machine σ → Prop} (e : Event α) (same : Q m)
    (step : ∀ {i w w' sh'}, m.workers[i]? = some w → w.Moves p sink m.shared w' sh' →
      Q ⟨sh', m.workers.set i w'⟩)
    (cancel : e = .cancel → Q { m with shared := m.shared.cancel })
    (act : ∀ a, Q { m with shared := m.shared.act sink a }) : Q (m.apply p sink e) := by
  cases e with
  | step i =>
    rw [apply]
    split
    · exact same
    · rename_i w hw
      split
      · exact same
      · rename_i w' sh' hs
        exact step hw (Worker.moves_of_step hs)
  | cancel => exact cancel rfl
  | act a => exact act a

/-- **What every step and every act of the outside keep holds after every
list of events.** -/
theorem run_induction {Q : Machine σ → Prop} (es : List (Event α)) (h : Q m)
    (step : ∀ {m : Machine σ} {i w w' sh'}, Q m → m.workers[i]? = some w →
      w.Moves p sink m.shared w' sh' → Q ⟨sh', m.workers.set i w'⟩)
    (cancel : ∀ m, Q m → Q { m with shared := m.shared.cancel })
    (act : ∀ m a, Q m → Q { m with shared := m.shared.act sink a }) : Q (m.run p sink es) := by
  induction es generalizing m with
  | nil => exact h
  | cons e es ih => exact ih (apply_cases e h (step h) (fun _ => cancel m h) (act m · h))

/-- A property that every worker of a run has, of itself and what it
shares. -/
def Each (I : Nat → Worker → Shared σ → Prop) (m : Machine σ) : Prop :=
  ∀ i w, m.workers[i]? = some w → I i w m.shared

/-- **A property of a worker and what it sees, kept by its own steps, holds
after every list of events**, if the workers have no split in common. -/
theorem each_run {own : Nat → List SplitId} {I : Nat → Worker → Shared σ → Prop}
    (hd : ∀ i j, i ≠ j → (own i).Disjoint (own j))
    (hb : m.Each fun i w _ => w.Belongs i (own i)) (h : m.Each I)
    (step : ∀ {i w sh w' sh'}, w.Belongs i (own i) → I i w sh → w.Moves p sink sh w' sh' →
      I i w' sh')
    (apart : ∀ {i w sh sh'}, w.Belongs i (own i) → I i w sh → sh.Apart i (own i) sh' →
      I i w sh')
    (es : List (Event α)) :
    (m.run p sink es).Each fun i w sh => w.Belongs i (own i) ∧ I i w sh := by
  refine run_induction es (fun i w hw => ⟨hb i w hw, h i w hw⟩) ?_ ?_ ?_
  · intro m j v v' sh' ih hv hm i w hw
    obtain ⟨hvb, hvI⟩ := ih j v hv
    have hj : j < m.workers.length := (List.getElem?_eq_some_iff.1 hv).1
    by_cases hij : i = j
    · subst hij
      rw [List.getElem?_set_self hj] at hw
      obtain rfl := Option.some.inj hw
      exact ⟨hvb.of_moves hm, step hvb hvI hm⟩
    · rw [List.getElem?_set_ne (fun h => hij h.symm)] at hw
      obtain ⟨hwb, hwI⟩ := ih i w hw
      exact ⟨hwb, apart hwb hwI (hm.apart hij (hd i j hij) hvb)⟩
  · intro m ih i w hw
    obtain ⟨hwb, hwI⟩ := ih i w hw
    exact ⟨hwb, apart hwb hwI (m.shared.apart_cancel i (own i))⟩
  · intro m a ih i w hw
    obtain ⟨hwb, hwI⟩ := ih i w hw
    exact ⟨hwb, apart hwb hwI (m.shared.apart_act sink a i (own i))⟩

/-- **A property of a whole run**, kept by every step of a worker of which
something is known throughout. -/
theorem run_of_each {I : Nat → Worker → Shared σ → Prop} {Q : Machine σ → Prop}
    (hI : ∀ es : List (Event α), (m.run p sink es).Each I) (es : List (Event α)) (h : Q m)
    (step : ∀ {m : Machine σ} {i w w' sh'}, Q m → m.workers[i]? = some w → I i w m.shared →
      w.Moves p sink m.shared w' sh' → Q ⟨sh', m.workers.set i w'⟩)
    (cancel : .cancel ∈ es → ∀ m, Q m → Q { m with shared := m.shared.cancel })
    (act : ∀ m a, Q m → Q { m with shared := m.shared.act sink a }) : Q (m.run p sink es) := by
  induction es using List.reverseRecOn with
  | nil => exact h
  | append_singleton es e ih =>
    have hQ := ih fun hc => cancel (List.mem_append_left _ hc)
    rw [run_append]
    exact apply_cases e hQ (fun hi hm => step hQ hi (hI es _ _ hi) hm)
      (fun he => cancel (by simp [he]) _ hQ) (act _ · hQ)

end Machine

end Intake
