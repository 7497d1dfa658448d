import Intake.Proofs.Opening
import Intake.Proofs.Progress
import Intake.Proofs.Sending
/-!
# Draining a bounded channel

When nobody cancels a run of one worker and the receiver of its channel is
held, the worker moves as it does into a sink that takes everything, except
that it waits while the channel is full (`Machine.Mirrors`). So when the
worker has its turn and the receiver's holder receives again and again, the
run ends as it ends there, and everything emitted is received
(`Machine.exists_drained`). For a worker that sends in two looks the turns
at which it looks whether the run goes on come to nothing
(`Sending.machine_upTo`).

The main statement, for every order of events, puts this together with what
holds while the run goes on (`bounded_delivery`).
-/

namespace Intake

variable {σ τ α β : Type} {p : Plan} {n : Nat} {w w' : Worker} {x : Record}

/-! ## Workers move alike into every sink -/

namespace Shared

/-- What is shared, with another sink in the place of its own. -/
def onto (sh : Shared σ) (y : τ) : Shared τ := { sh with sink := y }

theorem records_onto (sh : Shared σ) (y : τ) : (sh.onto y).records = sh.records := rfl

theorem conclude_onto (sh : Shared σ) (y : τ) : (sh.onto y).conclude = sh.conclude := rfl

end Shared

namespace Worker

theorem stepReading_onto (w : Worker) (r : SplitReader) (k : Nat) (sh : Shared σ) (y : τ) :
    w.stepReading p r k (sh.onto y) =
      ((w.stepReading p r k sh).1, (w.stepReading p r k sh).2.onto y) := by
  simp only [stepReading, Shared.onto]
  split
  · rfl
  · split <;> rfl
  · rfl
  · split <;> rfl
  · rfl

/-- **A worker that offers no record moves alike with every sink.** -/
theorem step_onto (hw : w.offered? = none) (sink : Sink σ α) (other : Sink τ β) (sh : Shared σ)
    (y : τ) : w.step p other (sh.onto y) = (w.step p sink sh).map fun q => (q.1, q.2.onto y) := by
  unfold step
  unfold offered? at hw
  split at hw
  · cases hw
  rename_i hne
  split
  · rfl
  · exact congrArg some (stepReading_onto _ _ _ _ _)
  · rfl
  · rename_i he
    exact absurd he (hne _ _ _ _ _ _)
  all_goals rfl

variable {sh sh' : Shared Channel}

/-! ## Workers that nobody disturbs -/

/-- The one worker of a run that nobody cancels, while the receiver is held:
it is refused nothing, and the run goes on until the worker is about to
leave. -/
structure Undisturbed (n : Nat) (w : Worker) (sh : Shared Channel) : Prop where
  held : sh.sink.hasReceiver = true
  holds : sh.sink.Holds n
  stage : ∀ r, w.stage ≠ .refused r
  running : sh.run.isRunning = true ∨ (∃ res, w.stage = .leaving res) ∨ w.stage = .left

theorem Undisturbed.isRunning (h : w.Undisturbed n sh) (hx : w.offered? = some x) :
    sh.run.isRunning = true := by
  obtain ⟨r, k, rest, rows, bytes, hw⟩ := exists_of_offered? hx
  simpa [hw] using h.running

/-- It is refused nothing. -/
theorem Undisturbed.send_ne_refused {c : Channel} (h : w.Undisturbed n sh)
    (hx : w.offered? = some x) : sh.sink.send sh.run.isRunning x ≠ .refused c := by
  intro hs
  obtain ⟨-, hgone | ⟨-, hstopped⟩⟩ := Channel.send_eq_refused_iff.1 hs
  · exact absurd (h.held.symm.trans hgone) (by simp)
  · exact absurd ((h.isRunning hx).symm.trans hstopped) (by simp)

theorem Undisturbed.of_moves (h : w.Undisturbed n sh) (hm : w.Moves p Channel.sink sh w' sh') :
    w'.Undisturbed n sh' := by
  have hheld := hm.hasReceiver_eq.trans h.held
  have hrun := h.running
  cases hm with
  | accept hw ho =>
    refine ⟨hheld, h.holds.send ho, by simp, .inl ?_⟩
    simpa [hw] using hrun
  | refuse hw ho => exact absurd ho (h.send_ne_refused (by simp [offered?, hw]))
  | cancel hw => exact absurd hw (h.stage _)
  | through => exact ⟨hheld, h.holds, by simp, .inr (.inl ⟨_, rfl⟩)⟩
  | interrupted => exact ⟨hheld, h.holds, by simp, .inr (.inl ⟨_, rfl⟩)⟩
  | fail => exact ⟨hheld, h.holds, by simp, .inr (.inl ⟨_, rfl⟩)⟩
  | leave => exact ⟨hheld, h.holds, by simp, .inr (.inr rfl)⟩
  | _ hw => exact ⟨hheld, h.holds, by simp, .inl (by simpa [hw, close] using hrun)⟩

/-- A step of it is one into the sink that takes everything. -/
theorem Undisturbed.step_collecting (h : w.Undisturbed n sh)
    (hs : w.step p Channel.sink sh = some (w', sh')) :
    w.step p Sink.collecting (sh.onto ()) = some (w', sh'.onto ()) := by
  cases hx : w.offered? with
  | none => rw [step_onto hx Channel.sink, hs, Option.map_some]
  | some x =>
    obtain ⟨r, k, rest, rows, bytes, hw⟩ := exists_of_offered? hx
    rw [step, hw] at hs ⊢
    dsimp only at hs ⊢
    split at hs
    · cases hs
      rfl
    · rename_i ho
      exact absurd ho (h.send_ne_refused hx)
    · cases hs

/-- While there is room in the channel it moves until it is gone. -/
theorem Undisturbed.isGone (h : w.Undisturbed n sh) (hroom : sh.sink.queue.length < n)
    (hs : w.step p Channel.sink sh = none) : w.isGone = true := by
  unfold step at hs
  split at hs
  case h_4 =>
    split at hs
    · cases hs
    · cases hs
    · rename_i ho
      have hfull := (Channel.send_eq_full_iff.1 ho).2.1
      rw [h.holds.capacity] at hfull
      omega
  case h_8 hw => simp [Worker.isGone, hasLeft, hw]
  case h_9 hw => simp [Worker.isGone, hasPanicked, hw]
  all_goals cases hs

end Worker

namespace Machine

variable {m m₀ : Machine Channel} {k k₀ : Machine Unit} {e : Event ReceiverAction}
variable {f : Nat → Event ReceiverAction} {i j : Nat}

/-! ## Runs that mirror one into a sink that takes everything -/

/-- A run is over when no worker moves any more. -/
theorem apply_of_isOver {m : Machine σ} {sink : Sink σ α} (h : m.isOver = true) (i : Nat) :
    m.apply p sink (.step i) = m := by
  rw [apply]
  split
  · rfl
  · rename_i w hw
    simp [Worker.step_of_isGone (List.all_eq_true.1 h w (List.mem_of_getElem? hw))]

/-- An undisturbed run of one worker, with room for `n` records in its
channel, and a run that is where this is into a sink that takes
everything. -/
def Mirrors (n : Nat) (m : Machine Channel) (k : Machine Unit) : Prop :=
  ∃ w, m.workers = [w] ∧ w.Undisturbed n m.shared ∧ k = ⟨m.shared.onto (), [w]⟩

theorem Mirrors.records_eq (h : m.Mirrors n k) : m.shared.records = k.shared.records := by
  obtain ⟨w, -, -, rfl⟩ := h
  exact (Shared.records_onto m.shared ()).symm

theorem Mirrors.isOver_eq (h : m.Mirrors n k) : m.isOver = k.isOver := by
  obtain ⟨w, hm, -, rfl⟩ := h
  rw [isOver, hm]
  rfl

theorem Mirrors.hasPanicked_eq (h : m.Mirrors n k) : m.hasPanicked = k.hasPanicked := by
  obtain ⟨w, hm, -, rfl⟩ := h
  rw [hasPanicked, hm]
  rfl

theorem Mirrors.outcome?_eq (h : m.Mirrors n k) : m.outcome? = k.outcome? := by
  have hleft : m.allLeft = k.allLeft := by
    rw [allLeft_eq, allLeft_eq, h.isOver_eq, h.hasPanicked_eq]
  obtain ⟨w, -, -, rfl⟩ := h
  rw [outcome?, outcome?, hleft, Shared.conclude_onto]

theorem Mirrors.holds (h : m.Mirrors n k) : m.shared.sink.Holds n := by
  obtain ⟨w, -, hw, -⟩ := h
  exact hw.holds

/-- What happens besides the turns of the worker shows in the channel
alone. -/
theorem Mirrors.apply_of_ne (h : m.Mirrors n k) (hs : e ≠ .step 0) (hc : e ≠ .cancel)
    (hd : e ≠ .act .drop) : (m.apply p Channel.sink e).Mirrors n k := by
  obtain ⟨w, hm, hw, rfl⟩ := h
  cases e with
  | cancel => exact absurd rfl hc
  | step i =>
    cases i with
    | zero => exact absurd rfl hs
    | succ i =>
      have hstay : m.apply p Channel.sink (.step (i + 1)) = m := by simp [apply, hm]
      rw [hstay]
      exact ⟨w, hm, hw, rfl⟩
  | act a =>
    have ha : a ≠ .drop := fun ha => hd (congrArg Event.act ha)
    exact ⟨w, hm, ⟨(Channel.hasReceiver_act ha).trans hw.held, hw.holds.act a, hw.stage,
      hw.running⟩, rfl⟩

/-- **At its turn the worker waits, or moves in both runs.** It does not wait
while there is room. -/
theorem Mirrors.apply_step (h : m.Mirrors n k) :
    (m.apply p Channel.sink (.step 0) = m ∧ (m.shared.sink.queue.length < n → k.isOver = true)) ∨
      (m.apply p Channel.sink (.step 0)).Mirrors n (k.apply p Sink.collecting (.step 0)) := by
  obtain ⟨w, hm, hw, rfl⟩ := h
  cases hs : w.step p Channel.sink m.shared with
  | none =>
    refine .inl ⟨by simp [apply, hm, hs], fun hroom => ?_⟩
    simpa [isOver] using hw.isGone hroom hs
  | some moved =>
    obtain ⟨w', sh'⟩ := moved
    refine .inr ⟨w', ?_, ?_, ?_⟩
    · rw [Machine.apply_step (by simp [hm]) hs, hm]
      rfl
    · rw [Machine.apply_step (by simp [hm]) hs]
      exact hw.of_moves (Worker.moves_of_step hs)
    · rw [Machine.apply_step (by simp [hm]) hs,
        Machine.apply_step (m := ⟨m.shared.onto (), [w]⟩) rfl (hw.step_collecting hs)]
      rfl

/-- While there is room the worker moves at its turn, if it is not gone. -/
theorem Mirrors.apply_turn (h : m.Mirrors n k) (hroom : m.shared.sink.queue.length < n) :
    (m.apply p Channel.sink (.step 0)).Mirrors n (k.apply p Sink.collecting (.step 0)) := by
  rcases h.apply_step (p := p) with ⟨hstay, hover⟩ | hmoves
  · rw [hstay, apply_of_isOver (hover hroom)]
    exact h
  · exact hmoves

theorem Mirrors.length_queue_apply_le (h : m.Mirrors n k) (hs : e ≠ .step 0) :
    (m.apply p Channel.sink e).shared.sink.queue.length ≤ m.shared.sink.queue.length := by
  obtain ⟨w, hm, -, -⟩ := h
  cases e with
  | cancel => exact Nat.le_refl _
  | act a => exact Channel.length_act_le _ a
  | step i =>
    cases i with
    | zero => exact absurd rfl hs
    | succ i => simp [apply, hm]

/-- A receipt makes room. -/
theorem Mirrors.length_queue_receive (h : m.Mirrors n k) :
    (m.apply p Channel.sink (.act .receive)).shared.sink.queue.length =
      m.shared.sink.queue.length - 1 := by
  obtain ⟨w, -, hw, -⟩ := h
  exact Channel.length_receive hw.held

/-! ## Draining -/

/-- A schedule that drains the channel: the worker has its turn and the
receiver's holder receives again and again, nobody cancels, and the
receiver is not let go. -/
structure Drains (f : Nat → Event ReceiverAction) : Prop where
  fair : IsFair 1 f
  receives : ∀ k, ∃ j, k ≤ j ∧ f j = .act .receive
  cancel : ∀ j, f j ≠ .cancel
  drop : ∀ j, f j ≠ .act .drop

/-- The run into a sink that takes everything, after so many turns of its
worker. -/
def turns (k₀ : Machine Unit) (p : Plan) (i : Nat) : Machine Unit :=
  k₀.upTo p Sink.collecting (fun _ => .step 0) i

theorem turns_succ (k₀ : Machine Unit) (p : Plan) (i : Nat) :
    k₀.turns p (i + 1) = (k₀.turns p i).apply p Sink.collecting (.step 0) :=
  upTo_succ _ _ _ _ _

/-- At every event of a schedule the runs stay where they are, or the
second goes on by a turn. -/
theorem Mirrors.apply (hf : Drains f) (h : m.Mirrors n (k₀.turns p i)) (j : Nat) :
    (m.apply p Channel.sink (f j)).Mirrors n (k₀.turns p i) ∨
      (m.apply p Channel.sink (f j)).Mirrors n (k₀.turns p (i + 1)) := by
  by_cases hs : f j = .step 0
  · rw [hs]
    rcases h.apply_step (p := p) with ⟨hstay, -⟩ | hmoves
    · exact .inl (hstay.symm ▸ h)
    · exact .inr ((turns_succ k₀ p i).symm ▸ hmoves)
  · exact .inl (h.apply_of_ne hs (hf.cancel j) (hf.drop j))

/-- Every run into a sink that takes everything is one of these, if it has
one worker and nobody cancels. -/
theorem exists_turns_eq (hk : k₀.workers = [w]) {ds : List (Event Empty)} (hds : .cancel ∉ ds) :
    ∃ i, k₀.run p Sink.collecting ds = k₀.turns p i := by
  induction ds using List.reverseRecOn with
  | nil => exact ⟨0, rfl⟩
  | append_singleton ds e ih =>
    rw [List.mem_append, not_or, List.mem_singleton] at hds
    obtain ⟨i, hi⟩ := ih hds.1
    rw [run_append, hi]
    cases e with
    | cancel => exact absurd rfl hds.2
    | act a => exact a.elim
    | step j =>
      cases j with
      | zero => exact ⟨i + 1, (turns_succ k₀ p i).symm⟩
      | succ j =>
        have hlen : (k₀.run p Sink.collecting ds).workers.length = _ := length_workers_run k₀ ds
        refine ⟨i, ?_⟩
        rw [hi, hk] at hlen
        have hnone : (k₀.turns p i).workers[j + 1]? = none := by simp [hlen]
        change (k₀.turns p i).apply p Sink.collecting (.step (j + 1)) = _
        simp only [apply, hnone]

variable (h : m₀.Mirrors n k₀) (hf : Drains f)

include h hf

/-- **A run that is drained mirrors one into a sink that takes everything**
throughout. -/
theorem mirrors_upTo (j : Nat) : ∃ i, (m₀.upTo p Channel.sink f j).Mirrors n (k₀.turns p i) := by
  induction j with
  | zero => exact ⟨0, h⟩
  | succ j ih =>
    obtain ⟨i, hi⟩ := ih
    rw [upTo_succ]
    rcases hi.apply hf j with hstay | hmoves
    · exact ⟨i, hstay⟩
    · exact ⟨i + 1, hmoves⟩

/-- **It comes wherever that one comes**, as what keeps the worker waiting is
received. -/
theorem exists_mirrors (hn : 1 ≤ n) (i : Nat) :
    ∃ j, (m₀.upTo p Channel.sink f j).Mirrors n (k₀.turns p i) := by
  induction i with
  | zero => exact ⟨0, h⟩
  | succ i ih =>
    obtain ⟨j, hj⟩ := ih
    by_contra hnever
    have hturn : ∀ l, f l = .step 0 → (m₀.upTo p Channel.sink f l).Mirrors n (k₀.turns p i) →
        ¬ (m₀.upTo p Channel.sink f l).shared.sink.queue.length < n := by
      intro l hl hmirrors hroom
      refine hnever ⟨l + 1, ?_⟩
      rw [upTo_succ, hl, turns_succ]
      exact hmirrors.apply_turn hroom
    -- if the worker stayed where it is, the next receipt would make room for good
    have hall : ∀ l, j ≤ l → (m₀.upTo p Channel.sink f l).Mirrors n (k₀.turns p i) := by
      intro l hl
      induction hl with
      | refl => exact hj
      | @step l _ ih =>
        rw [upTo_succ]
        refine (ih.apply hf l).resolve_right fun hmoves => hnever ⟨l + 1, ?_⟩
        rw [upTo_succ]
        exact hmoves
    obtain ⟨r, hjr, hr⟩ := hf.receives j
    have hroom : ∀ l, r + 1 ≤ l → (m₀.upTo p Channel.sink f l).shared.sink.queue.length < n := by
      intro l hl
      induction hl with
      | refl =>
        have hlen := (hall r hjr).holds.length
        rw [upTo_succ, hr, (hall r hjr).length_queue_receive]
        omega
      | @step l hl ih =>
        have hmirrors := hall l (Nat.le_trans hjr (Nat.le_of_succ_le hl))
        rw [upTo_succ]
        exact Nat.lt_of_le_of_lt
          (hmirrors.length_queue_apply_le fun hs => hturn l hs hmirrors ih) ih
    obtain ⟨l, hrl, hl⟩ := hf.fair 0 Nat.one_pos (r + 1)
    exact hturn l hl (hall l (by omega)) (hroom l hrl)

omit h in
/-- Behind the end of a run what is on the queue is received. -/
theorem exists_queue_eq_nil {a : Nat} (hover : k.isOver = true)
    (hall : ∀ l, a ≤ l → (m₀.upTo p Channel.sink f l).Mirrors n k) :
    ∃ b, a ≤ b ∧ ∀ l, b ≤ l → (m₀.upTo p Channel.sink f l).shared.sink.queue = [] := by
  -- nothing comes onto the queue any more
  have hshrinks : ∀ b, a ≤ b → ∀ l, b ≤ l →
      (m₀.upTo p Channel.sink f l).shared.sink.queue.length ≤
        (m₀.upTo p Channel.sink f b).shared.sink.queue.length := by
    intro b hab l hl
    induction hl with
    | refl => exact Nat.le_refl _
    | @step l hl ih =>
      have hmirrors := hall l (Nat.le_trans hab hl)
      rw [upTo_succ]
      by_cases hs : f l = .step 0
      · rw [hs, apply_of_isOver (hmirrors.isOver_eq.trans hover)]
        exact ih
      · exact Nat.le_trans (hmirrors.length_queue_apply_le hs) ih
  have hempties : ∀ d, ∃ b, a ≤ b ∧
      (m₀.upTo p Channel.sink f b).shared.sink.queue.length ≤ n - d := by
    intro d
    induction d with
    | zero => exact ⟨a, Nat.le_refl a, (hall a (Nat.le_refl a)).holds.length⟩
    | succ d ih =>
      obtain ⟨b, hab, hb⟩ := ih
      obtain ⟨r, hbr, hr⟩ := hf.receives b
      refine ⟨r + 1, by omega, ?_⟩
      have := hshrinks b hab r hbr
      rw [upTo_succ, hr, (hall r (by omega)).length_queue_receive]
      omega
  obtain ⟨b, hab, hb⟩ := hempties n
  refine ⟨b, hab, fun l hl => List.eq_nil_of_length_eq_zero ?_⟩
  have := hshrinks b hab l hl
  omega

end Machine

/-- A run that is over as another one is into a sink that takes everything,
and whose channel was drained of what this sink took. -/
structure Machine.Drained (m : Machine Channel) (k : Machine Unit) : Prop where
  finished : m.isOver = true
  outcome : m.outcome? = k.outcome?
  panicked : m.hasPanicked = k.hasPanicked
  queue : m.shared.sink.queue = []
  received : m.shared.sink.received = k.shared.records

namespace Machine

variable {m₀ : Machine Channel} {k₀ : Machine Unit} {f : Nat → Event ReceiverAction} {i : Nat}

/-- **A channel that is drained passes on all there is**: the run ends as it
does into a sink that takes everything, and what this takes is received. -/
theorem exists_drained (hs : m₀.shared.Sends n) (h : m₀.Mirrors n k₀) (hf : Drains f)
    (hn : 1 ≤ n) (hover : (k₀.turns p i).isOver = true) :
    ∃ b, ∀ l, b ≤ l → (m₀.upTo p Channel.sink f l).Drained (k₀.turns p i) := by
  obtain ⟨a, ha⟩ := exists_mirrors (p := p) h hf hn i
  have hall : ∀ l, a ≤ l → (m₀.upTo p Channel.sink f l).Mirrors n (k₀.turns p i) := by
    intro l hl
    induction hl with
    | refl => exact ha
    | @step l _ ih =>
      rw [upTo_succ]
      rcases ih.apply hf l with hstay | hmoves
      · exact hstay
      · rw [turns_succ, apply_of_isOver hover] at hmoves
        exact hmoves
  obtain ⟨b, hab, hempty⟩ := exists_queue_eq_nil hf hover hall
  refine ⟨b, fun l hl => ?_⟩
  have hmirrors := hall l (by omega)
  refine ⟨hmirrors.isOver_eq.trans hover, hmirrors.outcome?_eq, hmirrors.hasPanicked_eq,
    hempty l hl, ?_⟩
  have hsent := (sends_run (p := p) hs ((List.range l).map f)).sent
  change (m₀.upTo p Channel.sink f l).shared.sink.sent = _ at hsent
  rw [Channel.sent, hempty l hl, List.append_nil] at hsent
  exact hsent.trans hmirrors.records_eq

end Machine

/-! ## Draining when records are sent in two looks -/

namespace Sending

variable {s s' : Sending} {m₀ : Machine Channel} {k₀ : Machine Unit}
variable {f : Nat → Event ReceiverAction}

/-- The run after the first `k` events of a schedule. -/
def upTo (s : Sending) (p : Plan) (f : Nat → Event ReceiverAction) (k : Nat) : Sending :=
  s.run p ((List.range k).map f)

theorem upTo_succ (s : Sending) (p : Plan) (f : Nat → Event ReceiverAction) (k : Nat) :
    s.upTo p f (k + 1) = (s.upTo p f k).apply p (f k) := by
  simp [upTo, run, List.range_succ]

/-- A schedule with nothing in the place of the turns at which the worker
looks whether the run goes on: there is no worker but the first. -/
def firstLooks (s : Sending) (p : Plan) (f : Nat → Event ReceiverAction) (j : Nat) :
    Event ReceiverAction :=
  if (s.upTo p f j).turnedBack = true ∧ f j = .step 0 then .step 1 else f j

theorem firstLooks_of_ne {j : Nat} (h : f j ≠ .step 0) : s.firstLooks p f j = f j :=
  if_neg fun hc => h hc.2

/-- After a second look comes a first. -/
theorem turnedBack_turn (hm : s.machine.workers = [w]) (ht : s.turnedBack = true) :
    (s.turn p).turnedBack = false := by
  generalize hs : s.turn p = s'
  cases turns_of_turn hm hs with
  | again => rfl
  | giveUp => rfl
  | full hf => exact absurd (ht.symm.trans hf) (by simp)
  | step hf => exact absurd (ht.symm.trans hf) (by simp)

/-- A worker that nobody disturbs does not give up. -/
theorem machine_turn_of_turnedBack (hm : s.machine.workers = [w])
    (hw : w.Undisturbed n s.machine.shared) (hx : w.offered? = some x)
    (ht : s.turnedBack = true) : (s.turn p).machine = s.machine := by
  generalize hs : s.turn p = s'
  cases turns_of_turn hm hs with
  | again => rfl
  | giveUp _ hstopped => exact absurd ((hw.isRunning hx).symm.trans hstopped) (by simp)
  | full hf => exact absurd (ht.symm.trans hf) (by simp)
  | step hf => exact absurd (ht.symm.trans hf) (by simp)

/-- Its first look is a step of the machine, which waits where this finds the
channel full. -/
theorem machine_turn (hm : s.machine.workers = [w]) (hw : w.Undisturbed n s.machine.shared)
    (ht : s.turnedBack = false) :
    (s.turn p).machine = s.machine.apply p Channel.sink (.step 0) := by
  generalize hs : s.turn p = s'
  cases turns_of_turn hm hs with
  | again hf => exact absurd (ht.symm.trans hf) (by simp)
  | giveUp hf => exact absurd (ht.symm.trans hf) (by simp)
  | step => rfl
  | full _ hx hf =>
    obtain ⟨r, k, rest, rows, bytes, hstage⟩ := Worker.exists_of_offered? hx
    have hnone : w.step p Channel.sink s.machine.shared = none := by
      simp [Worker.step, hstage, Channel.sink, hw.isRunning hx, hf]
    simp [Machine.apply, hm, hnone]

/-- **The first looks alone drain the channel** too. -/
theorem drains_firstLooks (hm : m₀.workers = [w]) (hf : Machine.Drains f) :
    Machine.Drains (firstLooks ⟨m₀, false⟩ p f) := by
  have hne : ∀ j, f j ≠ .step 0 → firstLooks ⟨m₀, false⟩ p f j = f j := fun j => firstLooks_of_ne
  have hcases : ∀ j, firstLooks ⟨m₀, false⟩ p f j = .step 1 ∨
      firstLooks ⟨m₀, false⟩ p f j = f j := by
    intro j
    rw [firstLooks]
    split
    · exact .inl rfl
    · exact .inr rfl
  refine ⟨?_, ?_, ?_, ?_⟩
  · intro i hi k
    obtain rfl : i = 0 := Nat.lt_one_iff.1 hi
    by_contra hnever
    -- then every turn is a second look
    have hback : ∀ j, k ≤ j → f j = .step 0 →
        (upTo ⟨m₀, false⟩ p f j).turnedBack = true := by
      intro j hkj hj
      by_contra hc
      exact hnever ⟨j, hkj, by rw [firstLooks, if_neg fun h => hc h.1, hj]⟩
    obtain ⟨j, hkj, hj⟩ := hf.fair 0 Nat.one_pos k
    obtain ⟨v, hv, -⟩ := (follows_run (p := p) hm ((List.range j).map f)).worker
    have hlook : ∀ l, j + 1 ≤ l → (upTo ⟨m₀, false⟩ p f l).turnedBack = false := by
      intro l hl
      induction hl with
      | refl =>
        rw [upTo_succ, hj]
        exact turnedBack_turn hv (hback j hkj hj)
      | @step l hl ih =>
        have hs : f l ≠ .step 0 := fun hs =>
          absurd (ih.symm.trans (hback l (Nat.le_trans hkj (Nat.le_of_succ_le hl)) hs)) (by simp)
        rw [upTo_succ, apply_of_ne hs]
        exact ih
    obtain ⟨l, hjl, hl⟩ := hf.fair 0 Nat.one_pos (j + 1)
    exact absurd ((hlook l hjl).symm.trans (hback l (by omega) hl)) (by simp)
  · intro k
    obtain ⟨j, hkj, hj⟩ := hf.receives k
    exact ⟨j, hkj, by rw [hne j (by simp [hj]), hj]⟩
  · intro j
    rcases hcases j with h | h <;> rw [h]
    · simp
    · exact hf.cancel j
  · intro j
    rcases hcases j with h | h <;> rw [h]
    · simp
    · exact hf.drop j

/-- **While nobody disturbs the run, second looks come to nothing.** -/
theorem machine_upTo (h : m₀.Mirrors n k₀) (hf : Machine.Drains f) (j : Nat) :
    (upTo ⟨m₀, false⟩ p f j).machine =
      m₀.upTo p Channel.sink (firstLooks ⟨m₀, false⟩ p f) j := by
  have hm : ∃ w, m₀.workers = [w] := h.imp fun _ hw => hw.1
  obtain ⟨w, hm⟩ := hm
  induction j with
  | zero => rfl
  | succ j ih =>
    obtain ⟨i, hi⟩ := Machine.mirrors_upTo (p := p) h (drains_firstLooks (p := p) hm hf) j
    rw [upTo_succ, Machine.upTo_succ, ← ih]
    rw [← ih] at hi
    obtain ⟨v, hv, hundisturbed, -⟩ := hi
    obtain ⟨u, hu, hoffers⟩ := (follows_run (p := p) hm ((List.range j).map f)).worker
    obtain rfl := (List.cons.inj (hu.symm.trans hv)).1
    by_cases hs : f j = .step 0
    · rw [firstLooks, hs]
      split
      · rename_i ht
        obtain ⟨x, hx⟩ := hoffers ht.1
        exact (machine_turn_of_turnedBack hv hundisturbed hx ht.1).trans
          (by simp [Machine.apply, hv])
      · rename_i ht
        exact machine_turn hv hundisturbed (by simpa using ht)
    · rw [firstLooks_of_ne hs, apply_of_ne hs]

end Sending

/-! ## Delivery through a bounded channel -/

variable {c : EngineConfig} {t : Session} {selected : List String} {g : Ingestion}

/-- At its start a run mirrors one into a sink that takes everything. -/
theorem Ingestion.mirrors_start (hg : ofSession c t selected = .ok g) (hp : c.parallelism = 1)
    (service : Service) :
    (g.start service g.channel).Mirrors c.channelCapacity.toNat (g.start service ()) :=
  ⟨_, workers_solo hg hp service g.channel,
    ⟨rfl, (sends_start hg service).holds, by simp [Worker.start], .inl rfl⟩, by
      have hstart := workers_solo hg hp service ()
      rw [start] at hstart ⊢
      rw [← hstart]
      rfl⟩

/-- A run into a sink that takes everything comes to an end without being
cancelled. -/
theorem Ingestion.exists_isOver_collecting (hg : ofSession c t selected = .ok g)
    (hp : c.parallelism = 1) (service : Service) :
    ∃ ds, .cancel ∉ ds ∧ (g.run service Sink.collecting () ds).isOver = true := by
  have haccepts : Sink.collecting.Accepts := fun _ _ _ _ => ⟨(), rfl⟩
  have hstart := workers_solo hg hp service ()
  obtain ⟨k, hk⟩ := Machine.exists_isOver (p := g.plan) (m := g.start service ()) haccepts
    (f := fun _ => .step 0) (by
      rw [hstart]
      intro i hi k
      exact ⟨k, Nat.le_refl k, by rw [Nat.lt_one_iff.1 hi]⟩)
  exact ⟨(List.range k).map fun _ => .step 0, by simp, hk⟩

/-- **Delivery through a bounded channel.** Take an opened run of one worker
whose channel can be opened; it has room for a record. The worker looks at
the channel, and when it has its record back from a full one, at the run
behind. After every list of events the channel is in step with the run, and
an emission fails only when the receiver was let go, or when the last look
at the channel found it full and the run has stopped by the look behind. A
run into a sink that takes everything comes to its end without being
cancelled; and if the channel is drained and nobody cancels, then the run
into the channel ends in the same way, nothing is left on the queue, and
what is received is what that sink takes. -/
theorem bounded_delivery (hg : Ingestion.ofSession c t selected = .ok g) (hp : c.parallelism = 1)
    {service : Service} {s : Sending} (hs : g.spawn? service = some s) :
    1 ≤ c.channelCapacity.toNat ∧
      (∀ es, (s.run g.plan es).machine.InStep c.channelCapacity.toNat ∧
        ∀ e, (s.run g.plan es).machine.Fails (s.run g.plan (es ++ [e])).machine →
          .act .drop ∈ es ∨
            (∃ fs os, es = fs ++ .step 0 :: os ∧ .step 0 ∉ os ∧
              (s.run g.plan fs).machine.shared.sink.queue.length = c.channelCapacity.toNat) ∧
              (s.run g.plan es).machine.shared.run.isRunning = false) ∧
      (∃ ds, .cancel ∉ ds ∧ (g.run service Sink.collecting () ds).isOver = true) ∧
      ∀ f, Machine.Drains f → ∀ ds, .cancel ∉ ds →
        (g.run service Sink.collecting () ds).isOver = true →
        ∃ k, ∀ j, k ≤ j →
          (s.run g.plan ((List.range j).map f)).machine.Drained
            (g.run service Sink.collecting () ds) := by
  have hstart := Ingestion.workers_solo hg hp service g.channel
  have hroom := (Ingestion.runnable_of_ofSession hg).room
  simp only [Ingestion.run_of_spawn? hs]
  refine ⟨hroom, fun es => ⟨?_, fun e => Ingestion.of_fails_send hg hp service⟩,
    Ingestion.exists_isOver_collecting hg hp service, fun f hf ds hds hover => ?_⟩
  · obtain ⟨fs, hfs⟩ := Sending.exists_run (p := g.plan) hstart es
    rw [Ingestion.send, hfs]
    exact Ingestion.inStep hg hp service fs
  · have hmirrors := Ingestion.mirrors_start hg hp service
    obtain ⟨i, hi⟩ := Machine.exists_turns_eq (p := g.plan)
      (Ingestion.workers_solo hg hp service ()) hds
    rw [Ingestion.run, hi] at hover ⊢
    -- a worker that sends in two looks takes the steps of its first looks
    obtain ⟨k, hk⟩ := Machine.exists_drained (Ingestion.sends_start hg service) hmirrors
      (Sending.drains_firstLooks (p := g.plan) hstart hf) hroom hover
    refine ⟨k, fun j hj => ?_⟩
    have hmachine := Sending.machine_upTo (p := g.plan) hmirrors hf j
    change (Sending.upTo ⟨g.start service g.channel, false⟩ g.plan f j).machine.Drained _
    rw [hmachine]
    exact hk j hj

namespace Sample

/-- The run on the session with one worker and room for one record. -/
def narrow : Ingestion :=
  { solo with config := { parallelism := 1, channelCapacity := 1 } }

theorem ofSession_narrow :
    Ingestion.ofSession { parallelism := 1, channelCapacity := 1 } session [] = .ok narrow := rfl

/-- Two rows in one batch, and one in another split. -/
def threeRows : Service :=
  { scripts := [(⟨"a"⟩, [⟨.avro, 2, [10, 12]⟩]), (⟨"b"⟩, [⟨.avro, 1, [14]⟩])] }

/-- The worker and the receiver's holder take turns. -/
def inTurns (j : Nat) : Event ReceiverAction := if j % 2 = 0 then .step 0 else .act .receive

theorem drains_inTurns : Machine.Drains inTurns where
  fair i hi k := ⟨2 * k, by omega, by simp [inTurns, Nat.lt_one_iff.1 hi]⟩
  receives k := ⟨2 * k + 1, by omega, by simp [inTurns]⟩
  cancel j := by unfold inTurns; split <;> simp
  drop j := by unfold inTurns; split <;> simp

end Sample

/-- With room for one record the second waits, and is refused when the run is
cancelled; when all is received the run ends as into a sink that takes
everything. -/
theorem bounded_delivery_of_narrow :
    ∃ s, Sample.narrow.spawn? Sample.threeRows = some s ∧
      let after := fun es => (s.run Sample.narrow.plan es).machine
      let blocked : List (Event ReceiverAction) := List.replicate 5 (.step 0) ++ [.cancel]
      let collect := Sample.narrow.run Sample.threeRows Sink.collecting () (Sample.steps 17)
      ((after blocked).Fails (after (blocked ++ [.step 0])) ∧
        (after blocked).shared.sink.queue.length = 1 ∧
        (after blocked).shared.run.isRunning = false) ∧
      collect.outcome?.map Outcome.lifecycle = some .completed ∧
      collect.shared.records = [⟨[.int64 5]⟩, ⟨[.int64 6]⟩, ⟨[.int64 7]⟩] ∧
      ∃ k, ∀ j, k ≤ j → (after ((List.range j).map Sample.inTurns)).Drained collect := by
  refine ⟨_, rfl, ?_⟩
  intro after blocked collect
  obtain ⟨-, hsteps, -, hdrained⟩ := bounded_delivery Sample.ofSession_narrow rfl
    (show Sample.narrow.spawn? Sample.threeRows = some _ from rfl)
  refine ⟨?_, by decide +kernel, by decide +kernel, ?_⟩
  · have hfails : (after blocked).Fails (after (blocked ++ [.step 0])) :=
      ⟨by decide +kernel, by decide +kernel⟩
    obtain ⟨-, hrun⟩ := ((hsteps blocked).2 (.step 0) hfails).resolve_left (by decide)
    exact ⟨hfails, by decide +kernel, hrun⟩
  · exact hdrained Sample.inTurns Sample.drains_inTurns (Sample.steps 17) (by decide)
      (by decide +kernel)

/-- A worker can be refused a record, with the receiver held, though the
channel is never full once the run has stopped: it found the channel full,
what was on the queue was received, and then the run was cancelled. And
there are capacities with which no run starts. -/
theorem refused_with_room :
    (∃ s, Sample.narrow.spawn? Sample.threeRows = some s ∧
      ¬ ∀ es e, (s.run Sample.narrow.plan es).machine.Fails
          (s.run Sample.narrow.plan (es ++ [e])).machine →
        .act .drop ∈ es ∨ ∃ fs, fs <+: es ++ [e] ∧
          (s.run Sample.narrow.plan fs).machine.shared.run.isRunning = false ∧
          (s.run Sample.narrow.plan fs).machine.shared.sink.queue.length = 1) ∧
      ∃ g, Ingestion.ofSession { parallelism := 1, channelCapacity := 1152921504606846976 }
          Sample.session [] = .ok g ∧
        g.spawn? Sample.threeRows = none := by
  refine ⟨⟨_, rfl, fun h => ?_⟩, _, rfl, by decide⟩
  have hfails := h (List.replicate 5 (.step 0) ++ [.act .receive, .cancel]) (.step 0)
    ⟨by decide +kernel, by decide +kernel⟩
  rcases hfails with hdrop | ⟨fs, hfs, hstopped, hfull⟩
  · exact absurd hdrop (by decide)
  · -- the run goes on up to the cancellation, and from then on nothing is on the queue
    have hall : ∀ k < 9, ∀ fs, fs = (List.replicate 5 (.step 0) ++ [.act .receive, .cancel] ++
        [.step 0] : List (Event ReceiverAction)).take k →
        (Sample.narrow.send Sample.threeRows fs).machine.shared.run.isRunning = true ∨
          (Sample.narrow.send Sample.threeRows fs).machine.shared.sink.queue.length = 0 := by
      simp only [forall_eq]
      decide +kernel
    rcases hall fs.length (Nat.lt_succ_of_le hfs.length_le) fs (List.prefix_iff_eq_take.1 hfs)
      with hrun | hempty
    · exact absurd (hstopped.symm.trans hrun) (by simp)
    · exact absurd (hfull.symm.trans hempty) (by simp)

end Intake
