import Intake.Proofs.Budget
/-!
# Streams are given back

A reader opens a stream by a call, and gives it back when it fails, when
it ends, when the run has stopped, and when its worker has no more use for
the reader. So a step moves streams between the service and the reader, and loses
none: what the service has opened is given back or in the hand of a reader
(`Service.Balances`). A reader holds one stream at most, and none at its
end. Main statement: so it is at every moment of a reader and of a run, and
when a run is over every stream has been given back (`streams_released`).

Whoever counts the streams that are out looks at the service twice, and
between the two looks the run goes on. The difference is right when no
stream is opened between them, and can underflow when one is
(`counting_underflows`).
-/

namespace Intake

variable {σ α : Type} {p : Plan} {sink : Sink σ α} {sh sh' : Shared σ} {w w' : Worker}
variable {o : ReadOptions} {running : Bool} {r r' : SplitReader} {s s' s₁ : Service} {g : Signal}
variable {st : Stream} {e : TransportError} {c : ReadCall} {n n' n₁ : Nat}

/-! ## The streams of a service -/

namespace Service

/-- On the way from `s` with `n` streams in hand to `s'` with `n'`, every
stream that is opened is given back or in hand. -/
def Balances (s : Service) (n : Nat) (s' : Service) (n' : Nat) : Prop :=
  s'.opened + s.released + n = s.opened + s'.released + n'

theorem Balances.refl (s : Service) (n : Nat) : s.Balances n s n := by
  unfold Balances
  omega

theorem Balances.trans (h : s.Balances n s₁ n₁) (h' : s₁.Balances n₁ s' n') :
    s.Balances n s' n' := by
  unfold Balances at *
  omega

/-- A stream in hand is given back. -/
theorem balances_release (s : Service) (n : Nat) : s.Balances (n + 1) s.release n := by
  simp only [Balances, release]
  omega

theorem balances_releaseIf (s : Service) (stream : Option Stream) :
    s.Balances stream.isSome.toNat (s.releaseIf stream) 0 := by
  cases stream with
  | none => exact .refl s 0
  | some st => exact s.balances_release 0

/-- A call opens the stream that it is answered with. -/
theorem balances_read_ok (h : s.read c = (s₁, .ok st)) : s.Balances 0 s₁ 1 := by
  obtain ⟨-, hreleased⟩ := s.streams_note c
  unfold read at h
  dsimp only at h
  split at h
  · cases h
  · cases h
    simp only [Balances, hreleased]
    omega

/-- And none if it fails. -/
theorem balances_read_error (h : s.read c = (s₁, .error e)) : s.Balances 0 s₁ 0 := by
  obtain ⟨hopened, hreleased⟩ := s.streams_note c
  unfold read at h
  dsimp only at h
  split at h
  · cases h
    rw [Balances, hopened, hreleased]
  · cases h

/-- What two looks count, when `n` streams are out at the second. -/
theorem live?_of_opened_eq {s later : Service} (h : later.opened = later.released + n) :
    (later.opened = s.opened → s.live? later = some n) ∧
      (s.live? later = none ↔ s.opened + n < later.opened) := by
  unfold live?
  split
  · simp only [Option.some.injEq, reduceCtorEq, false_iff]
    omega
  · simp only [reduceCtorEq, imp_false, true_iff]
    omega

end Service

/-! ## The stream of a reader -/

namespace SplitReader

/-- Whether a reader holds a stream. -/
def holds (r : SplitReader) : Bool := r.stream.isSome

theorem Opens.balances (h : Opens o r s s₁ st) : s.Balances r.holds.toNat s₁ 1 := by
  cases h with
  | held hst =>
    rw [holds, hst]
    exact .refl s 1
  | called hst hc =>
    rw [holds, hst]
    exact Service.balances_read_ok hc

theorem Fails.balances (h : Fails o r s s₁ e) : s.Balances r.holds.toNat s₁ 0 := by
  cases h with
  | call hst hc =>
    rw [holds, hst]
    exact Service.balances_read_error hc
  | stream ho hn => exact ho.balances.trans (Service.balances_release _ 0)

/-- **A step of a reader loses no stream.** -/
theorem Moves.balances (h : Moves o running r s r' s' g) :
    s.Balances r.holds.toNat s' r'.holds.toNat := by
  cases h with
  | through hr => exact .refl s _
  | look hr hrun => exact .refl s _
  | resume hr hrun => exact .refl s _
  | interrupt hr hrun => exact s.balances_releaseIf r.stream
  | retry hr hf ht hb => exact hf.balances
  | fail hr hf hb => exact hf.balances
  | batch hr ho hn hfits => exact ho.balances
  | panic hr ho hn hover => exact ho.balances
  | finish hr ho hn => exact ho.balances.trans (Service.balances_release _ 0)

/-- A reader that comes to its end has no stream left. -/
theorem Moves.closed (h : Moves o running r s r' s' g)
    (hr : ∀ i, r.stage = .done i → r.stream = none) :
    ∀ i, r'.stage = .done i → r'.stream = none := by
  cases h with
  | through hdone => exact hr
  | interrupt hr hrun => exact fun _ _ => rfl
  | fail hr hf hb => exact fun _ _ => rfl
  | finish hr ho hn => exact fun _ _ => rfl
  | _ => exact nofun

/-- A reader that tells that it is at its end, or that was there before, is
at its end. -/
theorem Moves.exists_done (h : Moves o running r s r' s' g)
    (hend : g.isLast = true ∨ ∃ i, r.stage = .done i) : ∃ i, r'.stage = .done i := by
  cases h with
  | through hr => exact ⟨_, hr⟩
  | interrupt hr hrun => exact ⟨true, rfl⟩
  | fail hr hf hb => exact ⟨false, rfl⟩
  | finish hr ho hn => exact ⟨false, rfl⟩
  | _ => simp_all [Signal.isLast]

end SplitReader

namespace SplitReading

variable {z : SplitReading}

/-- The service of a reading has opened what it was given back and what the
reader holds, which is nothing at the end of the reader. -/
structure Balanced (z : SplitReading) : Prop where
  streams : z.service.opened = z.service.released + z.reader.holds.toNat
  closed : ∀ i, z.reader.stage = .done i → z.reader.stream = none
  ended : ∀ g ∈ z.signals, g.isLast = true → ∃ i, z.reader.stage = .done i

theorem Balanced.start (h : s.opened = s.released) (x : SplitId) : (start x s).Balanced :=
  ⟨h, nofun, nofun⟩

theorem Balanced.step (h : z.Balanced) (running : Bool) : (z.step o running).Balanced := by
  rcases hstep : z.reader.step o running z.service with ⟨r, s, g⟩
  have hm := SplitReader.moves_of_step hstep
  rw [SplitReading.step, hstep]
  refine ⟨?_, hm.closed h.closed, fun g' hg' hlast => hm.exists_done ?_⟩
  · have hb := hm.balances
    have hs := h.streams
    unfold Service.Balances at hb
    dsimp only
    omega
  · rcases List.mem_append.1 hg' with hg' | hg'
    · exact .inr (h.ended g' hg' hlast)
    · rw [List.mem_singleton.1 hg'] at hlast
      exact .inl hlast

theorem Balanced.run (h : s.opened = s.released) (x : SplitId) (flags : List Bool) :
    ((SplitReading.start x s).run o flags).Balanced := by
  induction flags using List.reverseRecOn with
  | nil => exact .start h x
  | append_singleton fs f ih =>
    rw [run_append]
    exact ih.step f

/-- A reader that is at its end holds no stream. -/
theorem Balanced.holds_eq_false (h : z.Balanced)
    (hend : (∃ g ∈ z.signals, g.isLast = true) ∨ z.reader.interrupted = true) :
    z.reader.holds = false := by
  obtain ⟨i, hi⟩ : ∃ i, z.reader.stage = .done i := by
    rcases hend with ⟨g, hg, hlast⟩ | hinterrupted
    · exact h.ended g hg hlast
    · exact ⟨true, by simpa [SplitReader.interrupted] using hinterrupted⟩
  rw [SplitReader.holds, h.closed i hi, Option.isSome_none]

end SplitReading

/-! ## The streams of a run -/

namespace Worker

/-- Whether a worker has a reader in hand that holds a stream. -/
def holds (w : Worker) : Bool :=
  match w.stage with
  | .reading r _ | .emitting r .. | .refused r => r.holds
  | _ => false

theorem holds_of_isGone (h : w.isGone = true) : w.holds = false := by
  rcases stage_of_isGone h with hw | hw <;> rw [holds, hw]

/-- A reader that is no longer needed gives back its stream. -/
theorem balances_close (r : SplitReader) (sh : Shared σ) :
    sh.service.Balances r.holds.toNat (close r sh).service 0 :=
  sh.service.balances_releaseIf r.stream

/-- **A step of a worker loses no stream.** -/
theorem Moves.balances (h : Moves p sink w sh w' sh') :
    sh.service.Balances w.holds.toNat sh'.service w'.holds.toNat := by
  cases h with
  | read hw hr =>
    simp only [holds, hw]
    exact hr.balances
  | decode hw hr hd =>
    simp only [holds, hw]
    exact hr.balances
  | undecoded hw hr hd =>
    simp only [holds, hw]
    exact hr.balances.trans (balances_close _ _)
  | unread hw hr =>
    simp only [holds, hw]
    exact hr.balances.trans (balances_close _ _)
  | interrupted hw hr hi =>
    simp only [holds, hw]
    exact hr.balances.trans (balances_close _ _)
  | finish hw hr hi =>
    simp only [holds, hw]
    exact hr.balances.trans (balances_close _ _)
  | panic hw hr =>
    simp only [holds, hw]
    exact hr.balances.trans (Service.balances_releaseIf _ _)
  | cancel hw =>
    simp only [holds, hw]
    exact balances_close _ _
  | _ =>
    -- the service is not touched, and the reader stays in hand, if there is one
    simp_all [holds, SplitReader.holds, Service.Balances.refl]

end Worker

namespace Machine

variable {m : Machine σ}

theorem countP_set {ws : List Worker} {i : Nat} (hw : ws[i]? = some w) (w' : Worker) :
    (ws.set i w').countP Worker.holds + w.holds.toNat =
      ws.countP Worker.holds + w'.holds.toNat := by
  obtain ⟨hi, rfl⟩ := List.getElem?_eq_some_iff.1 hw
  have hle : (if ws[i].holds = true then 1 else 0) ≤ ws.countP Worker.holds :=
    List.boole_getElem_le_countP hi
  have htoNat : ∀ b : Bool, b.toNat = if b = true then 1 else 0 := by decide
  rw [List.countP_set hi, htoNat, htoNat]
  omega

/-- The service of a run has opened what it was given back and what the
workers hold. -/
def Balanced (m : Machine σ) : Prop :=
  m.shared.service.opened = m.shared.service.released + m.workers.countP Worker.holds

theorem Balanced.of_moves {i : Nat} (h : m.Balanced) (hw : m.workers[i]? = some w)
    (hm : w.Moves p sink m.shared w' sh') : Balanced ⟨sh', m.workers.set i w'⟩ := by
  have hb := hm.balances
  have hset := countP_set hw w'
  unfold Balanced Service.Balances at *
  dsimp only
  omega

theorem Balanced.run (h : m.Balanced) (es : List (Event α)) : (m.run p sink es).Balanced :=
  run_induction es h (fun h hw hm => h.of_moves hw hm) (fun _ h => h) (fun _ _ h => h)

end Machine

theorem Ingestion.balanced_start {service : Service} (h : service.opened = service.released)
    (g : Ingestion) (y : σ) : (g.start service y).Balanced := by
  have hnone : (g.start service y).workers.countP Worker.holds = 0 := by
    rw [List.countP_eq_zero]
    intro w hw
    obtain ⟨a, -, rfl⟩ := List.mem_map.1 hw
    exact Bool.false_ne_true
  rw [Machine.Balanced, hnone]
  exact h

/-- Workers that are gone hold no stream. -/
theorem Machine.countP_holds_eq_zero {m : Machine σ} (h : m.isOver = true) :
    m.workers.countP Worker.holds = 0 := by
  rw [List.countP_eq_zero]
  intro w hw
  rw [Worker.holds_of_isGone (List.all_eq_true.1 h w hw)]
  exact Bool.false_ne_true

/-- **Every stream that is opened is given back.** On a service that has its
streams back, the service is missing, at every moment of a reader of any
split, the one stream that the reader holds, or none: whatever its script
and its faults, and whenever the run stops. None is missing once the reader
has told a failure or its end, once it was interrupted, and once it is
dropped. In a run of any number of workers, whatever the sink and the order
of events, the service is missing the streams that readers of the workers
hold, and none when the run is over, however it ended. Two looks, the
second later in the reading or in the run, count the streams held at the
second if no stream was opened between them; and the count underflows just
when more were opened between them than are held. -/
theorem streams_released {service : Service} (h : service.opened = service.released) :
    (∀ (o : ReadOptions) (x : SplitId) (flags more : List Bool),
      let z := (SplitReading.start x service).run o flags
      let later := (SplitReading.start x service).run o (flags ++ more)
      let dropped := z.service.releaseIf z.reader.stream
      z.service.opened = z.service.released + z.reader.holds.toNat ∧
      ((∃ g ∈ z.signals, g.isLast = true) ∨ z.reader.interrupted = true →
        z.service.opened = z.service.released) ∧
      dropped.opened = dropped.released ∧
      (later.service.opened = z.service.opened →
        z.service.live? later.service = some later.reader.holds.toNat) ∧
      (z.service.live? later.service = none ↔
        z.service.opened + later.reader.holds.toNat < later.service.opened)) ∧
    ∀ {σ α : Type} (g : Ingestion) (sink : Sink σ α) (y : σ) (es fs : List (Event α)),
      let m := g.run service sink y es
      let later := g.run service sink y (es ++ fs)
      m.shared.service.opened = m.shared.service.released + m.workers.countP Worker.holds ∧
      (m.isOver = true → m.shared.service.opened = m.shared.service.released) ∧
      (later.shared.service.opened = m.shared.service.opened →
        m.shared.service.live? later.shared.service = some (later.workers.countP Worker.holds)) ∧
      (m.shared.service.live? later.shared.service = none ↔
        m.shared.service.opened + later.workers.countP Worker.holds <
          later.shared.service.opened) := by
  constructor
  · intro o x flags more z later dropped
    have hz : z.Balanced := .run h x flags
    have hlater : later.Balanced := .run h x (flags ++ more)
    have hs : z.service.opened = z.service.released + z.reader.holds.toNat := hz.streams
    have hdropped : dropped.opened + z.service.released + z.reader.holds.toNat =
        z.service.opened + dropped.released + 0 := z.service.balances_releaseIf z.reader.stream
    refine ⟨hs, fun hend => ?_, by omega, Service.live?_of_opened_eq hlater.streams⟩
    rw [hs, hz.holds_eq_false hend]
    rfl
  · intro σ α g sink y es fs m later
    have hm : m.shared.service.opened = m.shared.service.released + m.workers.countP Worker.holds :=
      (g.balanced_start h y).run es
    refine ⟨hm, fun hover => ?_, Service.live?_of_opened_eq ((g.balanced_start h y).run (es ++ fs))⟩
    rw [hm, Machine.countP_holds_eq_zero hover, Nat.add_zero]

namespace Sample

/-- The run of two workers on a service with three faults. -/
def faultyRun : Machine Unit := ingestion.run faulty Sink.collecting () turns

end Sample

/-- Four streams are opened by it, and given back. -/
theorem streams_released_with_faults :
    Sample.faulty.opened = Sample.faulty.released ∧ Sample.faultyRun.isOver = true ∧
      Sample.faultyRun.shared.service.opened = 4 ∧
      Sample.faultyRun.shared.service.released = 4 := by
  have hfresh : Sample.faulty.opened = Sample.faulty.released := rfl
  have hover : Sample.faultyRun.isOver = true := by decide +kernel
  have hopened : Sample.faultyRun.shared.service.opened = 4 := by decide +kernel
  obtain ⟨-, hback, -⟩ :=
    (streams_released hfresh).2 Sample.ingestion Sink.collecting () Sample.turns []
  rw [← Sample.faultyRun] at hback
  refine ⟨hfresh, hover, hopened, ?_⟩
  rw [← hback hover, hopened]

/-- **Counting the streams that are out can underflow**: whoever looks at the
start of this run for the streams opened, and at its end for those given
back, finds none opened and four given back. -/
theorem counting_underflows :
    ¬ ∀ es fs : List (Event Empty),
      let m := Sample.ingestion.run Sample.faulty Sink.collecting () es
      let later := Sample.ingestion.run Sample.faulty Sink.collecting () (es ++ fs)
      (m.shared.service.live? later.shared.service).isSome := by
  intro h
  exact absurd (h [] Sample.turns) (by decide +kernel)

end Intake
