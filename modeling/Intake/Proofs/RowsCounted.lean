import Intake.Proofs.Collecting
import Intake.Proofs.Summary
/-!
# Rows counted and records taken

The counters of a run count the rows of a batch once all of its records
are taken, whereas the sink takes them one by one. So the count of rows is
behind the records taken by what is taken of the batches in hand
(`Worker.begun`), and a batch of which the sink refuses a record is never
counted (`Machine.torn`). When the run is over, the count is short by what
the sink took of such batches, and by nothing else (`rows_counted`).
-/

namespace Intake

variable {σ α : Type} {p : Plan} {sink : Sink σ α} {sh sh' : Shared σ} {w w' : Worker}

/-! ## Batches in hand -/

namespace Worker

/-- How many records of the batch in hand the sink has taken. -/
def begun (w : Worker) : Nat :=
  match w.stage with
  | .emitting _ _ rest rows _ => rows - rest.length
  | _ => 0

/-- How many records of the batch in hand the sink has taken when it
refuses the next. -/
def torn (sink : Sink σ α) (w : Worker) (sh : Shared σ) : Nat :=
  match w.stage with
  | .emitting _ _ (x :: _) _ _ =>
    match sink.offer sh.sink sh.run.isRunning w.report.worker x with
    | .refused _ => w.begun
    | _ => 0
  | _ => 0

/-- The records left of the batch in hand are some of its records. -/
def HasRoom (w : Worker) : Prop :=
  match w.stage with
  | .emitting _ _ rest rows _ => rest.length ≤ rows
  | _ => True

/-- A worker that is gone has no batch in hand. -/
theorem begun_of_isGone (h : w.isGone = true) : w.begun = 0 := by
  rcases stage_of_isGone h with h | h <;> rw [begun, h]

/-- A worker that cannot move is not being refused a record. -/
theorem torn_of_step_eq_none (h : w.step p sink sh = none) : w.torn sink sh = 0 := by
  unfold torn
  split
  · rename_i r batch x rest rows bytes hw
    split
    · rename_i y ho
      simp [step, hw, ho] at h
    · rfl
  · rfl

/-- **What a step adds to the count of rows**, to the batch in hand and to
what is lost comes to what the sink takes. -/
theorem Moves.counted (hroom : w.HasRoom) (h : w.Moves p sink sh w' sh') :
    w'.HasRoom ∧ ∃ k, sh'.counters.rows = sh.counters.rows + UInt64.ofNat k ∧
      k + w'.begun + w.torn sink sh + sh.delivered.size = w.begun + sh'.delivered.size := by
  unfold HasRoom at hroom
  cases h with
  | decode hw hr hd =>
    exact ⟨Nat.le_refl _, 0, by simp, by simp [begun, torn, hw]⟩
  | emitted hw =>
    rename_i r batch rows bytes
    exact ⟨trivial, rows, rfl, by simp [begun, torn, hw]⟩
  | accept hw ho =>
    simp only [hw, List.length_cons] at hroom
    refine ⟨?_, 0, by simp, ?_⟩
    · exact Nat.le_of_succ_le hroom
    · simp only [begun, torn, hw, ho, List.length_cons, Array.size_push]
      omega
  | refuse hw ho =>
    exact ⟨trivial, 0, by simp, by simp [begun, torn, hw, ho]⟩
  | _ =>
    -- no batch in hand, before or after
    exact ⟨trivial, 0, by simp [close, Counters.addRetries, Counters.addSplit],
      by simp_all [begun, torn, close]⟩

end Worker

/-! ## The count of a run -/

namespace Machine

variable {m : Machine σ} {lost : Nat}

/-- How many records of its batch the sink has taken when, at an event, it
refuses one. -/
def tornBy (sink : Sink σ α) (m : Machine σ) : Event α → Nat
  | .step i =>
    match m.workers[i]? with
    | some w => w.torn sink m.shared
    | none => 0
  | _ => 0

/-- How many records the sink has taken of batches in which it refused
one. -/
def torn (p : Plan) (sink : Sink σ α) (m : Machine σ) : List (Event α) → Nat
  | [] => 0
  | e :: es => m.tornBy sink e + (m.apply p sink e).torn p sink es

/-- None are lost just when every refusal is of the first record of a
batch. -/
theorem torn_eq_zero_iff {es : List (Event α)} :
    m.torn p sink es = 0 ↔
      ∀ fs e, fs ++ [e] <+: es → (m.run p sink fs).tornBy sink e = 0 := by
  induction es generalizing m with
  | nil => simp [torn]
  | cons e es ih =>
    rw [torn, Nat.add_eq_zero_iff, ih]
    constructor
    · rintro ⟨he, hes⟩ fs f hfs
      cases fs with
      | nil =>
        obtain ⟨rfl, -⟩ := List.cons_prefix_cons.1 hfs
        exact he
      | cons f' fs =>
        rw [List.cons_append] at hfs
        obtain ⟨rfl, hrest⟩ := List.cons_prefix_cons.1 hfs
        exact hes fs f hrest
    · intro h
      exact ⟨h [] e (List.cons_prefix_cons.2 ⟨rfl, List.nil_prefix⟩),
        fun fs f hfs => h (e :: fs) f (List.cons_prefix_cons.2 ⟨rfl, hfs⟩)⟩

/-- A sink that refuses nothing loses nothing. -/
theorem torn_eq_zero (hs : ∀ y running n x z, sink.offer y running n x ≠ .refused z)
    (es : List (Event α)) : m.torn p sink es = 0 := by
  refine torn_eq_zero_iff.2 fun fs e _ => ?_
  cases e with
  | step i =>
    rw [tornBy]
    split
    · rw [Worker.torn]
      split
      · split
        · rename_i ho
          exact absurd ho (hs _ _ _ _ _)
        · rfl
      · rfl
    · rfl
  | cancel => rfl
  | act a => rfl

/-- What workers have taken of the batches in their hands. -/
def begunBy : List Worker → Nat
  | [] => 0
  | w :: ws => w.begun + begunBy ws

theorem begunBy_set {ws : List Worker} {i : Nat} (hw : ws[i]? = some w) (w' : Worker) :
    begunBy (ws.set i w') + w.begun = begunBy ws + w'.begun := by
  induction ws generalizing i with
  | nil => cases hw
  | cons v ws ih =>
    cases i with
    | zero =>
      obtain rfl := Option.some.inj hw
      simp only [List.set_cons_zero, begunBy]
      omega
    | succ i =>
      have := ih (by simpa using hw)
      simp only [List.set_cons_succ, begunBy]
      omega

theorem begunBy_eq_zero {ws : List Worker} (h : ∀ w ∈ ws, w.begun = 0) : begunBy ws = 0 := by
  induction ws with
  | nil => rfl
  | cons w ws ih =>
    rw [begunBy, h w List.mem_cons_self, ih fun v hv => h v (List.mem_cons_of_mem _ hv)]

/-- The rows counted, what the batches in hand have begun and what is lost
come to the records taken. -/
structure Counts (m : Machine σ) (lost : Nat) : Prop where
  rows : ∃ counted, m.shared.counters.rows = UInt64.ofNat counted ∧
    counted + begunBy m.workers + lost = m.shared.delivered.size
  hasRoom : ∀ w ∈ m.workers, w.HasRoom

theorem Counts.apply (h : m.Counts lost) (e : Event α) :
    (m.apply p sink e).Counts (lost + m.tornBy sink e) := by
  cases e with
  | cancel => exact ⟨h.rows, h.hasRoom⟩
  | act a => exact ⟨h.rows, h.hasRoom⟩
  | step i =>
    cases hw : m.workers[i]? with
    | none => simpa [Machine.apply, tornBy, hw] using h
    | some w =>
      cases hs : w.step p sink m.shared with
      | none => simpa [Machine.apply, tornBy, hw, hs, Worker.torn_of_step_eq_none hs] using h
      | some moved =>
        obtain ⟨w', sh'⟩ := moved
        obtain ⟨counted, hrows, hsum⟩ := h.rows
        obtain ⟨hroom, k, hk, hsum'⟩ :=
          (Worker.moves_of_step hs).counted (h.hasRoom w (List.mem_of_getElem? hw))
        -- of the batches in hand only that of the worker has changed
        have hset := begunBy_set hw w'
        rw [apply_step hw hs]
        refine ⟨⟨counted + k, by rw [hk, hrows, UInt64.ofNat_add], ?_⟩, fun v hv => ?_⟩
        · simp only [tornBy, hw]
          omega
        · rcases List.mem_or_eq_of_mem_set hv with hv | rfl
          · exact h.hasRoom v hv
          · exact hroom

/-- **The count of rows keeps up with the records taken**, but for what is
lost. -/
theorem Counts.run (h : m.Counts lost) (es : List (Event α)) :
    (m.run p sink es).Counts (lost + m.torn p sink es) := by
  induction es generalizing m lost with
  | nil => exact h
  | cons e es ih =>
    rw [torn, ← Nat.add_assoc]
    exact ih (h.apply e)

end Machine

variable {c : EngineConfig} {t : Session} {selected : List String} {g : Ingestion}
variable {service : Service} {y : σ} {es : List (Event α)}

/-- **What the count of rows tells.** When a run is over, its count of rows
is, modulo `2 ^ 64`, the number of records that the sink took less those
that it took of batches in which it then refused one. So the metrics of the
run tell the number of records taken just when the sink refused no record
but the first of a batch, as when it refuses none. -/
theorem rows_counted (g : Ingestion) (hover : (g.run service sink y es).isOver = true) :
    let m := g.run service sink y es
    let lost := (g.start service y).torn g.plan sink es
    (∀ into : Collector, (into.addCounters m.shared.counters).count "rows_emitted" =
        UInt64.ofNat (m.shared.delivered.size - lost)) ∧
      lost ≤ m.shared.delivered.size ∧
      (m.shared.delivered.size < UInt64.size →
        (m.shared.counters.rows.toNat = m.shared.delivered.size ↔ lost = 0)) ∧
      (lost = 0 ↔ ∀ fs e, fs ++ [e] <+: es → (g.run service sink y fs).tornBy sink e = 0) ∧
      ((∀ y running n x z, sink.offer y running n x ≠ .refused z) → lost = 0) := by
  intro m lost
  have hstart : (g.start service y).Counts 0 := by
    have hidle : ∀ w ∈ (g.start service y).workers, w.begun = 0 ∧ w.HasRoom := by
      intro w hw
      obtain ⟨a, -, rfl⟩ := List.mem_map.1 hw
      exact ⟨rfl, trivial⟩
    refine ⟨⟨0, rfl, ?_⟩, fun w hw => (hidle w hw).2⟩
    rw [Machine.begunBy_eq_zero fun w hw => (hidle w hw).1]
    rfl
  have hcounts : m.Counts (0 + lost) := hstart.run es
  obtain ⟨counted, hrows, hsum⟩ := hcounts.rows
  have hleft : Machine.begunBy m.workers = 0 :=
    Machine.begunBy_eq_zero fun w hw => Worker.begun_of_isGone (List.all_eq_true.1 hover w hw)
  have htotal : counted = m.shared.delivered.size - lost := by omega
  rw [htotal] at hrows
  refine ⟨fun into => by rw [Collector.count_addCounters, hrows], by omega, fun hlt => ?_,
    Machine.torn_eq_zero_iff, fun hs => Machine.torn_eq_zero hs es⟩
  rw [hrows, UInt64.toNat_ofNat_of_lt' (by omega)]
  omega

namespace Sample

/-- Split `a` has one batch, of two rows. -/
def paired : Service := { scripts := [(⟨"a"⟩, [⟨.avro, 2, [10, 12]⟩]), (⟨"b"⟩, [])] }

end Sample

/-- A sink that takes one record and refuses the second of a batch: one
record is taken, and none counted. -/
theorem rows_counted_inside_batch :
    let m := Sample.solo.run Sample.paired (Sink.upTo (some 1)) 0 (Sample.steps 8)
    m.isOver = true ∧ m.shared.delivered.size = 1 ∧ m.shared.counters.rows.toNat = 0 ∧
      (Sample.solo.start Sample.paired 0).torn Sample.solo.plan (Sink.upTo (some 1))
        (Sample.steps 8) ≠ 0 := by
  intro m
  have hover : m.isOver = true := by decide +kernel
  have hsize : m.shared.delivered.size = 1 := by decide +kernel
  have hrows : m.shared.counters.rows.toNat = 0 := by decide +kernel
  have hiff := (rows_counted Sample.solo hover).2.2.1 (by
    change m.shared.delivered.size < UInt64.size
    rw [hsize]
    decide)
  refine ⟨hover, hsize, hrows, fun hlost => ?_⟩
  have htrue : m.shared.counters.rows.toNat = m.shared.delivered.size := hiff.2 hlost
  rw [hrows, hsize] at htrue
  cases htrue

end Intake
