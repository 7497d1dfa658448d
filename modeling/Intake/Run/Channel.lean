import Intake.Run.Sink
/-!
# Bounded channels

A sink that passes records on to a receiver through a queue of limited
length. A record offered to a full queue waits while the run goes on, and
is refused once the run has stopped; when the receiver is gone every
record is refused. Whoever holds the receiver takes records off the
queue, oldest first, or lets go of it. The places on the queue are
allocated when the channel is opened.

The main statements: sending adds a record behind those sent before
(`sent_send`), nothing the receiver's holder does takes one away
(`sent_act`), and a record is refused for one of two reasons
(`send_eq_refused_iff`).
-/

namespace Intake

/-- A queue of records between a run and a receiver. -/
structure Channel where
  capacity : Nat
  /-- the records sent and not yet received, oldest first -/
  queue : List Record := []
  /-- whether the receiver is still held -/
  hasReceiver : Bool := true
  /-- the records received, in the order of receipt -/
  received : List Record := []
  deriving DecidableEq, Repr

/-- What the holder of a receiver does. -/
inductive ReceiverAction where
  /-- takes the oldest record off the queue, if there is one -/
  | receive
  /-- lets go of the receiver, and with it of what is on the queue -/
  | drop
  deriving DecidableEq, Repr

namespace Channel

/-- The bytes that a place on the queue takes: three words for a record, and
one for its stamp. -/
def slotBytes : Nat := 32

/-- A channel for so many records, `none` when opening it panics: no memory
block has more bytes than the largest signed word. -/
def open? (capacity : Nat) : Option Channel :=
  if capacity * slotBytes ≤ 0x7FFFFFFFFFFFFFFF then some { capacity } else none

/-- The records that were sent, in the order in which they were. -/
def sent (c : Channel) : List Record := c.received ++ c.queue

/-- What becomes of a record that is sent, in a run that goes on or has
stopped. -/
def send (c : Channel) (running : Bool) (x : Record) : Reply Channel :=
  if !c.hasReceiver then .refused c
  else if c.queue.length < c.capacity then .accepted { c with queue := c.queue ++ [x] }
  else if running then .full
  else .refused c

/-- The channel after an action of the receiver's holder, who can do
nothing any more once the receiver is gone. -/
def act (c : Channel) (a : ReceiverAction) : Channel :=
  if !c.hasReceiver then c
  else
    match a with
    | .receive =>
      match c.queue with
      | [] => c
      | x :: rest => { c with queue := rest, received := c.received ++ [x] }
    | .drop => { c with hasReceiver := false }

/-- **A record that is accepted is sent behind all others.** -/
theorem sent_send {c c' : Channel} {running : Bool} {x : Record}
    (h : c.send running x = .accepted c') : c'.sent = c.sent ++ [x] := by
  unfold send at h
  split at h
  · simp at h
  · split at h
    · simp only [Reply.accepted.injEq] at h
      subst h
      simp [sent]
    · split at h <;> simp at h

/-- **What was sent stays sent**, whatever the receiver's holder does. -/
theorem sent_act (c : Channel) (a : ReceiverAction) : (c.act a).sent = c.sent := by
  unfold act
  split
  · rfl
  · cases a with
    | drop => rfl
    | receive =>
      cases hq : c.queue with
      | nil => rfl
      | cons x rest => simp [sent, hq]

section

variable {c c' : Channel} {running : Bool} {x : Record} {n : Nat}

/-! ## Which reply a record gets -/

theorem send_eq_accepted_iff : c.send running x = .accepted c' ↔
    c.hasReceiver = true ∧ c.queue.length < c.capacity ∧ c' = { c with queue := c.queue ++ [x] } := by
  cases hc : c.hasReceiver with
  | false => simp [send, hc]
  | true =>
    by_cases hr : c.queue.length < c.capacity
    · simp [send, hc, hr, eq_comm]
    · cases running <;> simp [send, hc, hr]

theorem send_eq_full_iff : c.send running x = .full ↔
    c.hasReceiver = true ∧ c.capacity ≤ c.queue.length ∧ running = true := by
  cases hc : c.hasReceiver with
  | false => simp [send, hc]
  | true =>
    by_cases hr : c.queue.length < c.capacity
    · simp [send, hc, hr, Nat.not_le_of_lt hr]
    · cases running <;> simp [send, hc, hr, Nat.le_of_not_lt hr]

/-- **A record is refused** when the receiver is gone, or when the channel
is full and the run has stopped. -/
theorem send_eq_refused_iff : c.send running x = .refused c' ↔
    c' = c ∧ (c.hasReceiver = false ∨ c.capacity ≤ c.queue.length ∧ running = false) := by
  cases hc : c.hasReceiver with
  | false => simp [send, hc, eq_comm]
  | true =>
    by_cases hr : c.queue.length < c.capacity
    · simp [send, hc, hr, Nat.not_le_of_lt hr]
    · cases running <;> simp [send, hc, hr, Nat.le_of_not_lt hr, eq_comm]

/-! ## The room in a channel -/

/-- A channel for `n` records, with no more than these on its queue. -/
structure Holds (n : Nat) (c : Channel) : Prop where
  capacity : c.capacity = n
  length : c.queue.length ≤ n

theorem Holds.send (h : c.Holds n) (hs : c.send running x = .accepted c') : c'.Holds n := by
  obtain ⟨-, hroom, rfl⟩ := send_eq_accepted_iff.1 hs
  refine ⟨h.capacity, ?_⟩
  rw [← h.capacity, List.length_append]
  exact hroom

/-- The receiver's holder only takes off the queue. -/
theorem length_act_le (c : Channel) (a : ReceiverAction) :
    (c.act a).queue.length ≤ c.queue.length := by
  unfold act
  split
  · exact Nat.le_refl _
  · cases a with
    | drop => exact Nat.le_refl _
    | receive =>
      cases hq : c.queue with
      | nil => simp [hq]
      | cons x rest => simp

theorem capacity_act (c : Channel) (a : ReceiverAction) : (c.act a).capacity = c.capacity := by
  unfold act
  split
  · rfl
  · cases a with
    | drop => rfl
    | receive => dsimp only; split <;> rfl

theorem Holds.act (h : c.Holds n) (a : ReceiverAction) : (c.act a).Holds n :=
  ⟨(capacity_act c a).trans h.capacity, Nat.le_trans (length_act_le c a) h.length⟩

/-- Only by letting go is the receiver gone. -/
theorem hasReceiver_act {a : ReceiverAction} (ha : a ≠ .drop) :
    (c.act a).hasReceiver = c.hasReceiver := by
  unfold Channel.act
  split
  · rfl
  · cases a with
    | drop => exact absurd rfl ha
    | receive => dsimp only; split <;> rfl

/-- While the receiver is held, a receipt makes room. -/
theorem length_receive (h : c.hasReceiver = true) :
    (c.act .receive).queue.length = c.queue.length - 1 := by
  cases hq : c.queue with
  | nil => simp [Channel.act, h, hq]
  | cons x rest => simp [Channel.act, h, hq]

end

/-- The channel as a sink, on which the receiver's holder acts. -/
def sink : Sink Channel ReceiverAction := ⟨fun c running _ x => c.send running x, act⟩

end Channel

end Intake
