import Intake.Run.Channel
import Intake.Run.Outcome
import Intake.Run.Turns
/-!
# Consumers of a channel

A consumer holds the receiver of a run that delivers through a channel.
It takes a number of records, or all, and then waits for the end of the
run, lets go of the receiver, or cancels the run.
-/

namespace Intake

/-- What a consumer does once it has its records. -/
inductive Farewell where
  /-- waits for the end of the run -/
  | await
  /-- lets go of the receiver -/
  | drop
  | cancel
  deriving DecidableEq, Repr

/-- The holder of the receiver of a channel. -/
structure Consumer where
  /-- how many records are taken, `none` for all -/
  limit : Option Nat
  farewell : Farewell
  deriving DecidableEq, Repr

namespace Consumer

/-- Whether a consumer takes another record. -/
def wants (c : Consumer) (ch : Channel) : Bool :=
  match c.limit with
  | none => true
  | some n => ch.received.length < n

/-- The outside of a run with a consumer that takes records off a channel
that is full. -/
def outside (c : Consumer) (cancelAtCall : Option Nat) : Outside Channel ReceiverAction :=
  { cancelAtCall, relieve := fun ch => if c.wants ch then some .receive else none }

/-- The channel once the consumer has taken what it still wants of the
queue. -/
def collect (c : Consumer) (ch : Channel) : Channel :=
  let n :=
    match c.limit with
    | none => ch.queue.length
    | some n => n - ch.received.length
  { ch with queue := ch.queue.drop n, received := ch.received ++ ch.queue.take n }

/-- The run up to where the consumer has its records. -/
def attend (c : Consumer) (p : Plan) (cancelAtCall : Option Nat) (m : Machine Channel) :
    Machine Channel :=
  let m := m.takeTurns p Channel.sink (c.outside cancelAtCall)
  { m with shared := { m.shared with sink := c.collect m.shared.sink } }

/-- The run behind the last act of the consumer. -/
def leave (c : Consumer) (p : Plan) (cancelAtCall : Option Nat) (m : Machine Channel) :
    Machine Channel :=
  let turns (m : Machine Channel) := m.takeTurns p Channel.sink { cancelAtCall }
  match c.farewell with
  | .await => m
  | .drop => turns (m.apply p Channel.sink (.act .drop))
  | .cancel => turns (m.apply p Channel.sink .cancel)

end Consumer

end Intake
