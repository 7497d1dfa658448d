import Intake.Text.Quoted
import Intake.Json.Access
/-!
# Splits and their owners

A split is one independently readable part of a table, known by its
name. The splits of a session are dealt to its workers in turn: worker
`i` of `p` owns the splits at the positions `i`, `i + p`, `i + 2p`, … and
reads them in that order (`getElem?_stride`).
-/

namespace Intake

/-- The name of a split. -/
structure SplitId where
  name : String
  deriving DecidableEq, Repr, Inhabited

namespace SplitId

/-- A split as it is shown in diagnostics. -/
def shown (s : SplitId) : String := "SplitId(" ++ Text.quoted s.name ++ ")"

/-- The order of splits: that of their names, code point by code point. -/
def le (a b : SplitId) : Bool := decide (a.name ≤ b.name)

def toJson (s : SplitId) : Json := .str s.name

def ofJson? (j : Json) : Option SplitId := j.text?.map SplitId.mk

end SplitId

/-- The items of a list at the positions `skip`, `skip + step`,
`skip + 2 * step`, … -/
def stride {α : Type} (step : Nat) : Nat → List α → List α
  | _, [] => []
  | 0, a :: as => a :: stride step (step - 1) as
  | skip + 1, _ :: as => stride step skip as

/-- **Item `k` of a stride is the item of the list at `skip + k * step`.** -/
theorem getElem?_stride {α : Type} {step : Nat} (h : 0 < step) (skip k : Nat) (as : List α) :
    (stride step skip as)[k]? = as[skip + k * step]? := by
  induction as generalizing skip k with
  | nil => simp [stride]
  | cons a as ih =>
    cases skip with
    | succ skip =>
      rw [stride, ih, show skip + 1 + k * step = skip + k * step + 1 by omega,
        List.getElem?_cons_succ]
    | zero =>
      cases k with
      | zero => simp [stride]
      | succ k =>
        -- behind an item that is kept, `step - 1` items are skipped
        rw [stride, List.getElem?_cons_succ, ih,
          show 0 + (k + 1) * step = (step - 1 + k * step) + 1 by rw [Nat.succ_mul]; omega,
          List.getElem?_cons_succ]

/-- What one worker owns. -/
structure Assignment where
  worker : Nat
  splits : List SplitId
  deriving DecidableEq, Repr

namespace Assignment

/-- The splits of worker `worker` out of `workers`; no worker at all
counts as one. -/
def splitsOf (splits : List SplitId) (workers worker : Nat) : List SplitId :=
  stride (max workers 1) worker splits

/-- The assignments of all workers, in the order of the workers. -/
def all (splits : List SplitId) (workers : Nat) : List Assignment :=
  (List.range (max workers 1)).map fun w => ⟨w, splitsOf splits workers w⟩

end Assignment

end Intake
