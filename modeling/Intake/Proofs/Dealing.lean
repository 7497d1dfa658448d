import Intake.Split
import Mathlib.Algebra.Order.Floor.Div
import Mathlib.Algebra.BigOperators.Group.List.Basic
import Mathlib.Data.List.Range
/-!
# How splits are dealt

Dealing a list in turn moves round by one with every item: the first item
goes to the first hand, and the rest of the list is dealt to the others
and to that one after them (`hands_cons`). Whatever is dealt in turn is
therefore had back by taking it in turn (`dealBack_hands`), and nothing is
lost or doubled on the way (`flatten_hands_perm`). Main statement: the
assignments of the workers share out the positions of the list of splits,
evenly and each in the order of the list (`Assignment.all_partitions`).
-/

namespace Intake

variable {α : Type} {p i k : Nat} {as : List α}

/-! ## Strides -/

/-- **How long a stride is**: as many steps as fit between the first item
and the end of the list, the last perhaps cut short. -/
theorem length_stride (hp : 0 < p) (i : Nat) (as : List α) :
    (stride p i as).length = (as.length - i) ⌈/⌉ p := by
  -- both sides are told by the numbers that they do not exceed
  refine eq_of_forall_ge_iff fun k => ?_
  have hk : (stride p i as).length ≤ k ↔ as.length ≤ i + k * p := by
    rw [← List.getElem?_eq_none_iff, getElem?_stride hp, List.getElem?_eq_none_iff]
  rw [hk, ceilDiv_le_iff_le_mul hp, Nat.sub_le_iff_le_add', Nat.mul_comm]

/-- Strides of one list differ in length by one item at most. -/
theorem length_stride_le {j : Nat} (hj : j < p) (i : Nat) (as : List α) :
    (stride p i as).length ≤ (stride p j as).length + 1 := by
  have hp : 0 < p := Nat.zero_lt_of_lt hj
  have hle : as.length - j ≤ p * (stride p j as).length := by
    rw [← ceilDiv_le_iff_le_mul hp, length_stride hp]
  rw [length_stride hp, ceilDiv_le_iff_le_mul hp, Nat.mul_succ]
  omega

/-- The items of a stride are those of the list at every `p`-th position
from `i` on. -/
theorem map_some_stride (hp : 0 < p) (i : Nat) (as : List α) :
    (stride p i as).map some =
      (List.range (stride p i as).length).map fun k => as[i + k * p]? := by
  refine List.ext_getElem (by simp) fun k hk _ => ?_
  rw [List.length_map] at hk
  rw [List.getElem_map, List.getElem_map, List.getElem_range, ← getElem?_stride hp,
    List.getElem?_eq_getElem hk]

/-- So the stride of the positions of a list holds these positions. -/
theorem stride_range (hp : 0 < p) (i : Nat) (as : List α) :
    stride p i (List.range as.length) =
      (List.range (stride p i as).length).map fun k => i + k * p := by
  have hlen : (stride p i (List.range as.length)).length = (stride p i as).length := by
    rw [length_stride hp, length_stride hp, List.length_range]
  refine List.ext_getElem (by simpa using hlen) fun k hk _ => ?_
  have hget := (getElem?_stride hp i k (List.range as.length)).symm
  rw [List.getElem?_eq_getElem hk] at hget
  obtain ⟨_, hpos⟩ := List.getElem?_eq_some_iff.1 hget
  rw [List.getElem_range] at hpos
  rw [← hpos, List.getElem_map, List.getElem_range]

/-! ## Hands -/

/-- The hands of `p` players to whom a list is dealt in turn. -/
def hands (p : Nat) (as : List α) : List (List α) := (List.range p).map fun i => stride p i as

/-- The items of several hands in turn, one from each at a time, until no
hand holds any. -/
def dealBack : List (List α) → List α
  | [] => []
  | [] :: hs => dealBack hs
  | (a :: as) :: hs => a :: dealBack (hs ++ [as])
termination_by hs => hs.flatten.length + hs.length
decreasing_by all_goals grind

theorem hands_nil (p : Nat) : hands p ([] : List α) = List.replicate p [] := by
  simp [hands, stride, List.map_const']

/-- **An item goes to the first hand**, and the rest is dealt from the next
hand on. -/
theorem hands_cons (p : Nat) (a : α) (as : List α) :
    ∃ h hs, hands (p + 1) (a :: as) = (a :: h) :: hs ∧ hands (p + 1) as = hs ++ [h] := by
  refine ⟨stride (p + 1) p as, (List.range p).map fun i => stride (p + 1) i as, ?_, ?_⟩
  · rw [hands, List.range_succ_eq_map, List.map_cons, List.map_map]
    rfl
  · rw [hands, List.range_succ, List.map_append, List.map_singleton]

theorem dealBack_replicate (p : Nat) : dealBack (List.replicate p ([] : List α)) = [] := by
  induction p with
  | zero => rw [List.replicate_zero, dealBack]
  | succ p ih => rw [List.replicate_succ, dealBack, ih]

/-- **What is dealt in turn is had back by taking it in turn.** -/
theorem dealBack_hands (p : Nat) (as : List α) : dealBack (hands (p + 1) as) = as := by
  induction as with
  | nil => rw [hands_nil, dealBack_replicate]
  | cons a as ih =>
    obtain ⟨h, hs, hcons, hrest⟩ := hands_cons p a as
    rw [hcons, dealBack, ← hrest, ih]

/-- **Every item is in one hand.** -/
theorem flatten_hands_perm (p : Nat) (as : List α) : (hands (p + 1) as).flatten.Perm as := by
  induction as with
  | nil => simp [hands_nil]
  | cons a as ih =>
    obtain ⟨h, hs, hcons, hrest⟩ := hands_cons p a as
    rw [hrest, List.flatten_append, List.flatten_singleton] at ih
    rw [hcons, List.flatten_cons, List.cons_append]
    exact (List.perm_append_comm.trans ih).cons a

/-! ## Assignments -/

namespace Assignment

/-- The positions, in the list of splits, of the splits of a worker that is
one of `p`. -/
def positions (p : Nat) (a : Assignment) : List Nat :=
  (List.range a.splits.length).map fun k => a.worker + k * p

variable {splits : List SplitId} {workers : Nat} {a : Assignment}

theorem workers_pos (workers : Nat) : 0 < max workers 1 := by omega

theorem getElem?_all {w : Nat} (h : w < max workers 1) :
    (all splits workers)[w]? = some ⟨w, splitsOf splits workers w⟩ := by
  rw [all, List.getElem?_map, List.getElem?_range h, Option.map_some]

theorem mem_all (h : a ∈ all splits workers) :
    a.worker < max workers 1 ∧ a.splits = stride (max workers 1) a.worker splits := by
  obtain ⟨w, hw, rfl⟩ := List.mem_map.1 h
  exact ⟨List.mem_range.1 hw, rfl⟩

theorem map_worker_all (splits : List SplitId) (workers : Nat) :
    (all splits workers).map Assignment.worker = List.range (max workers 1) := by
  rw [all, List.map_map]
  exact List.map_id _

theorem map_splits_all (splits : List SplitId) (workers : Nat) :
    (all splits workers).map Assignment.splits = hands (max workers 1) splits := by
  rw [all, List.map_map]
  rfl

/-- The splits of a worker are those at its positions. -/
theorem map_some_splits (h : a ∈ all splits workers) :
    a.splits.map some = (a.positions (max workers 1)).map fun k => splits[k]? := by
  obtain ⟨-, hsplits⟩ := mem_all h
  rw [positions, List.map_map, hsplits, map_some_stride (workers_pos workers)]
  rfl

/-- They are in the order of the list. -/
theorem pairwise_positions (hp : 0 < p) (a : Assignment) : (a.positions p).Pairwise (· < ·) := by
  rw [positions, List.pairwise_map]
  exact List.pairwise_lt_range.imp fun hlt =>
    Nat.add_lt_add_left (Nat.mul_lt_mul_of_pos_right hlt hp) _

/-- **Every position is owned once.** The positions are dealt like the
splits that lie there. -/
theorem flatMap_positions_perm (splits : List SplitId) (workers : Nat) :
    ((all splits workers).flatMap (positions (max workers 1))).Perm
      (List.range splits.length) := by
  obtain ⟨q, hq⟩ := Nat.exists_eq_succ_of_ne_zero (workers_pos workers).ne'
  have hdealt : (all splits workers).flatMap (positions (max workers 1)) =
      (hands (max workers 1) (List.range splits.length)).flatten := by
    rw [all, List.flatMap_map, hands, ← List.flatMap_def]
    refine List.flatMap_congr fun i _ => ?_
    rw [stride_range (workers_pos workers)]
    rfl
  rw [hdealt, hq]
  exact flatten_hands_perm q _

/-- **The splits of a list are shared out.** With no worker counting as
one, each of the `p` workers has an assignment, in their order. The split
at position `k` is item `k / p` of worker `k % p`. Worker `i` owns as many
splits as there are from position `i` on, divided by `p` and rounded up,
which is none behind the end; they are those at its positions, in rising
order. Every position is owned once, and so all splits are; no worker owns
two more than another; and taking from the workers in turn rebuilds the
list. -/
theorem all_partitions (splits : List SplitId) (workers : Nat) :
    let p := max workers 1
    let as := all splits workers
    as.map Assignment.worker = List.range p ∧
      (∀ k, ∃ a, as[k % p]? = some a ∧ a.splits[k / p]? = splits[k]?) ∧
      (∀ a ∈ as, a.splits.length = (splits.length - a.worker) ⌈/⌉ p) ∧
      (∀ a ∈ as, a.splits.map some = (a.positions p).map (fun k => splits[k]?) ∧
        (a.positions p).Pairwise (· < ·)) ∧
      (as.flatMap (positions p)).Perm (List.range splits.length) ∧
      (as.map fun a => a.splits.length).sum = splits.length ∧
      (∀ a ∈ as, ∀ b ∈ as, a.splits.length ≤ b.splits.length + 1) ∧
      dealBack (as.map Assignment.splits) = splits := by
  intro p as
  have hp : 0 < p := workers_pos workers
  obtain ⟨q, hq⟩ := Nat.exists_eq_succ_of_ne_zero hp.ne'
  have hhands : as.map Assignment.splits = hands (q + 1) splits :=
    (map_splits_all splits workers).trans (congrArg (hands · splits) hq)
  refine ⟨map_worker_all _ _, fun k => ?_, fun a ha => ?_,
    fun a ha => ⟨map_some_splits ha, pairwise_positions hp a⟩, flatMap_positions_perm _ _, ?_,
    fun a ha b hb => ?_, ?_⟩
  · refine ⟨_, getElem?_all (Nat.mod_lt k hp), ?_⟩
    rw [splitsOf, getElem?_stride hp, Nat.mod_add_div']
  · rw [(mem_all ha).2, length_stride hp]
  · have hlen := (flatten_hands_perm q splits).length_eq
    rwa [← hhands, List.length_flatten, List.map_map] at hlen
  · rw [(mem_all ha).2, (mem_all hb).2]
    exact length_stride_le (mem_all hb).1 _ _
  · rw [hhands, dealBack_hands]

end Assignment

namespace Sample

/-- Five splits, two of one name. -/
def five : List SplitId := [⟨"a"⟩, ⟨"b"⟩, ⟨"a"⟩, ⟨"c"⟩, ⟨"d"⟩]

end Sample

/-- Five splits go to three workers, two of them with two, and come back in
their order. -/
theorem Assignment.all_partitions_of_five :
    all Sample.five 3 =
        [⟨0, [⟨"a"⟩, ⟨"c"⟩]⟩, ⟨1, [⟨"b"⟩, ⟨"d"⟩]⟩, ⟨2, [⟨"a"⟩]⟩] ∧
      (∃ a, (all Sample.five 3)[4 % 3]? = some a ∧ a.splits[4 / 3]? = some ⟨"d"⟩) ∧
      dealBack [[⟨"a"⟩, ⟨"c"⟩], [⟨"b"⟩, ⟨"d"⟩], [⟨"a"⟩]] = Sample.five := by
  have hall : all Sample.five 3 =
      [⟨0, [⟨"a"⟩, ⟨"c"⟩]⟩, ⟨1, [⟨"b"⟩, ⟨"d"⟩]⟩, ⟨2, [⟨"a"⟩]⟩] := by decide
  obtain ⟨-, howner, -, -, -, -, -, hback⟩ := all_partitions Sample.five 3
  refine ⟨hall, howner 4, ?_⟩
  rwa [hall] at hback

end Intake
