import Intake.Proofs.Outcomes
import Intake.Proofs.Solo
/-!
# The records of a split stay together

A worker goes through its splits one after the other, so that the sink
takes the records of one split from it before it takes any of the next.
This holds at every moment of every run, whatever the faults, the sink and
the order of events (`Ingestion.deliveriesFrom_eq`). As each split has one
owner, all the records of a run are those of its splits, and only their
order tells how many workers there were (`Ingestion.records_perm`).
-/

namespace Intake

variable {σ α : Type} {p : Plan} {sink : Sink σ α} {sh sh' : Shared σ} {w w' : Worker}
variable {own ss : List SplitId} {i : Nat} {x : SplitId}

/-! ## Split by split -/

namespace Shared

/-- The records the sink took of splits, split by split, as worker `i`
delivers them. -/
def bySplit (sh : Shared σ) (i : Nat) (ss : List SplitId) : List Delivery :=
  ss.flatMap fun x => (sh.recordsOf x).map (Delivery.mk i x)

theorem bySplit_congr (h : ∀ x ∈ ss, sh'.recordsOf x = sh.recordsOf x) :
    sh'.bySplit i ss = sh.bySplit i ss :=
  List.flatMap_congr fun x hx => by rw [h x hx]

theorem bySplit_eq_nil (h : ∀ x ∈ ss, sh.recordsOf x = []) : sh.bySplit i ss = [] :=
  List.flatMap_eq_nil_iff.2 fun x hx => by rw [h x hx, List.map_nil]

/-- A record that is taken stands behind those of its split, with which it
stands in front of splits of which nothing is taken. -/
theorem bySplit_push (hn : (ss ++ x :: own).Nodup) (hahead : ∀ z ∈ own, sh.recordsOf z = [])
    (y : σ) (record : Record) :
    Shared.bySplit { sh with sink := y, delivered := sh.delivered.push ⟨i, x, record⟩ } i
        (ss ++ x :: own) =
      sh.bySplit i (ss ++ x :: own) ++ [⟨i, x, record⟩] := by
  have hother : ∀ z, x ≠ z →
      Shared.recordsOf { sh with sink := y, delivered := sh.delivered.push ⟨i, x, record⟩ } z =
        sh.recordsOf z := fun z hz => recordsOf_push_of_ne sh y hz
  have hself := recordsOf_push_self sh y ⟨i, x, record⟩
  obtain ⟨-, hback, hfront⟩ := List.nodup_append.1 hn
  have hbehind : ∀ z ∈ own, x ≠ z := fun z hz h => (List.nodup_cons.1 hback).1 (h ▸ hz)
  have hbefore : ∀ z ∈ ss, x ≠ z := fun z hz h => hfront z hz x List.mem_cons_self h.symm
  have hnil := bySplit_eq_nil (i := i) hahead
  have hnil' := bySplit_congr (i := i) fun z hz => hother z (hbehind z hz)
  have hss := bySplit_congr (i := i) fun z hz => hother z (hbefore z hz)
  rw [hnil] at hnil'
  unfold bySplit at hnil hnil' hss ⊢
  rw [List.flatMap_append, List.flatMap_cons, List.flatMap_append, List.flatMap_cons, hnil, hnil',
    hss, hself, List.map_append, List.append_nil, List.append_nil, List.append_assoc]
  rfl

/-- The records of a split were all delivered by one worker, one behind the
other. -/
def IsTogether (sh : Shared σ) (x : SplitId) : Prop :=
  ∃ i before after,
    sh.deliveriesFrom i = before ++ (sh.recordsOf x).map (Delivery.mk i x) ++ after

end Shared

/-! ## Workers go from split to split -/

namespace Worker

/-- Worker `i` goes through its splits `own` in turn, and has delivered
nothing of those it has not taken up. -/
structure InTurn (own : List SplitId) (i : Nat) (w : Worker) (sh : Shared σ) : Prop where
  left : w.inHand ++ w.splits <:+ own
  ahead : ∀ x ∈ w.splits, sh.recordsOf x = []
  deliveries : sh.deliveriesFrom i = sh.bySplit i own

theorem InTurn.apart (hb : w.Belongs i own) (h : w.InTurn own i sh) (ha : sh.Apart i own sh') :
    w.InTurn own i sh' where
  left := h.left
  ahead x hx := (ha.taken x (hb.splits x (List.mem_append_right _ hx))).trans (h.ahead x hx)
  deliveries := by rw [ha.deliveries, h.deliveries, Shared.bySplit_congr ha.taken]

/-- **A worker delivers its splits in turn**, by its own steps. -/
theorem InTurn.of_moves (hn : own.Nodup) (hb : w.Belongs i own) (h : w.InTurn own i sh)
    (hm : w.Moves p sink sh w' sh') : w'.InTurn own i sh' := by
  refine ⟨hm.suffix_splits.trans h.left, fun x hx => ?_, ?_⟩
  · -- records are taken of the split in hand only
    have hx := hm.splits_subset x hx
    have hnot := not_mem_inHand (hn.sublist h.left.sublist) hx
    exact (hm.recordsOf_of_not_mem hnot).trans (h.ahead x hx)
  · cases hm with
    | accept hw ho =>
      rename_i r batch rows bytes z rest y
      obtain ⟨done, hown⟩ := h.left
      obtain rfl := hb.worker
      rw [inHand, hw] at hown
      change done ++ r.split :: w.splits = own at hown
      subst hown
      rw [Shared.bySplit_push hn h.ahead, ← h.deliveries]
      simp [Shared.deliveriesFrom, List.filter_append]
    | _ => exact h.deliveries

end Worker

/-! ## Owners share out the splits -/

/-- Items that are dealt out by a number are all of them. -/
theorem flatMap_filter_perm {β : Type} (f : β → Nat) {n : Nat} {ys : List β}
    (h : ∀ y ∈ ys, f y < n) :
    ((List.range n).flatMap fun i => ys.filter fun y => f y == i).Perm ys := by
  induction n generalizing ys with
  | zero =>
    obtain rfl : ys = [] := List.eq_nil_iff_forall_not_mem.2 fun y hy => Nat.not_lt_zero _ (h y hy)
    exact .refl _
  | succ n ih =>
    have hlast : ∀ y ∈ ys.filter (fun y => !(f y == n)), f y < n := by
      intro y hy
      obtain ⟨hmem, hne⟩ := List.mem_filter.1 hy
      have := h y hmem
      have : f y ≠ n := by simpa using hne
      omega
    -- but for the last number, the items are those without it
    have hothers : (List.range n).flatMap (fun i => ys.filter fun y => f y == i) =
        (List.range n).flatMap fun i =>
          (ys.filter fun y => !(f y == n)).filter fun y => f y == i := by
      refine List.flatMap_congr fun i hi => ?_
      rw [List.filter_filter]
      refine List.filter_congr fun y _ => ?_
      have hne : n ≠ i := Nat.ne_of_gt (List.mem_range.1 hi)
      by_cases hy : f y = i
      · simp [hy, hne.symm]
      · simp [hy]
    rw [List.range_succ, List.flatMap_append, List.flatMap_singleton, hothers]
    exact ((ih hlast).append_right _).trans
      (List.perm_append_comm.trans (List.filter_append_perm _ _))

variable {c : EngineConfig} {t : Session} {selected : List String} {g : Ingestion}
variable {service : Service} {y : σ} {es : List (Event α)}

namespace Ingestion

/-- **The workers share out the splits of a session.** -/
theorem flatMap_own_perm (hg : ofSession c t selected = .ok g) :
    ((List.range c.parallelism.toNat).flatMap g.own).Perm t.splits := by
  have hnodup : ((List.range c.parallelism.toNat).flatMap g.own).Nodup :=
    List.nodup_flatMap.2 ⟨fun i _ => nodup_own hg i,
      List.nodup_range.imp fun hij => disjoint_own hg hij⟩
  refine (List.perm_ext_iff_of_nodup hnodup (ofSession_eq_ok hg).2.1).2 fun x => ⟨fun hx => ?_,
    fun hx => ?_⟩
  · obtain ⟨i, -, hi⟩ := List.mem_flatMap.1 hx
    exact (own_sublist hg i).subset hi
  · obtain ⟨i, hi, hx⟩ := exists_mem_own hg hx
    exact List.mem_flatMap.2 ⟨i, List.mem_range.2 hi, hx⟩

/-- **A worker delivers split after split**: what the sink took from it are
the records it took of the first of its splits, then those of the second,
and so on. -/
theorem deliveriesFrom_eq (hg : ofSession c t selected = .ok g) (service : Service)
    (sink : Sink σ α) (y : σ) (es : List (Event α)) (i : Nat) :
    (g.run service sink y es).shared.deliveriesFrom i =
      (g.run service sink y es).shared.bySplit i (g.own i) := by
  rcases Nat.lt_or_ge i c.parallelism.toNat with hi | hi
  · have heach : (g.run service sink y es).Each fun i w sh =>
        w.Belongs i (g.own i) ∧ w.InTurn (g.own i) i sh := by
      refine Machine.each_run (fun i j => disjoint_own hg) (belongs_start hg service y) ?_
        (fun hb h hm => h.of_moves (nodup_own hg _) hb hm) (fun hb h ha => h.apart hb ha) es
      intro i w hw
      obtain ⟨-, rfl⟩ := start_workers hg service y hw
      exact ⟨List.suffix_rfl, fun _ _ => rfl, (Shared.bySplit_eq_nil fun _ _ => rfl).symm⟩
    have hlen := length_workers_run hg service sink y es
    exact (heach i _ (List.getElem?_eq_getElem (by omega))).2.deliveries
  · -- a number that no worker has
    rw [own_eq_nil hg hi]
    refine List.filter_eq_nil_iff.2 fun d hd => ?_
    have hlt := (accounts hg service sink y es).2.delivered d hd
    rw [length_workers_run hg] at hlt
    have hne : d.worker ≠ i := by omega
    simpa using hne

/-- **The records of a split stay together.** -/
theorem isTogether (hg : ofSession c t selected = .ok g) (service : Service) (sink : Sink σ α)
    (y : σ) (es : List (Event α)) (hx : x ∈ t.splits) :
    (g.run service sink y es).shared.IsTogether x := by
  obtain ⟨i, -, hi⟩ := exists_mem_own hg hx
  obtain ⟨ss, rest, hown⟩ := List.append_of_mem hi
  have hfrom := deliveriesFrom_eq hg service sink y es i
  generalize (g.run service sink y es).shared = sh at hfrom ⊢
  refine ⟨i, sh.bySplit i ss, sh.bySplit i rest, ?_⟩
  rw [hfrom, hown, Shared.bySplit, List.flatMap_append, List.flatMap_cons, ← List.append_assoc]
  rfl

/-- **The records of a run are those of its splits**, in some order. -/
theorem records_perm (hg : ofSession c t selected = .ok g) (service : Service)
    (sink : Sink σ α) (y : σ) (es : List (Event α)) :
    (g.run service sink y es).shared.records.Perm
      (t.splits.flatMap (g.run service sink y es).shared.recordsOf) := by
  have hfrom : ∀ i, (g.run service sink y es).shared.deliveriesFrom i = _ :=
    deliveriesFrom_eq hg service sink y es
  have hsource := (accounts hg service sink y es).2.delivered
  rw [length_workers_run hg] at hsource
  generalize (g.run service sink y es).shared = sh at hfrom hsource ⊢
  have hworkers := (flatMap_filter_perm Delivery.worker hsource).map Delivery.record
  have hsplits : ((List.range c.parallelism.toNat).flatMap sh.deliveriesFrom).map Delivery.record =
      ((List.range c.parallelism.toNat).flatMap g.own).flatMap sh.recordsOf := by
    rw [List.map_flatMap, List.flatMap_assoc]
    refine List.flatMap_congr fun i _ => ?_
    rw [hfrom, Shared.bySplit, List.map_flatMap]
    refine List.flatMap_congr fun x _ => ?_
    rw [List.map_map]
    exact List.map_id _
  have howners := (flatMap_own_perm hg).flatMap_right sh.recordsOf
  rw [← hsplits] at howners
  exact hworkers.symm.trans howners

end Ingestion

end Intake
