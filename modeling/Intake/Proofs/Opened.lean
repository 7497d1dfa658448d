import Intake.Ingestion
import Intake.Proofs.Views
/-!
# Runs at their start

What the checks before a run establish about it: there is a worker, the
splits of the session are distinct, and the workers share them out, so
that no split is owned twice (`Ingestion.disjoint_own`). A run starts
with every worker before its first split.
-/

namespace Intake

variable {σ α : Type} {p : Plan} {sink : Sink σ α}
variable {c : EngineConfig} {s : Session} {selected : List String} {g : Ingestion}

namespace Session

theorem nodup_of_checkSplits {seen xs : List SplitId} (h : checkSplits seen xs = .ok ()) :
    xs.Nodup ∧ seen.Disjoint xs := by
  induction xs generalizing seen with
  | nil => simp
  | cons x xs ih =>
    rw [checkSplits] at h
    split at h
    · cases h
    · split at h
      · cases h
      · rename_i hx
        obtain ⟨hn, hd⟩ := ih h
        rw [List.disjoint_cons_left] at hd
        exact ⟨List.nodup_cons.2 ⟨hd.1, hn⟩, List.disjoint_cons_right.2 ⟨hx, hd.2⟩⟩

/-- The splits of a session that can be run are distinct. -/
theorem nodup_of_validateSplits {xs : List SplitId} (h : validateSplits xs = .ok ()) : xs.Nodup :=
  (nodup_of_checkSplits h).1

end Session

/-- A stride leaves items out, and keeps the others in their order. -/
theorem stride_sublist {β : Type} (step skip : Nat) (as : List β) :
    (stride step skip as).Sublist as := by
  induction as generalizing skip with
  | nil => simp [stride]
  | cons a as ih =>
    cases skip with
    | zero => exact (ih _).cons_cons a
    | succ skip => exact (ih _).cons a

namespace Assignment

/-- **No split is dealt to two workers.** -/
theorem disjoint_splitsOf {xs : List SplitId} (h : xs.Nodup) {n i j : Nat} (hi : i < n)
    (hj : j < n) (hij : i ≠ j) : (splitsOf xs n i).Disjoint (splitsOf xs n j) := by
  intro x hxi hxj
  have hn : 0 < max n 1 := by omega
  obtain ⟨k, hk⟩ := List.mem_iff_getElem?.1 hxi
  obtain ⟨l, hl⟩ := List.mem_iff_getElem?.1 hxj
  rw [splitsOf, getElem?_stride hn] at hk hl
  -- the same position of the list, counted from two workers
  obtain ⟨hlt, -⟩ := List.getElem?_eq_some_iff.1 hk
  have hpos : i + k * max n 1 = j + l * max n 1 :=
    (List.getElem?_inj hlt h).1 (hk.trans hl.symm)
  have hmod := congrArg (· % max n 1) hpos
  simp only [Nat.add_mul_mod_self_right] at hmod
  rw [Nat.mod_eq_of_lt (by omega), Nat.mod_eq_of_lt (by omega)] at hmod
  exact hij hmod

end Assignment

namespace Machine

@[simp] theorem length_workers_run (m : Machine σ) (es : List (Event α)) :
    (m.run p sink es).workers.length = m.workers.length :=
  run_induction (Q := fun m' => m'.workers.length = m.workers.length) es rfl
    (fun h _ _ => by simpa using h) (fun _ h => h) (fun _ _ h => h)

end Machine

namespace Ingestion

/-- A run from its start, after a list of events. -/
def run (g : Ingestion) (service : Service) (sink : Sink σ α) (x : σ) (es : List (Event α)) :
    Machine σ :=
  (g.start service x).run g.plan sink es

/-- What the checks before a run establish. -/
theorem ofSession_eq_ok (h : ofSession c s selected = .ok g) :
    0 < c.parallelism.toNat ∧ s.splits.Nodup ∧ g.plan.options = c.read ∧
      Layout.resolve selected s.schema = .ok g.plan.layout ∧
      Codec.forFormat s.format s.schema = .ok g.plan.codec ∧
      g.assignments = Assignment.all s.splits c.parallelism.toNat := by
  simp only [ofSession, bind, Except.bind, pure, Except.pure] at h
  split at h
  · cases h
  rename_i hc
  split at h
  · cases h
  rename_i hs
  split at h
  · cases h
  rename_i layout hl
  split at h
  · cases h
  rename_i codec hd
  cases h
  refine ⟨?_, Session.nodup_of_validateSplits hs, rfl, hl, hd, rfl⟩
  rw [EngineConfig.validate] at hc
  split at hc
  · cases hc
  · rename_i hp
    have : c.parallelism.toNat ≠ 0 := fun h0 => hp (UInt64.toNat_inj.1 (by simpa using h0))
    omega

/-- The splits of a worker, none for a number that no worker has. -/
def own (g : Ingestion) (i : Nat) : List SplitId :=
  match g.assignments[i]? with
  | some a => a.splits
  | none => []

theorem own_eq (h : ofSession c s selected = .ok g) {i : Nat} (hi : i < c.parallelism.toNat) :
    g.own i = Assignment.splitsOf s.splits c.parallelism.toNat i := by
  obtain ⟨hp, -, -, -, -, ha⟩ := ofSession_eq_ok h
  have : i < max c.parallelism.toNat 1 := by omega
  simp [own, ha, Assignment.all, this]

theorem own_eq_nil (h : ofSession c s selected = .ok g) {i : Nat}
    (hi : c.parallelism.toNat ≤ i) : g.own i = [] := by
  obtain ⟨hp, -, -, -, -, ha⟩ := ofSession_eq_ok h
  have : ¬ i < max c.parallelism.toNat 1 := by omega
  simp [own, ha, Assignment.all, this]

/-- **No split is owned by two workers.** -/
theorem disjoint_own (h : ofSession c s selected = .ok g) {i j : Nat} (hij : i ≠ j) :
    (g.own i).Disjoint (g.own j) := by
  obtain ⟨-, hn, -⟩ := ofSession_eq_ok h
  rcases Nat.lt_or_ge i c.parallelism.toNat with hi | hi
  · rcases Nat.lt_or_ge j c.parallelism.toNat with hj | hj
    · rw [own_eq h hi, own_eq h hj]
      exact Assignment.disjoint_splitsOf hn hi hj hij
    · simp [own_eq_nil h hj]
  · simp [own_eq_nil h hi]

/-- The splits of a worker are splits of the session, in its order. -/
theorem own_sublist (h : ofSession c s selected = .ok g) (i : Nat) :
    (g.own i).Sublist s.splits := by
  rcases Nat.lt_or_ge i c.parallelism.toNat with hi | hi
  · rw [own_eq h hi]
    exact stride_sublist _ _ _
  · rw [own_eq_nil h hi]
    exact List.nil_sublist _

/-- No split is owned twice by one worker. -/
theorem nodup_own (h : ofSession c s selected = .ok g) (i : Nat) : (g.own i).Nodup :=
  (ofSession_eq_ok h).2.1.sublist (own_sublist h i)

/-- A worker at its start. -/
theorem start_workers (h : ofSession c s selected = .ok g) (service : Service) (x : σ) {i : Nat}
    {w : Worker} (hw : (g.start service x).workers[i]? = some w) :
    i < c.parallelism.toNat ∧ w = Worker.start i (g.own i) := by
  obtain ⟨hp, -, -, -, -, ha⟩ := ofSession_eq_ok h
  simp only [start, ha, Assignment.all, List.map_map, List.getElem?_map,
    Option.map_eq_some_iff] at hw
  obtain ⟨j, hj, rfl⟩ := hw
  obtain ⟨hlt, rfl⟩ := List.getElem?_eq_some_iff.1 hj
  simp only [List.length_range, List.getElem_range] at hlt ⊢
  have hi : i < c.parallelism.toNat := by omega
  exact ⟨hi, by rw [own_eq h hi]; rfl⟩

theorem length_workers_start (h : ofSession c s selected = .ok g) (service : Service) (x : σ) :
    (g.start service x).workers.length = c.parallelism.toNat := by
  obtain ⟨hp, -, -, -, -, ha⟩ := ofSession_eq_ok h
  simp only [start, ha, Assignment.all, List.length_map, List.length_range]
  omega

@[simp] theorem length_workers_run (h : ofSession c s selected = .ok g) (service : Service)
    (sink : Sink σ α) (x : σ) (es : List (Event α)) :
    (g.run service sink x es).workers.length = c.parallelism.toNat := by
  rw [run, Machine.length_workers_run, length_workers_start h]

/-- Every worker starts with splits of its own. -/
theorem belongs_start (h : ofSession c s selected = .ok g) (service : Service) (x : σ) :
    (g.start service x).Each fun i w _ => w.Belongs i (g.own i) := by
  intro i w hw
  obtain ⟨-, rfl⟩ := start_workers h service x hw
  exact ⟨rfl, fun y hy => by simpa [Worker.inHand, Worker.start] using hy⟩

end Ingestion

/-! ## A session to try things on -/

namespace Sample

/-- A session of two splits, with one number in each row. -/
def session : Session := ⟨[⟨"a"⟩, ⟨"b"⟩], ⟨[⟨"id", .int64, false⟩]⟩, .avro⟩

/-- The run on it with two workers. -/
def ingestion : Ingestion :=
  { config := { parallelism := 2 }
    plan := ⟨{}, ⟨.avro, session.schema⟩, ⟨session.schema.fields, [0], 1⟩⟩
    assignments := Assignment.all session.splits 2 }

theorem ofSession_session : Ingestion.ofSession { parallelism := 2 } session [] = .ok ingestion :=
  rfl

/-- The run on it with one worker. -/
def solo : Ingestion :=
  { ingestion with
    config := { parallelism := 1 }
    assignments := Assignment.all session.splits 1 }

theorem ofSession_solo : Ingestion.ofSession { parallelism := 1 } session [] = .ok solo := rfl

/-- So many steps of the first worker. -/
def steps (n : Nat) : List (Event Empty) := List.replicate n (.step 0)

end Sample

end Intake
