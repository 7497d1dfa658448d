import Intake.Metrics
import Mathlib.Data.List.Induction
import Mathlib.Data.List.Infix
import Mathlib.Data.List.Nodup
import Mathlib.Logic.Function.Basic
/-!
# What a collector holds

A collector is changed by registering a metric, by setting a counter and by
copying the counters of a run, which write a reading under a name whatever
stood there, and by incrementing a counter, which goes on from what stood
there. So two things in the list of changes tell the value of a name: the
reading that was written last under it, and what was added since
(`valueOf?`). What one change does to the reading of a name is said once
(`reading?_apply`), and a run follows it change by change (`reading?_run`).
Main statement: a collector that is changed through handles, a clone of a
handle reaching the same collector, has the values that its changes tell,
for exactly the names that they are about (`snapshot_faithful`).
-/

namespace Intake

namespace Collector

variable {c : Collector} {m : Metric} {ms : List Metric} {name : String} {n : UInt64}
variable {r : Reading}

/-! ## Metrics by name -/

/-- The reading under a name. -/
def reading? (c : Collector) (name : String) : Option Reading := (c.get? name).map Metric.reading

/-- The count that an increment goes on from: nothing where there is a gauge
or no metric at all. -/
def base : Option Reading → UInt64
  | some (.counter n) => n
  | _ => 0

theorem count_eq_base (c : Collector) (name : String) : c.count name = base (c.reading? name) := by
  rw [count, reading?]
  rcases (c.get? name).map Metric.reading with _ | _ | _ <;> rfl

/-- No two metrics of a collector have one name. -/
def Distinct (c : Collector) : Prop := (c.metrics.map Metric.name).Nodup

theorem elapsed_register (c : Collector) (m : Metric) : (c.register m).elapsed = c.elapsed := rfl

theorem Distinct.register (h : c.Distinct) (m : Metric) : (c.register m).Distinct := by
  unfold Distinct Collector.register
  rw [List.map_append, List.nodup_append]
  refine ⟨h.sublist (List.filter_sublist.map _), List.nodup_singleton _, ?_⟩
  intro s hs t ht
  obtain ⟨k, hk, rfl⟩ := List.mem_map.1 hs
  obtain rfl := List.mem_singleton.1 ht
  simpa using (List.mem_filter.1 hk).2

/-- Among distinct metrics, each is found under its name. -/
theorem Distinct.get?_eq_some_iff (h : c.Distinct) :
    c.get? name = some m ↔ m ∈ c.metrics ∧ m.name = name := by
  constructor
  · intro hm
    exact ⟨List.mem_of_find?_eq_some hm, by simpa using List.find?_some hm⟩
  · rintro ⟨hm, rfl⟩
    have hsome : (c.get? m.name).isSome := List.find?_isSome.2 ⟨m, hm, by simp⟩
    obtain ⟨k, hk⟩ := Option.isSome_iff_exists.1 hsome
    have hname : k.name = m.name := by simpa using List.find?_some hk
    rw [hk, List.inj_on_of_nodup_map h (List.mem_of_find?_eq_some hk) hm hname]

/-- **A snapshot tells the readings**, each name once. -/
theorem Distinct.exists_snapshot (h : c.Distinct) :
    ∃ entries, c.snapshot = .record entries ∧ (entries.map Prod.fst).Nodup ∧
      ∀ name v, (name, v) ∈ entries ↔ (c.reading? name).map Reading.toJson = some v := by
  have hperm : c.sorted.Perm c.metrics := List.mergeSort_perm _ _
  refine ⟨_, rfl, ?_, fun name v => ?_⟩
  · rw [List.map_map]
    exact (hperm.map _).nodup_iff.2 h
  · simp only [List.mem_map, hperm.mem_iff, Prod.mk.injEq, reading?, Option.map_map,
      Option.map_eq_some_iff, h.get?_eq_some_iff, and_assoc, Function.comp_apply]

/-- Metrics that are registered one after the other are found under their
names, and hide nothing else. -/
theorem get?_foldl_register (hn : (ms.map Metric.name).Nodup) (c : Collector) (name : String) :
    (ms.foldl register c).get? name = (ms.find? fun m => m.name == name).or (c.get? name) := by
  induction ms generalizing c with
  | nil => rfl
  | cons m ms ih =>
    obtain ⟨hm, hms⟩ := List.nodup_cons.1 hn
    rw [List.foldl_cons, ih hms]
    by_cases hname : m.name = name
    · subst hname
      have hnone : (ms.find? fun k => k.name == m.name) = none :=
        List.find?_eq_none.2 fun k hk he => hm (List.mem_map.2 ⟨k, hk, by simpa using he⟩)
      rw [hnone, Option.none_or, get?_register_self, List.find?_cons_of_pos (by simp),
        Option.some_or]
    · rw [get?_register_of_ne c (Ne.symm hname), List.find?_cons_of_neg (by simpa using hname)]

/-- The counters of a run have names of their own. -/
theorem nodup_ofCounters (k : Counters) : ((ofCounters k).map Metric.name).Nodup := by
  change ["rows_emitted", "batches_decoded", "bytes_received", "read_retries",
    "splits_completed"].Nodup
  decide

/-- The count of rows is what the metrics of a run say of it. -/
theorem count_addCounters (c : Collector) (k : Counters) :
    (c.addCounters k).count "rows_emitted" = k.rows := by
  have hget : ((ofCounters k).foldl register c).get? "rows_emitted" =
      some ⟨"rows_emitted", .counter k.rows, some "Records delivered to the sink"⟩ :=
    get?_foldl_register (nodup_ofCounters k) c "rows_emitted"
  have hrate : ∀ (c : Collector) t, (c.register (rate k t)).get? "rows_emitted" =
      c.get? "rows_emitted" := fun c t => get?_register_of_ne c (by simp [rate])
  rw [addCounters]
  split
  · rw [count, hget]
    rfl
  · rw [count, hget]
    rfl
  · rw [count, hrate, hget]
    rfl

/-! ## Changes -/

/-- What is done to a collector. -/
inductive Change where
  | register (m : Metric)
  | increment (name : String) (n : UInt64)
  | set (name : String) (n : UInt64)
  /-- the counters of a run are copied -/
  | copy (counters : Counters)

/-- A collector after a change. -/
def apply (c : Collector) : Change → Collector
  | .register m => c.register m
  | .increment name n => c.increment name n
  | .set name n => c.set name n
  | .copy counters => c.addCounters counters

/-- A collector after changes, one after the other. -/
def run (c : Collector) (es : List Change) : Collector := es.foldl apply c

namespace Change

variable {e : Change}

/-- The metrics that a change writes, whatever was there. -/
def writes : Change → List Metric
  | .register m => [m]
  | .set name n => [⟨name, .counter n, none⟩]
  | .copy counters => ofCounters counters
  | .increment _ _ => []

/-- The reading that a change writes under a name. -/
def written? (name : String) (e : Change) : Option Reading :=
  (e.writes.find? fun m => m.name == name).map Metric.reading

/-- What a change adds to the counter of a name. -/
def added? (name : String) : Change → Option UInt64
  | .increment s n => if s = name then some n else none
  | _ => none

/-- The names that a change is about. -/
def names : Change → List String
  | .increment name _ => [name]
  | e => e.writes.map Metric.name

/-- Only an increment adds to a counter. -/
theorem eq_increment_of_added? (h : e.added? name = some n) : e = .increment name n := by
  cases e with
  | increment s k =>
    obtain ⟨rfl, rfl⟩ : s = name ∧ k = n := by simpa [added?] using h
    rfl
  | _ => cases h

theorem isSome_written?_iff : (e.written? name).isSome ↔ ∃ m ∈ e.writes, m.name = name := by
  simp [written?]

/-- A change is about the names that it writes or adds to. -/
theorem mem_names_iff :
    name ∈ e.names ↔ (e.written? name).isSome ∨ (e.added? name).isSome := by
  rw [isSome_written?_iff]
  cases e with
  | increment s k =>
    by_cases hs : s = name
    · simp [names, writes, added?, hs]
    · simp [names, writes, added?, hs, Ne.symm hs]
  | _ => simp [names, added?]

theorem nodup_writes (e : Change) : (e.writes.map Metric.name).Nodup := by
  cases e with
  | increment s k => exact List.nodup_nil
  | copy counters => exact nodup_ofCounters counters
  | _ => exact List.nodup_singleton _

end Change

section

variable {e : Change} {es post : List Change}

/-- A collector without a time takes over what a change writes. -/
theorem apply_eq_writes (hc : c.elapsed = none) (he : ∀ s k, e ≠ .increment s k) :
    c.apply e = e.writes.foldl register c := by
  cases e with
  | increment s k => exact absurd rfl (he s k)
  | copy counters =>
    have helapsed : ((ofCounters counters).foldl register c).elapsed = none := hc
    rw [apply, addCounters, helapsed]
    rfl
  | _ => rfl

/-- A change does not touch the times. -/
theorem elapsed_apply (hc : c.elapsed = none) (e : Change) : (c.apply e).elapsed = none := by
  by_cases he : ∀ s k, e ≠ .increment s k
  · rw [apply_eq_writes hc he]
    exact List.foldlRecOn (motive := fun d => d.elapsed = none) e.writes register hc
      fun d h m _ => (elapsed_register d m).trans h
  · push Not at he
    obtain ⟨s, k, rfl⟩ := he
    exact hc

theorem Distinct.apply (h : c.Distinct) (hc : c.elapsed = none) (e : Change) :
    (c.apply e).Distinct := by
  by_cases he : ∀ s k, e ≠ .increment s k
  · rw [apply_eq_writes hc he]
    exact List.foldlRecOn e.writes Collector.register h fun _ h m _ => h.register m
  · push Not at he
    obtain ⟨s, k, rfl⟩ := he
    exact h.register _

/-- **What a change does to the reading of a name**: it writes one, counts on
from what stands there, or leaves the metric alone. -/
theorem reading?_apply (hc : c.elapsed = none) (name : String) (e : Change) :
    (∀ r, e.written? name = some r → (c.apply e).reading? name = some r) ∧
      (∀ n, e.added? name = some n →
        (c.apply e).reading? name = some (.counter (base (c.reading? name) + n))) ∧
      (name ∉ e.names → (c.apply e).get? name = c.get? name) := by
  by_cases he : ∀ s k, e ≠ .increment s k
  · have hget := get?_foldl_register e.nodup_writes c name
    rw [← apply_eq_writes hc he] at hget
    refine ⟨fun r hr => ?_, fun n hn => ?_, fun h => ?_⟩
    · obtain ⟨m, hm, rfl⟩ := Option.map_eq_some_iff.1 hr
      rw [reading?, hget, hm]
      rfl
    · obtain rfl := Change.eq_increment_of_added? hn
      exact absurd rfl (he name n)
    · have hnone : e.written? name = none :=
        Option.not_isSome_iff_eq_none.1 fun hw => h (Change.mem_names_iff.2 (.inl hw))
      rw [hget, Option.map_eq_none_iff.1 hnone, Option.none_or]
  · push Not at he
    obtain ⟨s, k, rfl⟩ := he
    refine ⟨nofun, fun n hn => ?_, fun h => ?_⟩
    · obtain ⟨rfl, rfl⟩ := Change.increment.inj (Change.eq_increment_of_added? hn)
      rw [← count_eq_base]
      exact congrArg (Option.map Metric.reading) (get?_register_self c ⟨s, _, none⟩)
    · exact get?_register_of_ne c (m := ⟨s, _, none⟩) (List.ne_of_not_mem_cons h)

/-! ## What changes tell -/

/-- The changes behind the last one that writes under a name. -/
def since (name : String) (es : List Change) : List Change :=
  (es.reverse.takeWhile fun e => (e.written? name).isNone).reverse

/-- The reading that was written last under a name. -/
def lastWritten? (name : String) (es : List Change) : Option Reading :=
  es.reverse.findSome? fun e => e.written? name

/-- What changes add to the counter of a name, all in all. -/
def totalAdded (name : String) : List Change → Nat
  | [] => 0
  | e :: es => ((e.added? name).getD 0).toNat + totalAdded name es

/-- The total of a counter: the count that was written last, which is nothing
for a gauge or where none was, and what was added since. -/
def totalOf (name : String) (es : List Change) : Nat :=
  (base (lastWritten? name es)).toNat + totalAdded name (since name es)

/-- **The value of a name**: without an increment since something was written
under it, what was written; with one, the total. -/
def valueOf? (name : String) (es : List Change) : Option Json :=
  if ∃ e ∈ since name es, (e.added? name).isSome then some (.nat (totalOf name es))
  else (lastWritten? name es).map Reading.toJson

/-- The totals of counters stay within 64 bits at every moment. -/
def Fits (es : List Change) : Prop :=
  ∀ pre ∈ es.inits, ∀ e ∈ pre, ∀ name ∈ e.names, totalOf name pre < UInt64.size

instance (es : List Change) : Decidable (Fits es) :=
  inferInstanceAs (Decidable (∀ pre ∈ es.inits, ∀ e ∈ pre, ∀ name ∈ e.names,
    totalOf name pre < UInt64.size))

theorem totalAdded_concat (name : String) (es : List Change) (e : Change) :
    totalAdded name (es ++ [e]) = totalAdded name es + ((e.added? name).getD 0).toNat := by
  induction es with
  | nil => simp [totalAdded]
  | cons d es ih => rw [List.cons_append, totalAdded, totalAdded, ih, Nat.add_assoc]

theorem totalAdded_eq_zero (h : ¬ ∃ e ∈ es, (e.added? name).isSome) : totalAdded name es = 0 := by
  induction es with
  | nil => rfl
  | cons e es ih =>
    have he : e.added? name = none := by
      by_contra hne
      exact h ⟨e, List.mem_cons_self, Option.isSome_iff_ne_none.2 hne⟩
    have hes : ¬ ∃ e ∈ es, (e.added? name).isSome :=
      fun ⟨d, hd, hsome⟩ => h ⟨d, List.mem_cons_of_mem _ hd, hsome⟩
    rw [totalAdded, he, ih hes]
    rfl

theorem since_concat_of_written (h : e.written? name = some r) (es : List Change) :
    since name (es ++ [e]) = [] ∧ lastWritten? name (es ++ [e]) = some r := by
  simp [since, lastWritten?, h]

theorem since_concat (h : e.written? name = none) (es : List Change) :
    since name (es ++ [e]) = since name es ++ [e] ∧
      lastWritten? name (es ++ [e]) = lastWritten? name es := by
  simp [since, lastWritten?, h]

/-- The reading that changes leave under a name, counts being taken modulo
`2 ^ 64`. -/
def standing? (name : String) (es : List Change) : Option Reading :=
  if ∃ e ∈ since name es, (e.added? name).isSome then
    some (.counter (.ofNat (totalOf name es)))
  else lastWritten? name es

/-- An increment goes on from the total. -/
theorem base_standing? (name : String) (es : List Change) :
    base (standing? name es) = .ofNat (totalOf name es) := by
  rw [standing?]
  by_cases h : ∃ e ∈ since name es, (e.added? name).isSome
  · rw [if_pos h, base]
  · rw [if_neg h, totalOf, totalAdded_eq_zero h, Nat.add_zero, UInt64.ofNat_toNat]

theorem standing?_of_written (h : e.written? name = some r) (es : List Change) :
    standing? name (es ++ [e]) = some r := by
  obtain ⟨hsince, hlast⟩ := since_concat_of_written h es
  rw [standing?, hsince, if_neg (by simp), hlast]

/-- An increment adds to the total. -/
theorem totalOf_of_added (h : e.added? name = some n) (es : List Change) :
    totalOf name (es ++ [e]) = totalOf name es + n.toNat := by
  obtain rfl := Change.eq_increment_of_added? h
  have hnone : (Change.increment name n).written? name = none := rfl
  obtain ⟨hsince, hlast⟩ := since_concat hnone es
  rw [totalOf, totalOf, hsince, hlast, totalAdded_concat, h, Option.getD_some, Nat.add_assoc]

theorem standing?_of_added (h : e.added? name = some n) (es : List Change) :
    standing? name (es ++ [e]) = some (.counter (base (standing? name es) + n)) := by
  have hsince : since name (es ++ [e]) = since name es ++ [e] := by
    obtain rfl := Change.eq_increment_of_added? h
    exact (since_concat rfl es).1
  have hadded : ∃ d ∈ since name (es ++ [e]), (d.added? name).isSome :=
    ⟨e, by simp [hsince], by simp [h]⟩
  rw [standing?, if_pos hadded, totalOf_of_added h, base_standing?, UInt64.ofNat_add,
    UInt64.ofNat_toNat]

theorem standing?_of_not_mem (h : name ∉ e.names) (es : List Change) :
    standing? name (es ++ [e]) = standing? name es := by
  rw [Change.mem_names_iff, not_or, Option.not_isSome_iff_eq_none,
    Option.not_isSome_iff_eq_none] at h
  obtain ⟨hsince, hlast⟩ := since_concat h.1 es
  have hadded : (∃ d ∈ since name (es ++ [e]), (d.added? name).isSome) ↔
      ∃ d ∈ since name es, (d.added? name).isSome := by
    simp [hsince, h.2, or_and_right, exists_or]
  have htotal : totalOf name (es ++ [e]) = totalOf name es := by
    rw [totalOf, totalOf, hsince, hlast, totalAdded_concat, h.2, Option.getD_none,
      UInt64.toNat_zero, Nat.add_zero]
  simp only [standing?, hadded, htotal, hlast]

/-- A reading stands under the names that changes are about. -/
theorem isSome_standing?_iff (name : String) (es : List Change) :
    (standing? name es).isSome ↔ ∃ e ∈ es, name ∈ e.names := by
  induction es using List.reverseRecOn with
  | nil => simp [standing?, since, lastWritten?]
  | append_singleton es e ih =>
    by_cases h : name ∈ e.names
    · refine iff_of_true ?_ ⟨e, by simp, h⟩
      rcases Change.mem_names_iff.1 h with hw | ha
      · obtain ⟨r, hr⟩ := Option.isSome_iff_exists.1 hw
        rw [standing?_of_written hr]
        rfl
      · obtain ⟨n, hn⟩ := Option.isSome_iff_exists.1 ha
        rw [standing?_of_added hn]
        rfl
    · rw [standing?_of_not_mem h, ih]
      simp [h, or_and_right, exists_or]

/-- Within 64 bits, the value that changes tell is that of the reading they
leave. -/
theorem map_standing? (h : Fits es) (name : String) :
    (standing? name es).map Reading.toJson = valueOf? name es := by
  rw [standing?, valueOf?]
  by_cases hadded : ∃ e ∈ since name es, (e.added? name).isSome
  · obtain ⟨e, he, hsome⟩ := hadded
    have hmem : e ∈ es :=
      List.mem_reverse.1 ((List.takeWhile_sublist _).subset (List.mem_reverse.1 he))
    have hlt := h es ((List.mem_inits _ _).2 List.prefix_rfl) e hmem name
      (Change.mem_names_iff.2 (.inr hsome))
    rw [if_pos ⟨e, he, hsome⟩, if_pos ⟨e, he, hsome⟩, Option.map_some, Reading.toJson,
      UInt64.toNat_ofNat_of_lt' hlt]
  · rw [if_neg hadded, if_neg hadded]

/-! ## Runs of changes -/

theorem run_concat (c : Collector) (es : List Change) (e : Change) :
    c.run (es ++ [e]) = (c.run es).apply e := by
  rw [run, run, List.foldl_append, List.foldl_cons, List.foldl_nil]

theorem elapsed_run (hc : c.elapsed = none) (es : List Change) : (c.run es).elapsed = none :=
  List.foldlRecOn (motive := fun d => d.elapsed = none) es apply hc
    fun _ h e _ => elapsed_apply h e

theorem Distinct.run (h : c.Distinct) (hc : c.elapsed = none) (es : List Change) :
    (c.run es).Distinct :=
  (List.foldlRecOn (motive := fun d => d.Distinct ∧ d.elapsed = none) es Collector.apply ⟨h, hc⟩
    fun _ h e _ => ⟨h.1.apply h.2 e, elapsed_apply h.2 e⟩).1

/-- **Changes leave the readings that they tell** in a collector that was
empty. -/
theorem reading?_run (hm : c.metrics = []) (hc : c.elapsed = none) (es : List Change)
    (name : String) : (c.run es).reading? name = standing? name es := by
  induction es using List.reverseRecOn with
  | nil =>
    change (c.metrics.find? _).map Metric.reading = none
    rw [hm]
    rfl
  | append_singleton es e ih =>
    obtain ⟨hwritten, hadded, hsame⟩ := reading?_apply (elapsed_run hc es) name e
    rw [run_concat]
    by_cases h : name ∈ e.names
    · rcases Change.mem_names_iff.1 h with hw | ha
      · obtain ⟨r, hr⟩ := Option.isSome_iff_exists.1 hw
        rw [hwritten r hr, standing?_of_written hr]
      · obtain ⟨n, hn⟩ := Option.isSome_iff_exists.1 ha
        rw [hadded n hn, standing?_of_added hn, ih]
    · rw [reading?, hsame h, standing?_of_not_mem h]
      exact ih

end

/-! ## Handles -/

section

variable {Handle Storage : Type} [DecidableEq Storage]

/-- A change made through a handle changes the collector that the handle
reaches. Handles that reach one collector are clones of each other. -/
def change (reach : Handle → Storage) (cs : Storage → Collector) (e : Handle × Change) :
    Storage → Collector :=
  Function.update cs (reach e.1) ((cs (reach e.1)).apply e.2)

/-- The changes made through a handle and its clones. -/
def changesOf (reach : Handle → Storage) (h : Handle) (es : List (Handle × Change)) :
    List Change :=
  (es.filter fun e => reach e.1 = reach h).map Prod.snd

/-- **A collector sees the changes made through its handles**, and no others. -/
theorem foldl_change (reach : Handle → Storage) (h : Handle) (es : List (Handle × Change))
    (cs : Storage → Collector) :
    es.foldl (change reach) cs (reach h) = (cs (reach h)).run (changesOf reach h es) := by
  induction es generalizing cs with
  | nil => rfl
  | cons e es ih =>
    rw [List.foldl_cons, ih]
    by_cases he : reach e.1 = reach h
    · rw [changesOf, changesOf, List.filter_cons_of_pos (by simpa using he), List.map_cons, change,
        ← he, Function.update_self]
      rfl
    · rw [changesOf, changesOf, List.filter_cons_of_neg (by simpa using he), change,
        Function.update_of_ne (Ne.symm he)]

/-- **A collector tells what was done to it.** Collectors are changed through
handles, one change after the other. One that was empty and without a time,
whose counters stay within 64 bits, has an entry in its snapshot for exactly
the names that the changes made through its handles are about. The value of a
name is the reading last written under it, or once there was an increment
since, the sum of these increments and of that reading, if it was a counter.
No increment leaves 64 bits, and a change leaves alone the metrics of all names
that it is not about. -/
theorem snapshot_faithful (reach : Handle → Storage) (start : Storage → Collector)
    (es : List (Handle × Change)) (h : Handle) (hempty : (start (reach h)).metrics = [])
    (htime : (start (reach h)).elapsed = none) (hfits : Fits (changesOf reach h es)) :
    let c := es.foldl (change reach) start (reach h)
    (∃ entries, c.snapshot = .record entries ∧ (entries.map Prod.fst).Nodup ∧
        (∀ name, name ∈ entries.map Prod.fst ↔ ∃ e ∈ changesOf reach h es, name ∈ e.names) ∧
        ∀ name v, (name, v) ∈ entries ↔ valueOf? name (changesOf reach h es) = some v) ∧
      (∀ pre name n, pre ++ [.increment name n] <+: changesOf reach h es →
        (((start (reach h)).run pre).count name).toNat + n.toNat < UInt64.size) ∧
      ∀ e name, name ∉ e.names → (c.apply e).get? name = c.get? name := by
  intro c
  have hc : c = (start (reach h)).run (changesOf reach h es) := foldl_change reach h es start
  have hnone : c.elapsed = none := hc ▸ elapsed_run htime _
  have hdistinct : c.Distinct := by
    have hstart : (start (reach h)).Distinct := by simp [Distinct, hempty]
    exact hc ▸ hstart.run htime _
  have hreading : ∀ name, c.reading? name = standing? name (changesOf reach h es) :=
    fun name => hc ▸ reading?_run hempty htime _ name
  refine ⟨?_, fun pre name n hpre => ?_, fun e name => (reading?_apply hnone name e).2.2⟩
  · obtain ⟨entries, hsnapshot, hnodup, hentries⟩ := hdistinct.exists_snapshot
    refine ⟨entries, hsnapshot, hnodup, fun name => ?_, fun name v => ?_⟩
    · rw [← isSome_standing?_iff, ← hreading]
      constructor
      · intro hmem
        obtain ⟨⟨s, v⟩, hv, rfl⟩ := List.mem_map.1 hmem
        obtain ⟨r, hr, -⟩ := Option.map_eq_some_iff.1 ((hentries _ _).1 hv)
        rw [hr]
        rfl
      · intro hsome
        obtain ⟨r, hr⟩ := Option.isSome_iff_exists.1 hsome
        exact List.mem_map.2 ⟨(name, r.toJson), (hentries _ _).2 (by rw [hr]; rfl), rfl⟩
    · rw [hentries, hreading, map_standing? hfits]
  · have hcount : ((start (reach h)).run pre).count name = .ofNat (totalOf name pre) := by
      rw [count_eq_base, reading?_run hempty htime, base_standing?]
    have htotal := hfits _ ((List.mem_inits _ _).2 hpre) (.increment name n) (by simp) name
      List.mem_cons_self
    rw [totalOf_of_added (n := n) (by simp [Change.added?])] at htotal
    rw [hcount, UInt64.toNat_ofNat_of_lt' (by omega)]
    exact htotal

end

end Collector

namespace Sample

/-- The first two handles are clones, the third is one of another collector. -/
def reach (h : Fin 3) : Bool := h = 2

/-- A gauge that is incremented through the clone, a counter of a run that
goes on, and a counter that comes up to its limit. -/
def changes : List (Fin 3 × Collector.Change) :=
  [(0, .register ⟨"depth", .gauge ⟨0x3FF8000000000000⟩, some "a reading"⟩),
    (1, .increment "depth" 2), (2, .set "depth" 9), (0, .copy { rows := 3 }),
    (1, .increment "rows_emitted" 4), (0, .increment "turns" 1),
    (1, .increment "turns" 18446744073709551614)]

end Sample

/-- The gauge counts as nothing, and the other collector is another. -/
theorem Collector.snapshot_of_clones :
    Collector.Fits (Collector.changesOf Sample.reach 0 Sample.changes) ∧
      ∃ entries,
        (Sample.changes.foldl (Collector.change Sample.reach) (fun _ => {}) false).snapshot =
          .record entries ∧
        ("depth", .nat 2) ∈ entries ∧ ("rows_emitted", .nat 7) ∈ entries ∧
        ("turns", .nat 18446744073709551615) ∈ entries ∧ "misses" ∉ entries.map Prod.fst := by
  have hfits : Collector.Fits (Collector.changesOf Sample.reach 0 Sample.changes) := by
    decide +kernel
  obtain ⟨⟨entries, hsnapshot, -, hnames, hvalues⟩, -⟩ :=
    Collector.snapshot_faithful Sample.reach (fun _ => {}) Sample.changes 0 rfl rfl hfits
  refine ⟨hfits, entries, hsnapshot, (hvalues _ _).2 ?_, (hvalues _ _).2 ?_, (hvalues _ _).2 ?_,
    fun hmem => ?_⟩
  · decide +kernel
  · decide +kernel
  · decide +kernel
  · have hnone : ¬ ∃ e ∈ Collector.changesOf Sample.reach 0 Sample.changes, "misses" ∈ e.names := by
      decide +kernel
    exact hnone ((hnames _).1 hmem)

end Intake
