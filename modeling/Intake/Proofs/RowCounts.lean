import Intake.Proofs.Progress
import Intake.Proofs.Resumption
import Intake.Proofs.Solo
/-!
# Row counts that lie

A batch tells its number of rows beside its bytes, and the reader adds this
number up before the bytes are looked at. In a run of one worker without
faults and cancellation, a number that is not that of the rows in the bytes
ends the run at that batch, with all batches in front delivered. The run
fails there, or, just when the sum of rows with the number of that batch
does not fit in 64 bits, it panics (`ends_by_row_counts`).
-/

namespace Intake

variable {σ α : Type} {p : Plan} {sink : Sink σ α} {sh sh' : Shared σ} {w w' : Worker}
variable {src : Service} {own : List SplitId} {x : SplitId} {k : Nat} {m : Machine σ}
variable {bs pre post : List Batch} {b : Batch} {got ys : List Record}

/-- The records in front of any place in the splits `own`, as far as they
can be decoded, are fewer than 64 bits count. -/
def Plan.Countable (p : Plan) (src : Service) (own : List SplitId) : Prop :=
  ∀ x ∈ own, ∀ pre post xs, src.script? x = some (pre ++ post) → p.decoded? pre = some xs →
    xs.length < UInt64.size

/-! ## Readers that meet no fault -/

namespace SplitReader

variable {o : ReadOptions} {r r' : SplitReader} {s s' s₁ : Service} {g : Signal}
variable {st : Stream} {e : TransportError}

/-- A reader that has met no fault, with the batches of its split in front
of it and behind it. -/
structure Walks (src : Service) (r : SplitReader) (pre post : List Batch) : Prop where
  script : src.script? r.split = some (pre ++ post)
  rows : r.rows.toNat = rowTotal pre
  fresh : r.stream = none → pre = []
  stream : ∀ st, r.stream = some st → st.remaining = post ∧ st.failAfter = none
  stage : r.stage = .ready ∨ r.stage = .fetching

theorem Walks.start (h : src.script? x = some bs) : Walks src { split := x } [] bs :=
  ⟨h, rfl, fun _ => rfl, nofun, .inl rfl⟩

/-- A call for the whole of a split without faults is answered with it. -/
theorem Walks.streamFor_eq (h : r.Walks src pre post) (hst : r.stream = none)
    (hs : s.scripts = src.scripts) (hf : s.faultsOf r.split = []) :
    s.streamFor (r.call o) (s.faultsOf r.split).head? = .ok ⟨r.split, post, 0, none⟩ := by
  obtain rfl := h.fresh hst
  have hrows : r.rows = 0 := UInt64.toNat_inj.1 h.rows
  have hskip : skipRows (r.call o).offset 0 post = ((r.call o).offset, post) := by
    change skipRows r.rows 0 post = (r.rows, post)
    rw [hrows]
    cases post <;> simp [skipRows]
  rw [hf]
  exact Service.streamFor_of_skipRows ((Service.script?_congr hs _).trans h.script) hskip none

theorem Walks.opens (h : r.Walks src pre post) (hs : s.scripts = src.scripts)
    (hf : s.faultsOf r.split = []) (ho : Opens o r s s₁ st) :
    st.remaining = post ∧ st.failAfter = none := by
  cases ho with
  | held hst => exact h.stream st hst
  | called hst hc =>
    obtain ⟨-, hfor⟩ := Service.read_eq hc
    cases (h.streamFor_eq hst hs hf).symm.trans hfor
    exact ⟨rfl, rfl⟩

theorem Walks.not_fails (h : r.Walks src pre post) (hs : s.scripts = src.scripts)
    (hf : s.faultsOf r.split = []) : ¬ Fails o r s s₁ e := by
  intro hfails
  cases hfails with
  | call hst hc =>
    obtain ⟨-, hfor⟩ := Service.read_eq hc
    cases (h.streamFor_eq hst hs hf).symm.trans hfor
  | stream ho hn =>
    obtain ⟨n, hfail⟩ := Stream.failAfter_of_next_error hn
    rw [(h.opens hs hf ho).2] at hfail
    cases hfail

/-- **What a reader does that meets no fault**, in a run that goes on: it
yields nothing and stays, yields the next batch, panics at one whose rows
cannot be added up, or ends behind the last. -/
theorem Walks.leads (h : r.Walks src pre post) (hs : s.scripts = src.scripts)
    (hf : s.faultsOf r.split = []) (hm : Moves o true r s r' s' g) :
    match g with
    | .working => r'.Walks src pre post
    | .batch b => ∃ post', post = b :: post' ∧ rowTotal pre + b.rowCount.toNat < UInt64.size ∧
        r'.Walks src (pre ++ [b]) post'
    | .panicked => ∃ b post', post = b :: post' ∧
        UInt64.size ≤ rowTotal pre + b.rowCount.toNat
    | .ended => r'.interrupted = false ∧ post = []
    | .failed _ => False := by
  cases hm with
  | through hr => rcases h.stage with hst | hst <;> simp [hst] at hr
  | look hr hrun => exact ⟨h.1, h.2, h.3, h.4, .inr rfl⟩
  | resume hr hrun => exact ⟨h.1, h.2, h.3, h.4, .inl rfl⟩
  | interrupt hr hrun => cases hrun
  | retry hr hfails ht hb => exact absurd hfails (h.not_fails hs hf)
  | fail hr hfails hb => exact absurd hfails (h.not_fails hs hf)
  | batch hr ho hn hfits =>
    obtain ⟨hremaining, hfail⟩ := h.opens hs hf ho
    obtain ⟨hnext, hfail'⟩ := Stream.next_eq_batch hn
    rw [hremaining] at hnext
    rw [CanCount, h.rows] at hfits
    refine ⟨_, hnext, hfits, ?_, ?_, (fun hst => by cases hst), ?_, .inl rfl⟩
    · rw [h.script, hnext]
      simp
    · simp only [rowTotal_append, rowTotal, Nat.add_zero, UInt64.size] at hfits ⊢
      rw [UInt64.toNat_add, h.rows, Nat.mod_eq_of_lt hfits]
    · intro st hst
      obtain rfl := Option.some.inj hst
      exact ⟨rfl, hfail'.trans hfail⟩
  | panic hr ho hn hover =>
    obtain ⟨hremaining, -⟩ := h.opens hs hf ho
    obtain ⟨hnext, -⟩ := Stream.next_eq_batch hn
    rw [hremaining] at hnext
    rw [CanCount, h.rows] at hover
    exact ⟨_, _, hnext, Nat.le_of_not_lt hover⟩
  | finish hr ho hn =>
    refine ⟨rfl, ?_⟩
    rw [← (h.opens hs hf ho).1, Stream.next_eq_end hn]

/-- A split without faults stays without. -/
theorem faultsOf_noting_eq_nil (hf : s.faultsOf x = []) : (r.noting o s).faultsOf x = [] := by
  by_cases hx : x = r.split
  · unfold noting
    split
    · subst hx
      exact (Service.faultsOf_note_self s (r.call o)).trans (congrArg List.tail hf)
    · exact hf
  · rw [faultsOf_noting_of_ne o s hx, hf]

end SplitReader

/-! ## Workers that meet no fault -/

/-- Reading the splits `own` breaks off at the first batch, in the order of
the splits and of their batches, that cannot be decoded, with all records
in front of it there: in a panic if the rows with this batch are more than
64 bits count, and with the failure `e` if not. -/
def BreaksOff (p : Plan) (src : Service) (own : List SplitId) (e : Failure) (got : List Record)
    (panicked : Bool) : Prop :=
  ∃ done x rest pre b post recs ys cause, own = done ++ x :: rest ∧
    p.contentsOf? src done = some recs ∧ src.script? x = some (pre ++ b :: post) ∧
    p.decoded? pre = some ys ∧ p.codec.decode p.layout b = .error cause ∧
    e = .decode x pre.length cause ∧ got = recs ++ ys ∧
    (panicked = true ↔ UInt64.size ≤ rowTotal pre + b.rowCount.toNat)

namespace Worker

variable {o : ReadOptions} {r r' : SplitReader} {s s' : Service}

theorem Moves.faultsOf_eq_nil (h : w.Moves p sink sh w' sh')
    (hf : sh.service.faultsOf x = []) : sh'.service.faultsOf x = [] := by
  rw [h.alike.faultsOf_eq x]
  unfold noting
  split
  · exact SplitReader.faultsOf_noting_eq_nil hf
  · exact hf

/-- A worker that has met no fault, behind `k` batches of the split in hand
and all splits before: all of these are decoded, to the records `got`. -/
def Along (p : Plan) (src : Service) (own : List SplitId) (w : Worker) (r : SplitReader) (k : Nat)
    (got : List Record) : Prop :=
  ∃ done recs pre post ys, own = done ++ r.split :: w.splits ∧
    p.contentsOf? src done = some recs ∧ r.Walks src pre post ∧ p.decoded? pre = some ys ∧
    got = recs ++ ys ∧ k = pre.length

/-- A worker takes up a split that the service knows. -/
theorem Along.start {done rest : List SplitId} (hown : own = done ++ x :: rest)
    (hrecs : p.contentsOf? src done = some got) (hknown : (src.script? x).isSome) :
    ({ w with splits := rest } : Worker).Along p src own { split := x } 0 got := by
  obtain ⟨bs, hbs⟩ := Option.isSome_iff_exists.1 hknown
  exact ⟨done, got, [], bs, [], hown, hrecs, .start hbs, rfl, by simp, rfl⟩

theorem Along.mem (h : w.Along p src own r k got) : r.split ∈ own := by
  obtain ⟨done, recs, pre, post, ys, rfl, -⟩ := h
  simp

theorem Along.working (h : w.Along p src own r k got) (hs : s.scripts = src.scripts)
    (hf : s.faultsOf r.split = []) (hm : r.Moves o true s r' s' .working) :
    w.Along p src own r' k got := by
  obtain ⟨done, recs, pre, post, ys, hown, hrecs, hwalks, hdec, hgot, hk⟩ := h
  rw [← hm.split_eq] at hown
  exact ⟨done, recs, pre, post, ys, hown, hrecs, hwalks.leads hs hf hm, hdec, hgot, hk⟩

/-- Behind a batch that is decoded the worker has its records. -/
theorem Along.batch (h : w.Along p src own r k got) (hs : s.scripts = src.scripts)
    (hf : s.faultsOf r.split = []) (hm : r.Moves o true s r' s' (.batch b))
    (hd : p.codec.decode p.layout b = .ok ys) : w.Along p src own r' (k + 1) (got ++ ys) := by
  obtain ⟨done, recs, pre, post, zs, hown, hrecs, hwalks, hdec, rfl, rfl⟩ := h
  obtain ⟨post', rfl, -, hwalks'⟩ := hwalks.leads hs hf hm
  rw [← hm.split_eq] at hown
  refine ⟨done, recs, pre ++ [b], post', zs ++ ys, hown, hrecs, hwalks',
    Plan.decoded?_concat hdec hd, ?_, ?_⟩
  · rw [List.append_assoc]
  · rw [List.length_append, List.length_singleton]

/-- A batch that cannot be decoded is where reading breaks off. -/
theorem Along.breaksOff {cause : DecodeError} (h : w.Along p src own r k got)
    (hs : s.scripts = src.scripts) (hf : s.faultsOf r.split = [])
    (hm : r.Moves o true s r' s' (.batch b)) (hd : p.codec.decode p.layout b = .error cause) :
    BreaksOff p src own (.decode r'.split k cause) got false := by
  obtain ⟨done, recs, pre, post, ys, hown, hrecs, hwalks, hdec, hgot, rfl⟩ := h
  obtain ⟨post', rfl, hlt, -⟩ := hwalks.leads hs hf hm
  exact ⟨done, r.split, w.splits, pre, b, post', recs, ys, cause, hown, hrecs, hwalks.script,
    hdec, hd, by rw [hm.split_eq], hgot, by simpa using hlt⟩

/-- **A batch whose rows cannot be added up cannot be decoded**, so that it
is where reading breaks off. -/
theorem Along.panicked (hc : p.Countable src own) (h : w.Along p src own r k got)
    (hs : s.scripts = src.scripts) (hf : s.faultsOf r.split = [])
    (hm : r.Moves o true s r' s' .panicked) : ∃ e, BreaksOff p src own e got true := by
  have hmem := h.mem
  obtain ⟨done, recs, pre, post, ys, hown, hrecs, hwalks, hdec, hgot, rfl⟩ := h
  obtain ⟨b, post', rfl, hover⟩ := hwalks.leads hs hf hm
  cases hd : p.codec.decode p.layout b with
  | error cause =>
    exact ⟨_, done, r.split, w.splits, pre, b, post', recs, ys, cause, hown, hrecs,
      hwalks.script, hdec, hd, rfl, hgot, by simpa using hover⟩
  | ok zs =>
    -- what is decoded has as many records as declared, so the sum is a count of records
    have hdec' := Plan.decoded?_concat hdec hd
    have hscript : src.script? r.split = some (pre ++ [b] ++ post') := by
      rw [hwalks.script, List.append_assoc]
      rfl
    have hlt := hc r.split hmem (pre ++ [b]) post' _ hscript hdec'
    rw [Plan.length_of_decoded? hdec', rowTotal_append, rowTotal, rowTotal, Nat.add_zero] at hlt
    omega

/-- Behind its last batch a split is through. -/
theorem Along.ended (h : w.Along p src own r k got) (hs : s.scripts = src.scripts)
    (hf : s.faultsOf r.split = []) (hm : r.Moves o true s r' s' .ended) :
    r'.interrupted = false ∧
      ∃ done, own = done ++ w.splits ∧ p.contentsOf? src done = some got := by
  obtain ⟨done, recs, pre, post, ys, hown, hrecs, hwalks, hdec, rfl, -⟩ := h
  obtain ⟨hi, rfl⟩ := hwalks.leads hs hf hm
  refine ⟨hi, done ++ [r.split], by simpa using hown, Plan.contentsOf?_concat hrecs ?_⟩
  rw [Plan.contents?, hwalks.script, Option.bind_some, List.append_nil, hdec]

/-- A reader that meets no fault does not fail. -/
theorem Along.not_failed {e : Failure} (h : w.Along p src own r k got)
    (hs : s.scripts = src.scripts) (hf : s.faultsOf r.split = []) :
    ¬ r.Moves o true s r' s' (.failed e) := by
  intro hm
  obtain ⟨done, recs, pre, post, ys, -, -, hwalks, -⟩ := h
  exact hwalks.leads hs hf hm

/-- How a worker leaves that has met no fault. -/
def Departs (p : Plan) (src : Service) (own : List SplitId) (result : Except Failure Report)
    (sh : Shared σ) : Prop :=
  match result with
  | .ok _ => sh.run = .running ∧ p.contentsOf? src own = some sh.records
  | .error e => sh.run = .failed ∧ BreaksOff p src own e sh.records false

/-- Where a worker stands that has met no fault, in a run that nobody
cancels: the records taken are all in front of it, and until a batch cannot
be decoded the run goes on. -/
def Fares (p : Plan) (src : Service) (own : List SplitId) (w : Worker) (sh : Shared σ) : Prop :=
  match w.stage with
  | .between => sh.run = .running ∧
      ∃ done, own = done ++ w.splits ∧ p.contentsOf? src done = some sh.records
  | .reading r k => sh.run = .running ∧ w.Along p src own r k sh.records
  | .emitting r k rest _ _ => sh.run = .running ∧ w.Along p src own r (k + 1) (sh.records ++ rest)
  | .refused _ => False
  | .failing e => sh.run = .running ∧ BreaksOff p src own e sh.records false
  | .leaving result => Departs p src own result sh
  | .left => ∃ i result, sh.results = [(i, result)] ∧ Departs p src own result sh
  | .panicked => ∃ e, BreaksOff p src own e sh.records true

/-- **A worker that meets no fault** fares on by its own steps. -/
theorem Fares.of_moves (hc : p.Countable src own) (hs : sink.Accepts)
    (hknown : ∀ x ∈ own, (src.script? x).isSome) (hscripts : sh.service.scripts = src.scripts)
    (hf : ∀ x ∈ own, sh.service.faultsOf x = []) (hres : w.stage ≠ .left → sh.results = [])
    (h : w.Fares p src own sh) (hm : w.Moves p sink sh w' sh') : w'.Fares p src own sh' := by
  have hgoes : sh.run = .running → sh.run.isRunning = true := fun h => by rw [h]; rfl
  unfold Fares at h
  cases hm with
  | through hw h' =>
    simp only [hw] at h
    obtain ⟨hrun, done, hown, hgot⟩ := h
    refine ⟨hrun, ?_⟩
    have hnil : w.splits = [] := h'.resolve_right (by rw [hrun]; decide)
    rw [hown, hnil, List.append_nil]
    exact hgot
  | take hw hx hrun =>
    simp only [hw] at h
    obtain ⟨hrun, done, hown, hgot⟩ := h
    rw [hx] at hown
    exact ⟨hrun, Along.start (w := w) hown hgot (hknown _ (by simp [hown]))⟩
  | read hw hr =>
    simp only [hw] at h
    obtain ⟨hrun, halong⟩ := h
    rw [hgoes hrun] at hr
    exact ⟨hrun, halong.working hscripts (hf _ halong.mem) hr⟩
  | decode hw hr hd =>
    simp only [hw] at h
    obtain ⟨hrun, halong⟩ := h
    rw [hgoes hrun] at hr
    exact ⟨hrun, halong.batch hscripts (hf _ halong.mem) hr hd⟩
  | undecoded hw hr hd =>
    simp only [hw] at h
    obtain ⟨hrun, halong⟩ := h
    rw [hgoes hrun] at hr
    exact ⟨hrun, halong.breaksOff hscripts (hf _ halong.mem) hr hd⟩
  | unread hw hr =>
    simp only [hw] at h
    obtain ⟨hrun, halong⟩ := h
    rw [hgoes hrun] at hr
    exact absurd hr (halong.not_failed hscripts (hf _ halong.mem))
  | interrupted hw hr hi =>
    simp only [hw] at h
    obtain ⟨hrun, halong⟩ := h
    rw [hgoes hrun] at hr
    rw [(halong.ended hscripts (hf _ halong.mem) hr).1] at hi
    cases hi
  | finish hw hr hi =>
    simp only [hw] at h
    obtain ⟨hrun, halong⟩ := h
    rw [hgoes hrun] at hr
    exact ⟨hrun, (halong.ended hscripts (hf _ halong.mem) hr).2⟩
  | panic hw hr =>
    simp only [hw] at h
    obtain ⟨hrun, halong⟩ := h
    rw [hgoes hrun] at hr
    exact halong.panicked hc hscripts (hf _ halong.mem) hr
  | emitted hw =>
    simp only [hw, List.append_nil] at h
    exact h
  | accept hw ho =>
    simp only [hw] at h
    refine ⟨h.1, ?_⟩
    rw [Shared.records_push, List.append_assoc]
    exact h.2
  | refuse hw ho =>
    obtain ⟨z, hz⟩ := hs sh.sink sh.run.isRunning w.report.worker _
    cases ho.symm.trans hz
  | cancel hw => simp [hw] at h
  | fail hw =>
    simp only [hw] at h
    refine ⟨?_, h.2⟩
    change sh.run.fail = .failed
    rw [h.1]
    rfl
  | leave hw =>
    simp only [hw] at h
    exact ⟨_, _, by rw [hres (by simp [hw])]; rfl, h⟩

/-- A worker that meets no fault calls for whole splits. -/
theorem Along.rows_eq_zero (h : w.Along p src own r k got) (hr : r.callsNext = true) :
    r.rows = 0 := by
  obtain ⟨done, recs, pre, post, ys, -, -, hwalks, -⟩ := h
  have hst : r.stream = none := by
    simp only [SplitReader.callsNext, Bool.and_eq_true, Option.isNone_iff_eq_none] at hr
    exact hr.2
  obtain rfl := hwalks.fresh hst
  exact UInt64.toNat_inj.1 hwalks.rows

/-- What holds of a worker, and of what is shared, when no fault is met. -/
structure Untroubled (p : Plan) (src : Service) (own : List SplitId) (w : Worker)
    (sh : Shared σ) : Prop where
  scripts : sh.service.scripts = src.scripts
  faults : ∀ x ∈ own, sh.service.faultsOf x = []
  results : w.stage ≠ .left → sh.results = []
  calls : ∃ made, sh.service.calls = src.calls ++ made ∧ ∀ c ∈ made, c.offset = 0
  fares : w.Fares p src own sh

theorem Untroubled.of_moves (hc : p.Countable src own) (hs : sink.Accepts)
    (hknown : ∀ x ∈ own, (src.script? x).isSome) (h : w.Untroubled p src own sh)
    (hm : w.Moves p sink sh w' sh') : w'.Untroubled p src own sh' := by
  refine ⟨hm.service_eq.1.trans h.scripts, fun x hx => hm.faultsOf_eq_nil (h.faults x hx),
    hm.results_eq_nil h.results, ?_,
    h.fares.of_moves hc hs hknown h.scripts h.faults h.results hm⟩
  obtain ⟨made, hmade, hzero⟩ := h.calls
  rcases hm.calls_eq with hcalls | ⟨r, k, hw, hr, hcalls⟩
  · exact ⟨made, hcalls.trans hmade, hzero⟩
  · have hfares := h.fares
    rw [Fares, hw] at hfares
    refine ⟨made ++ [r.call p.options], by rw [hcalls, hmade, List.append_assoc], ?_⟩
    intro c hmem
    rcases List.mem_append.1 hmem with hmem | hmem
    · exact hzero c hmem
    · rw [List.mem_singleton.1 hmem]
      exact hfares.2.rows_eq_zero hr

end Worker

/-! ## Runs that meet no fault -/

variable {c : EngineConfig} {t : Session} {selected : List String} {g : Ingestion}
variable {service : Service} {y : σ}

namespace Ingestion

/-- **The one worker of a run without faults** fares on until it is gone. -/
theorem exists_untroubled (hg : ofSession c t selected = .ok g) (hp : c.parallelism = 1)
    (hknown : ∀ x ∈ t.splits, (service.script? x).isSome)
    (hfaults : ∀ x ∈ t.splits, service.faultsOf x = []) (hc : g.plan.Countable service t.splits)
    (hs : sink.Accepts) (y : σ) {es : List (Event α)} (hcancel : .cancel ∉ es) :
    ∃ w, (g.run service sink y es).workers = [w] ∧
      w.Untroubled g.plan service t.splits (g.run service sink y es).shared := by
  refine Machine.run_solo (I := fun _ w sh => w.Untroubled g.plan service t.splits sh)
    (workers_solo hg hp service y) ?_ es (fun _ h hm => h.of_moves hc hs hknown hm)
    (fun _ h _ => h) (fun h => absurd h hcancel) fun a h => ⟨h.1, h.2, h.3, h.4, h.5⟩
  exact ⟨rfl, hfaults, fun _ => rfl, ⟨[], (List.append_nil _).symm, by simp⟩,
    rfl, [], rfl, rfl⟩

end Ingestion

/-- **Row counts that lie end a run at the first batch that cannot be
decoded.** A run of one worker over known splits without faults, into a
sink that takes every record, comes to its end. Unless it is cancelled, it
is then completed with the contents of all splits, or it broke off at the
first batch that cannot be decoded, with all records in front of it taken:
it has panicked if the rows this batch declares, added to those in front of
it in its split, are more than 64 bits count, and else has failed. No call
asks for rows behind others, so that the service adds up none. -/
theorem ends_by_row_counts (hg : Ingestion.ofSession c t selected = .ok g)
    (hp : c.parallelism = 1) (hknown : ∀ x ∈ t.splits, (service.script? x).isSome)
    (hfaults : ∀ x ∈ t.splits, service.faultsOf x = []) (hc : g.plan.Countable service t.splits)
    (hs : sink.Accepts) :
    (∀ f, Machine.IsFair 1 f →
      ∃ k, ((g.start service y).upTo g.plan sink f k).isOver = true) ∧
    ∀ es, .cancel ∉ es →
      let m := g.run service sink y es
      (∃ made, m.shared.service.calls = service.calls ++ made ∧ ∀ c ∈ made, c.offset = 0) ∧
      (m.isOver = true →
        (∃ summary, m.outcome? = some (.completed summary) ∧
          g.plan.contentsOf? service t.splits = some m.shared.records) ∨
        ∃ e, BreaksOff g.plan service t.splits e m.shared.records m.hasPanicked ∧
          m.outcome? = if m.hasPanicked then none else some (.failed e)) := by
  refine ⟨fun f hf => ?_, fun es hcancel => ?_⟩
  · refine Machine.exists_isOver hs ?_
    rw [Ingestion.length_workers_start hg, hp]
    exact hf
  · intro m
    obtain ⟨w, hw, h⟩ := Ingestion.exists_untroubled hg hp hknown hfaults hc hs y hcancel
    have hw : m.workers = [w] := hw
    refine ⟨h.calls, fun hover => ?_⟩
    have hgone : w.isGone = true := List.all_eq_true.1 hover w (by simp [hw])
    have hfares := h.fares
    rw [Worker.Fares] at hfares
    rcases Worker.stage_of_isGone hgone with hl | hl
    · rw [hl] at hfares
      have hleft : m.allLeft = true := by simp [Machine.allLeft, hw, Worker.hasLeft, hl]
      have hcalm : m.hasPanicked = false := by
        simp [Machine.hasPanicked, hw, Worker.hasPanicked, hl]
      obtain ⟨i, result, hres, hdeparts⟩ := hfares
      cases result with
      | ok rep =>
        obtain ⟨hrun, hgot⟩ := hdeparts
        refine .inl ⟨_, Machine.outcome?_eq_completed hleft ?_ ?_, hgot⟩
        · rw [hrun]
          rfl
        · rw [Shared.failure?, hres]
          rfl
      | error e =>
        obtain ⟨hrun, hbreaks⟩ := hdeparts
        refine .inr ⟨e, by rw [hcalm]; exact hbreaks, ?_⟩
        rw [hcalm]
        refine Machine.outcome?_eq_failed hleft ?_ ?_
        · rw [hrun]
          rfl
        · rw [Shared.failure?, hres]
          rfl
    · rw [hl] at hfares
      have hpanicked : m.hasPanicked = true := by
        simp [Machine.hasPanicked, hw, Worker.hasPanicked, hl]
      obtain ⟨e, hbreaks⟩ := hfares
      refine .inr ⟨e, by rw [hpanicked]; exact hbreaks, ?_⟩
      rw [hpanicked, Machine.outcome?, Machine.allLeft_eq, hpanicked]
      simp

namespace Sample

/-- A batch of one row that declares it, and one that declares as many rows
as 64 bits count. -/
def lying : Service :=
  { scripts := [(⟨"a"⟩, [⟨.avro, 1, [10]⟩, ⟨.avro, 18446744073709551615, [12]⟩]), (⟨"b"⟩, [])] }

theorem countable_lying : solo.plan.Countable lying session.splits := by
  intro x hx pre post xs hs hd
  rw [Plan.length_of_decoded? hd]
  rcases List.mem_cons.1 hx with rfl | hx
  · have hpre : pre <+: [⟨.avro, 1, [10]⟩] :=
      Plan.begins_of_decoded? (e := ⟨.rowsMissing 18446744073709551615 1, some 1⟩) hd
        ⟨post, (Option.some.inj hs).symm⟩ (by decide +kernel)
    obtain ⟨more, hmore⟩ := hpre
    have htotal : rowTotal pre + rowTotal more = 1 := by
      rw [← rowTotal_append, hmore]
      rfl
    rw [UInt64.size]
    omega
  · obtain rfl := List.mem_singleton.1 hx
    obtain ⟨rfl, -⟩ := List.append_eq_nil_iff.1 (Option.some.inj hs).symm
    decide

end Sample

/-- The sum of the first two numbers of rows goes beyond 64 bits: the run
panics at the second batch, with the record of the first taken. -/
theorem ends_by_row_counts_beyond_words :
    let m := Sample.solo.run Sample.lying Sink.collecting () (Sample.steps 12)
    m.isOver = true ∧ m.hasPanicked = true ∧ m.outcome? = none ∧
      m.shared.records = [⟨[.int64 5]⟩] ∧
      ∃ e, BreaksOff Sample.solo.plan Sample.lying Sample.session.splits e m.shared.records
        m.hasPanicked := by
  intro m
  have hover : m.isOver = true := by decide +kernel
  have hpanicked : m.hasPanicked = true := by decide +kernel
  have hend := ((@ends_by_row_counts _ _ Sink.collecting _ _ _ _ Sample.lying ()
    Sample.ofSession_solo rfl (by decide +kernel) (by decide +kernel) Sample.countable_lying
    fun y running i x => ⟨(), rfl⟩).2 (Sample.steps 12) (by decide +kernel)).2 hover
  have hnone : m.outcome? = none := by rw [Machine.outcome?, Machine.allLeft_eq, hpanicked]; simp
  refine ⟨hover, hpanicked, hnone, by decide +kernel, ?_⟩
  rcases hend with ⟨summary, hcompleted, -⟩ | ⟨e, hbreaks, -⟩
  · cases hnone.symm.trans hcompleted
  · exact ⟨e, hbreaks⟩

end Intake
