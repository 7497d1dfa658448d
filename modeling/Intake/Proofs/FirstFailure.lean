import Intake.Proofs.Budget
import Intake.Proofs.Solo
/-!
# Where a sequential run fails

A run of one worker goes through the splits in their order, so that its
failure is the first thing that goes wrong for good. What the failure says
of its place is kept in three hands: the number of the batch by the worker,
the number of attempts by the reader, and the calls by the service. They
agree (`Worker.Inside`): the number of the batch is the number of batches
in front of the reader, which a retry does not move when every batch has
rows, and the calls for the split are as many as the reader has spent.

The main statement (`failed_at_first`): the splits in front of the one the
failure names are delivered in full, no call was made for a split behind
it, and of the split itself the batches in front of the failure are
delivered; the failure names the first batch that cannot be decoded, or the
number of calls made.
-/

namespace Intake

variable {σ α : Type} {p : Plan} {sink : Sink σ α} {sh sh' : Shared σ} {w w' : Worker}
variable {o : ReadOptions} {running : Bool} {r r' : SplitReader} {src s s' : Service} {g : Signal}
variable {own : List SplitId} {k : Nat} {got xs ys zs : List Record} {made : List ReadCall}
variable {b : Batch} {pre pre' post post' : List Batch} {x : SplitId}

/-! ## Places between batches that have rows -/

/-- Between batches that all have rows there is one place behind so many
rows. -/
theorem eq_of_rowTotal_eq (hrows : ∀ b ∈ pre ++ post, b.rowCount ≠ 0)
    (h : pre ++ post = pre' ++ post') (ht : rowTotal pre = rowTotal pre') : pre = pre' := by
  have hshort : ∀ {as bs cs ds : List Batch}, (∀ b ∈ as ++ bs, b.rowCount ≠ 0) →
      as ++ bs = cs ++ ds → rowTotal as = rowTotal cs → as.length ≤ cs.length → as = cs := by
    intro as bs cs ds hrows h ht hlen
    obtain ⟨more, rfl⟩ : as <+: cs :=
      List.prefix_of_prefix_length_le ⟨bs, h⟩ (List.prefix_append cs ds) hlen
    have hzero : rowTotal more = 0 := by
      rw [rowTotal_append] at ht
      omega
    have hnil : more = [] := by
      refine List.eq_nil_iff_forall_not_mem.2 fun b hb => ?_
      exact hrows b (by rw [h]; simp [hb]) (rowCount_eq_zero_of_rowTotal hzero b hb)
    rw [hnil, List.append_nil]
  rcases Nat.le_total pre.length pre'.length with hle | hle
  · exact hshort hrows h ht hle
  · exact (hshort (h ▸ hrows) h.symm ht.symm hle).symm

/-- So a place is told by the records in front of it. -/
theorem Plan.eq_of_decoded? (hrows : ∀ b ∈ src.batchesOf x, b.rowCount ≠ 0)
    (h : src.batchesOf x = pre ++ post) (h' : src.batchesOf x = pre' ++ post')
    (hd : p.decoded? pre = some xs) (hd' : p.decoded? pre' = some xs) : pre = pre' := by
  have hsplit : pre ++ post = pre' ++ post' := h ▸ h'
  refine eq_of_rowTotal_eq (h ▸ hrows) hsplit ?_
  rw [← Plan.length_of_decoded? hd, ← Plan.length_of_decoded? hd']

/-! ## Calls of a worker -/

theorem SplitReader.callsFor_calling (o : ReadOptions) (r : SplitReader) :
    callsFor r.split (r.calling o) = r.calling o :=
  List.filter_eq_self.2 fun c hc => by simpa using split_of_mem_calling hc

namespace Worker

/-- The call a worker makes by its next step, if any. -/
def calling (p : Plan) (w : Worker) : List ReadCall :=
  match w.stage with
  | .reading r _ => r.calling p.options
  | _ => []

theorem calling_of_reading (hw : w.stage = .reading r k) : w.calling p = r.calling p.options := by
  simp only [calling, hw]

theorem calling_eq_nil (hw : ∀ r k, w.stage ≠ .reading r k) : w.calling p = [] := by
  unfold calling
  split
  · exact absurd ‹_› (hw _ _)
  · rfl

/-- A step of a worker makes its call, and no other. -/
theorem Moves.calls_append (h : w.Moves p sink sh w' sh') :
    sh'.service.calls = sh.service.calls ++ w.calling p := by
  rw [h.alike.calls]
  unfold noting calling
  cases w.stage with
  | reading r k => exact SplitReader.calls_noting p.options r sh.service
  | _ => exact (List.append_nil _).symm

/-- A worker calls for the split in hand. -/
theorem split_of_mem_calling {c : ReadCall} (h : c ∈ w.calling p) : c.split ∈ w.inHand := by
  unfold calling at h
  split at h
  · rename_i r k hw
    simp [inHand, hw, SplitReader.split_of_mem_calling h]
  · cases h

/-! ## A worker inside a split -/

/-- A worker behind `k` batches of the split in hand and all splits before,
which are decoded to the records `got`; the calls made for the split are
those that its reader has spent. -/
def Inside (p : Plan) (src : Service) (own : List SplitId) (w : Worker) (r : SplitReader) (k : Nat)
    (made : List ReadCall) (got : List Record) : Prop :=
  ∃ before recs pre post xs, own = before ++ r.split :: w.splits ∧
    p.contentsOf? src before = some recs ∧ src.batchesOf r.split = pre ++ post ∧
    p.decoded? pre = some xs ∧ r.Stands p src xs ∧ got = recs ++ xs ∧ k = pre.length ∧
    (callsFor r.split made).length = r.spent

/-- Where reading the splits `own` breaks off with a failure. Everything in
front of it is there, nothing behind it was called for, and it names the
batch that cannot be decoded, or as many attempts as there were calls. -/
def BreaksOffAt (p : Plan) (src : Service) (own : List SplitId) (e : Failure)
    (made : List ReadCall) (got : List Record) : Prop :=
  ∃ before x after recs pre post xs, own = before ++ x :: after ∧
    p.contentsOf? src before = some recs ∧ src.batchesOf x = pre ++ post ∧
    p.decoded? pre = some xs ∧ got = recs ++ xs ∧ (∀ c ∈ made, c.split ∉ after) ∧
    ((∃ b rest cause, post = b :: rest ∧ p.codec.decode p.layout b = .error cause ∧
        e = .decode x pre.length cause) ∨
      ∃ cause, e = .stream x (callsFor x made).length cause)

/-- A worker takes up a split that nobody called for. -/
theorem Inside.start {before rest : List SplitId} (hown : own = before ++ x :: rest)
    (hrecs : p.contentsOf? src before = some got) (hmade : ∀ c ∈ made, c.split ≠ x) :
    ({ w with splits := rest } : Worker).Inside p src own { split := x } 0 made got :=
  ⟨before, got, [], _, [], hown, hrecs, rfl, rfl, .start x, by simp, rfl, by
    rw [callsFor_eq_nil hmade]; rfl⟩

/-- The calls of its reader are counted with those made. -/
theorem length_callsFor_step {n : Nat} (h : (callsFor r.split made).length = n)
    (hm : r.Moves o running s r' s' g) :
    (callsFor r'.split (made ++ r.calling o)).length = n + (r.calling o).length := by
  rw [hm.split_eq, callsFor_append, SplitReader.callsFor_calling, List.length_append, h]

theorem Inside.working (h : w.Inside p src own r k made got)
    (hm : r.Moves o running s r' s' .working) :
    w.Inside p src own r' k (made ++ r.calling o) got := by
  obtain ⟨before, recs, pre, post, xs, hown, hrecs, hpre, hdec, hst, hgot, hk, hcalls⟩ := h
  have hcount := length_callsFor_step hcalls hm
  rw [← hm.spent_eq rfl] at hcount
  rw [← hm.split_eq] at hown hpre
  exact ⟨before, recs, pre, post, xs, hown, hrecs, hpre, hdec, hst.working hm, hgot, hk, hcount⟩

/-- The batch that a reader yields is the next, after whatever retries. -/
theorem Inside.next (hrows : ∀ b ∈ src.batchesOf r.split, b.rowCount ≠ 0)
    (h : w.Inside p src own r k made got) (hs : s.scripts = src.scripts)
    (hm : r.Moves o running s r' s' (.batch b)) :
    ∃ before recs pre post xs, own = before ++ r.split :: w.splits ∧
      p.contentsOf? src before = some recs ∧ src.batchesOf r.split = pre ++ b :: post ∧
      p.decoded? pre = some xs ∧ r.Stands p src xs ∧ got = recs ++ xs ∧ k = pre.length := by
  obtain ⟨before, recs, pre, post, xs, hown, hrecs, hpre, hdec, hst, hgot, hk, -⟩ := h
  obtain ⟨pre', post', hscript, hdec'⟩ := hst.exists_front hs hm
  have hpre' := Service.batchesOf_eq hscript
  obtain rfl := Plan.eq_of_decoded? hrows hpre hpre' hdec hdec'
  exact ⟨before, recs, pre, post', xs, hown, hrecs, hpre', hdec, hst, hgot, hk⟩

theorem Inside.batch (hrows : ∀ b ∈ src.batchesOf r.split, b.rowCount ≠ 0)
    (h : w.Inside p src own r k made got) (hs : s.scripts = src.scripts)
    (hm : r.Moves o running s r' s' (.batch b)) (hd : p.codec.decode p.layout b = .ok ys) :
    w.Inside p src own r' (k + 1) (made ++ r.calling o) (got ++ ys) := by
  have hcalls : (callsFor r.split made).length = r.spent := by
    obtain ⟨_, _, _, _, _, -, -, -, -, -, -, -, hcalls⟩ := h
    exact hcalls
  obtain ⟨before, recs, pre, post, xs, hown, hrecs, hpre, hdec, hst, rfl, rfl⟩ :=
    h.next hrows hs hm
  have hcount := length_callsFor_step hcalls hm
  rw [← hm.spent_eq rfl] at hcount
  have hst' := hst.batch hs hm hd
  rw [← hm.split_eq] at hown hpre
  refine ⟨before, recs, pre ++ [b], post, xs ++ ys, hown, hrecs, ?_, Plan.decoded?_concat hdec hd,
    hst', List.append_assoc .., ?_, hcount⟩
  · rw [hpre, List.append_assoc]
    rfl
  · rw [List.length_append, List.length_singleton]

/-- A batch that cannot be decoded is where reading breaks off. -/
theorem Inside.undecoded {cause : DecodeError}
    (hrows : ∀ b ∈ src.batchesOf r.split, b.rowCount ≠ 0)
    (h : w.Inside p src own r k made got) (hs : s.scripts = src.scripts)
    (hm : r.Moves o running s r' s' (.batch b)) (hd : p.codec.decode p.layout b = .error cause)
    (hmade : ∀ c ∈ made ++ r.calling o, c.split ∉ w.splits) :
    BreaksOffAt p src own (.decode r'.split k cause) (made ++ r.calling o) got := by
  obtain ⟨before, recs, pre, post, xs, hown, hrecs, hpre, hdec, -, hgot, rfl⟩ := h.next hrows hs hm
  exact ⟨before, r.split, w.splits, recs, pre, b :: post, xs, hown, hrecs, hpre, hdec, hgot, hmade,
    .inl ⟨b, post, cause, rfl, hd, by rw [hm.split_eq]⟩⟩

/-- So is a reader that fails, with as many attempts as calls. -/
theorem Inside.unread {e : Failure} (h : w.Inside p src own r k made got)
    (hm : r.Moves o running s r' s' (.failed e))
    (hmade : ∀ c ∈ made ++ r.calling o, c.split ∉ w.splits) :
    BreaksOffAt p src own e (made ++ r.calling o) got := by
  obtain ⟨before, recs, pre, post, xs, hown, hrecs, hpre, hdec, -, hgot, -, hcalls⟩ := h
  have hcount := length_callsFor_step hcalls hm
  rw [hm.split_eq] at hcount
  obtain ⟨-, -, cause, rfl, -⟩ := hm.failed_eq
  exact ⟨before, r.split, w.splits, recs, pre, post, xs, hown, hrecs, hpre, hdec, hgot, hmade,
    .inr ⟨cause, by rw [hcount]⟩⟩

/-- Behind its last batch a split is through. -/
theorem Inside.ended (h : w.Inside p src own r k made got) (hs : s.scripts = src.scripts)
    (hm : r.Moves o running s r' s' .ended) (hi : r'.interrupted = false) :
    ∃ before, own = before ++ w.splits ∧ p.contentsOf? src before = some got := by
  obtain ⟨before, recs, pre, post, xs, hown, hrecs, -, -, hst, rfl, -, -⟩ := h
  exact ⟨before ++ [r.split], by simpa using hown,
    Plan.contentsOf?_concat hrecs (hst.ended hs hm hi)⟩

/-! ## From splits to failures -/

/-- Where the worker of a sequential run stands that nobody stops from
outside: all records in front of it are taken, until reading breaks off. -/
def Proceeds (p : Plan) (src : Service) (own : List SplitId) (w : Worker) (sh : Shared σ)
    (made : List ReadCall) : Prop :=
  match w.stage with
  | .between => sh.run = .running ∧
      ∃ before, own = before ++ w.splits ∧ p.contentsOf? src before = some sh.records
  | .reading r k => sh.run = .running ∧ w.Inside p src own r k made sh.records
  | .emitting r k rest _ _ =>
    sh.run = .running ∧ w.Inside p src own r (k + 1) made (sh.records ++ rest)
  | .refused _ => False
  | .failing e | .leaving (.error e) => BreaksOffAt p src own e made sh.records
  | .leaving (.ok _) | .panicked => True
  | .left => ∀ i e, (i, .error e) ∈ sh.results → BreaksOffAt p src own e made sh.records

/-- What holds of the worker of a sequential run, and of what is shared. -/
structure Sequential (p : Plan) (src : Service) (own : List SplitId) (w : Worker) (sh : Shared σ)
    (made : List ReadCall) : Prop where
  scripts : sh.service.scripts = src.scripts
  results : w.stage ≠ .left → sh.results = []
  calls : sh.service.calls = src.calls ++ made
  ahead : ∀ c ∈ made, c.split ∉ w.splits
  nodup : (w.inHand ++ w.splits).Nodup
  proceeds : w.Proceeds p src own sh made

/-- **The worker of a sequential run proceeds** by its own steps. -/
theorem Proceeds.of_moves (hrows : ∀ x ∈ own, ∀ b ∈ src.batchesOf x, b.rowCount ≠ 0)
    (hs : ∀ y running n x z, sink.offer y running n x ≠ .refused z)
    (h : w.Sequential p src own sh made) (hm : w.Moves p sink sh w' sh')
    (hahead : ∀ c ∈ made ++ w.calling p, c.split ∉ w.splits) :
    w'.Proceeds p src own sh' (made ++ w.calling p) := by
  obtain ⟨hscripts, hresults, -, -, -, hp⟩ := h
  -- only readers make calls
  have hstay : ∀ {v : Worker} {sh₁ : Shared σ}, (∀ r k, w.stage ≠ .reading r k) →
      v.Proceeds p src own sh₁ made → v.Proceeds p src own sh₁ (made ++ w.calling p) := by
    intro v sh₁ hw hv
    rwa [calling_eq_nil hw, List.append_nil]
  have hmem : ∀ {r : SplitReader} {k : Nat}, w.Inside p src own r k made sh.records →
      r.split ∈ own := by
    rintro r k ⟨before, recs, pre, post, xs, hown, -⟩
    simp [hown]
  unfold Proceeds at hp
  cases hm with
  | through hw hx => exact hstay (by simp [hw]) trivial
  | take hw hx hrun =>
    simp only [hw] at hp
    obtain ⟨hgoes, before, hown, hgot⟩ := hp
    rw [hx] at hown hahead
    refine ⟨hgoes, Inside.start (w := w) hown hgot fun c hc hcx => hahead c hc ?_⟩
    rw [hcx]
    exact List.mem_cons_self
  | read hw hr =>
    simp only [hw] at hp
    rw [calling_of_reading hw]
    exact ⟨hp.1, hp.2.working hr⟩
  | decode hw hr hd =>
    simp only [hw] at hp
    rw [calling_of_reading hw]
    exact ⟨hp.1, hp.2.batch (hrows _ (hmem hp.2)) hscripts hr hd⟩
  | undecoded hw hr hd =>
    simp only [hw] at hp
    rw [calling_of_reading hw] at hahead ⊢
    exact hp.2.undecoded (hrows _ (hmem hp.2)) hscripts hr hd hahead
  | unread hw hr =>
    simp only [hw] at hp
    rw [calling_of_reading hw] at hahead ⊢
    exact hp.2.unread hr hahead
  | interrupted hw hr hi =>
    simp only [hw] at hp
    obtain ⟨hgoes, before, recs, pre, post, xs, -, -, -, -, hst, -⟩ := hp
    have hstopped := hr.running_eq_false hst.live hi
    rw [hgoes] at hstopped
    cases hstopped
  | finish hw hr hi =>
    simp only [hw] at hp
    exact ⟨hp.1, hp.2.ended hscripts hr hi⟩
  | panic hw hr => trivial
  | emitted hw =>
    simp only [hw, List.append_nil] at hp
    exact hstay (by simp [hw]) hp
  | accept hw ho =>
    simp only [hw] at hp
    refine hstay (by simp [hw]) ⟨hp.1, ?_⟩
    rw [Shared.records_push, List.append_assoc]
    exact hp.2
  | refuse hw ho => exact absurd ho (hs _ _ _ _ _)
  | cancel hw => simp [hw] at hp
  | fail hw =>
    simp only [hw] at hp
    exact hstay (by simp [hw]) hp
  | leave hw =>
    rename_i res
    refine hstay (by simp [hw]) fun i e he => ?_
    rw [hresults (by simp [hw]), List.nil_append, List.mem_singleton, Prod.mk.injEq] at he
    obtain ⟨-, rfl⟩ := he
    simp only [hw] at hp
    exact hp

theorem Sequential.of_moves (hrows : ∀ x ∈ own, ∀ b ∈ src.batchesOf x, b.rowCount ≠ 0)
    (hs : ∀ y running n x z, sink.offer y running n x ≠ .refused z)
    (h : w.Sequential p src own sh made) (hm : w.Moves p sink sh w' sh') :
    w'.Sequential p src own sh' (made ++ w.calling p) := by
  have hahead : ∀ c ∈ made ++ w.calling p, c.split ∉ w.splits := by
    intro c hmem
    rcases List.mem_append.1 hmem with hmem | hmem
    · exact h.ahead c hmem
    · exact fun hx => List.disjoint_of_nodup_append h.nodup (split_of_mem_calling hmem) hx
  refine ⟨hm.service_eq.1.trans h.scripts, hm.results_eq_nil h.results, ?_, ?_,
    h.nodup.sublist hm.sublist_splits, Proceeds.of_moves hrows hs h hm hahead⟩
  · rw [hm.calls_append, h.calls, List.append_assoc]
  · exact fun c hmem hx => hahead c hmem (hm.splits_subset _ hx)

end Worker

/-! ## Sequential runs -/

variable {c : EngineConfig} {t : Session} {selected : List String} {g : Ingestion}
variable {service : Service} {y : σ} {es : List (Event α)}

/-- **The one worker of a run that nobody stops from outside** proceeds until
it leaves. -/
theorem Ingestion.exists_sequential (hg : ofSession c t selected = .ok g) (hp : c.parallelism = 1)
    (hcancel : .cancel ∉ es) (hs : ∀ y running n x z, sink.offer y running n x ≠ .refused z)
    (hrows : ∀ x ∈ t.splits, ∀ b ∈ service.batchesOf x, b.rowCount ≠ 0) (y : σ) :
    ∃ w made, (g.run service sink y es).workers = [w] ∧
      w.Sequential g.plan service t.splits (g.run service sink y es).shared made := by
  suffices h : ∃ w, (g.run service sink y es).workers = [w] ∧
      ∃ made, w.Sequential g.plan service t.splits (g.run service sink y es).shared made by
    obtain ⟨w, hw, made, h⟩ := h
    exact ⟨w, made, hw, h⟩
  refine Machine.run_solo
    (I := fun _ w sh => ∃ made, w.Sequential g.plan service t.splits sh made)
    (workers_solo hg hp service y) ?_ es ?_ (fun _ h _ => h) (fun h => absurd h hcancel) ?_
  · exact ⟨[], rfl, fun _ => rfl, (List.append_nil _).symm, nofun, (ofSession_eq_ok hg).2.1,
      rfl, [], rfl, rfl⟩
  · rintro fs w sh w' sh' - ⟨made, h⟩ hm
    exact ⟨_, h.of_moves hrows hs hm⟩
  · rintro fs w sh a ⟨made, h⟩
    exact ⟨made, h.scripts, h.results, h.calls, h.ahead, h.nodup, h.proceeds⟩

/-- **A sequential run fails at the first thing that goes wrong for good.**
A run of one worker that nobody cancels, into a sink that refuses nothing,
on scripts whose batches all have rows, failed: the failure names a split
of the session, all records of the splits in front of it are delivered and
nothing behind it was called for. Of the split itself a number of whole
batches from the front is delivered. When the failure is one of decoding,
it names that number, and the batch there is one that cannot be decoded;
when it is one of reading, it names the number of calls for the split. -/
theorem failed_at_first (hg : Ingestion.ofSession c t selected = .ok g) (hp : c.parallelism = 1)
    (hcancel : .cancel ∉ es) (hs : ∀ y running n x z, sink.offer y running n x ≠ .refused z)
    (hrows : ∀ x ∈ t.splits, ∀ b ∈ service.batchesOf x, b.rowCount ≠ 0) {e : Failure}
    (ho : (g.run service sink y es).outcome? = some (.failed e)) :
    ∃ before x after recs pre post xs made, t.splits = before ++ x :: after ∧
      g.plan.contentsOf? service before = some recs ∧ service.batchesOf x = pre ++ post ∧
      g.plan.decoded? pre = some xs ∧ (g.run service sink y es).shared.records = recs ++ xs ∧
      (g.run service sink y es).shared.service.calls = service.calls ++ made ∧
      (∀ c ∈ made, c.split ∉ after) ∧
      ((∃ b rest cause, post = b :: rest ∧ g.plan.codec.decode g.plan.layout b = .error cause ∧
          e = .decode x pre.length cause) ∨
        ∃ cause, e = .stream x (callsFor x made).length cause) := by
  obtain ⟨w, made, hw, h⟩ := Ingestion.exists_sequential hg hp hcancel hs hrows y
  obtain ⟨hset, hconclude⟩ := Ingestion.settled_of_outcome hg ho
  obtain ⟨i, hi⟩ := Shared.exists_of_conclude_failed hconclude
  have hleft : w.stage = .left := hset.stage_eq (i := 0) (by rw [hw]; rfl)
  have hproceeds := h.proceeds
  simp only [Worker.Proceeds, hleft] at hproceeds
  obtain ⟨before, x, after, recs, pre, post, xs, hown, hrecs, hpre, hdec, hgot, hmade, hcause⟩ :=
    hproceeds i e hi
  exact ⟨before, x, after, recs, pre, post, xs, made, hown, hrecs, hpre, hdec, hgot, h.calls,
    hmade, hcause⟩

namespace Sample

/-- The second batch of split `a` has no row, although it declares one; the
first stream fails in front of it. -/
def relapsing : Service :=
  { scripts := [(⟨"a"⟩, [⟨.avro, 1, [10]⟩, ⟨.avro, 1, []⟩, ⟨.avro, 1, [12]⟩]),
      (⟨"b"⟩, [⟨.avro, 1, [14]⟩])]
    faults := [(⟨"a"⟩, [.afterBatches 1 .network])] }

end Sample

/-- The retry in front of the second batch does not move its number. -/
theorem failed_at_second_batch :
    let m := Sample.solo.run Sample.relapsing Sink.collecting () (Sample.steps 16)
    let e : Failure := .decode ⟨"a"⟩ 1 ⟨.rowsMissing 1 0, some 0⟩
    m.outcome? = some (.failed e) ∧
      ∃ before after recs pre b rest xs made,
        Sample.session.splits = before ++ ⟨"a"⟩ :: after ∧
        Sample.solo.plan.contentsOf? Sample.relapsing before = some recs ∧
        Sample.relapsing.batchesOf ⟨"a"⟩ = pre ++ b :: rest ∧ pre.length = 1 ∧
        Sample.solo.plan.decoded? pre = some xs ∧ m.shared.records = recs ++ xs ∧
        m.shared.service.calls = made ∧ ∀ c ∈ made, c.split ∉ after := by
  intro m e
  have ho : m.outcome? = some (.failed e) := by decide +kernel
  obtain ⟨before, x, after, recs, pre, post, xs, made, hown, hrecs, hpre, hdec, hgot, hcalls,
    hmade, hcause⟩ := failed_at_first Sample.ofSession_solo rfl (by decide +kernel)
      (fun _ _ _ _ _ h => by cases h) (by decide) ho
  obtain ⟨b, rest, cause, rfl, -, he⟩ : ∃ b rest cause, post = b :: rest ∧
      Sample.solo.plan.codec.decode Sample.solo.plan.layout b = .error cause ∧
      e = .decode x pre.length cause := hcause.resolve_right (by simp [e])
  obtain ⟨rfl, hlen, -⟩ := Failure.decode.inj he
  exact ⟨ho, before, after, recs, pre, b, rest, xs, made, hown, hrecs, hpre, hlen.symm, hdec,
    hgot, hcalls, hmade⟩

end Intake
