import Intake.Proofs.Resumption
/-!
# Calls go on behind the records taken

A reader counts the rows of a batch as handed out before the batch is
decoded and its records are offered, by what the batch declares. But a
batch is decoded only to as many records as it declares, and the worker
comes back to its reader only when all of them are taken. So whenever a
reader is about to fetch, it stands in its split behind the records the
sink has taken of it (`Worker.Follows`), and a call asks to go on behind
as many rows as records of its split were taken when it was made
(`offsets_of_calls`).
-/

namespace Intake

variable {σ α : Type} {p : Plan} {sink : Sink σ α} {sh sh' : Shared σ} {w w' : Worker}
variable {src s : Service} {own : List SplitId} {x : SplitId} {i : Nat}
variable {as bs pre post : List Batch} {b : Batch} {xs : List Record}

/-! ## Records taken of a split -/

namespace Worker

/-- What the sink has taken of the split in hand, by where a worker stands:
all that is in front of its reader, but for the records left to offer. -/
def HasTaken (p : Plan) (src : Service) (w : Worker) (sh : Shared σ) : Prop :=
  match w.stage with
  | .reading r _ => r.Stands p src (sh.recordsOf r.split)
  | .emitting r _ rest _ _ => r.Stands p src (sh.recordsOf r.split ++ rest)
  | _ => True

/-- A worker whose reader follows what the sink has taken of its split, and
of whose further splits nothing was taken. -/
structure Follows (p : Plan) (src : Service) (w : Worker) (sh : Shared σ) : Prop where
  scripts : sh.service.scripts = src.scripts
  nodup : (w.inHand ++ w.splits).Nodup
  ahead : ∀ x ∈ w.splits, sh.recordsOf x = []
  taken : w.HasTaken p src sh

theorem Follows.start (hw : w = Worker.start i own) (hn : own.Nodup)
    (hs : sh.service.scripts = src.scripts) (hr : ∀ x, sh.recordsOf x = []) :
    w.Follows p src sh := by
  subst hw
  exact ⟨hs, by simpa [inHand, Worker.start] using hn, fun x _ => hr x, trivial⟩

theorem Follows.apart (hb : w.Belongs i own) (h : w.Follows p src sh)
    (ha : sh.Apart i own sh') : w.Follows p src sh' := by
  have hown : ∀ x ∈ w.inHand ++ w.splits, sh'.recordsOf x = sh.recordsOf x :=
    fun x hx => ha.taken x (hb.splits x hx)
  obtain ⟨hs, hn, hahead, htaken⟩ := h
  refine ⟨ha.scripts.trans hs, hn, fun x hx => ?_, ?_⟩
  · rw [hown x (List.mem_append_right _ hx)]
    exact hahead x hx
  · unfold HasTaken at htaken ⊢
    split <;> simp_all [inHand]

/-- **A reader follows what is taken of its split** by the steps of its
worker. -/
theorem Follows.of_moves (h : w.Follows p src sh) (hm : w.Moves p sink sh w' sh') :
    w'.Follows p src sh' := by
  obtain ⟨hs, hn, hahead, htaken⟩ := h
  refine ⟨hm.service_eq.1.trans hs, hn.sublist hm.sublist_splits, fun x hx => ?_, ?_⟩
  · -- records are taken of the split in hand only, which is none of those ahead
    have hx := hm.splits_subset x hx
    exact (hm.recordsOf_of_not_mem (not_mem_inHand hn hx)).trans (hahead x hx)
  · unfold HasTaken at htaken
    cases hm with
    | take hw hx hrun =>
      have hnil := hahead _ (hx ▸ List.mem_cons_self)
      change SplitReader.Stands p src { split := _ } _
      rw [hnil]
      exact .start _
    | read hw hr =>
      simp only [hw] at htaken
      change SplitReader.Stands p src _ (sh.recordsOf _)
      rw [hr.split_eq]
      exact htaken.working hr
    | decode hw hr hd =>
      simp only [hw] at htaken
      change SplitReader.Stands p src _ (sh.recordsOf _ ++ _)
      rw [hr.split_eq]
      exact htaken.batch hs hr hd
    | emitted hw =>
      simp only [hw] at htaken
      rw [List.append_nil] at htaken
      exact htaken
    | accept hw ho =>
      simp only [hw] at htaken
      rename_i r batch rows bytes z rest y
      have hpush := Shared.recordsOf_push_self sh y ⟨w.report.worker, r.split, z⟩
      change SplitReader.Stands p src r (Shared.recordsOf _ r.split ++ rest)
      rw [hpush]
      simpa using htaken
    | _ => trivial

/-! ## Where records of a split come from -/

/-- Whether a worker has opened a stream of a split and not finished it. -/
def HasOpened (w : Worker) (x : SplitId) : Prop :=
  match w.stage with
  | .reading r _ => r.split = x ∧ r.stream.isSome = true
  | .emitting r .. => r.split = x
  | _ => False

end Worker

namespace SplitReader

variable {o : ReadOptions} {running : Bool} {r r' : SplitReader} {s' : Service} {g : Signal}

theorem Opens.isSome_stream {s₁ : Service} {st : Stream} (h : Opens o r s s₁ st) :
    r.stream.isSome = true ∨ s₁.calls = s.calls ++ [r.call o] := by
  cases h with
  | held h => exact .inl (by rw [h]; rfl)
  | called h hc => exact .inr ((Service.read_eq hc).1.calls.trans (Service.calls_note _ _))

/-- A stream that a reader holds was there before, or is one it has just
called for. -/
theorem Moves.isSome_stream (h : Moves o running r s r' s' g) (hst : r'.stream.isSome = true) :
    r.stream.isSome = true ∨ s'.calls = s.calls ++ [r.call o] := by
  cases h with
  | through hr => exact .inl hst
  | look hr hrun => exact .inl hst
  | resume hr hrun => exact .inl hst
  | batch hr ho hn hfits => exact ho.isSome_stream
  | panic hr ho hn hover => exact ho.isSome_stream
  | _ => cases hst

/-- A reader that hands out a batch holds the stream it is from. -/
theorem Moves.isSome_stream_of_batch (h : Moves o running r s r' s' (.batch b)) :
    r'.stream.isSome = true := by
  cases h with
  | batch hr ho hn => rfl

end SplitReader

namespace Worker

/-- A split that a worker has opened was opened before, or by the call it
has just made. -/
theorem Moves.hasOpened (h : w.Moves p sink sh w' sh') (hx : w'.HasOpened x) :
    w.HasOpened x ∨ ∃ c : ReadCall, c.split = x ∧
      sh'.service.calls = sh.service.calls ++ [c] := by
  cases h with
  | take hw hs hrun => exact absurd hx.2 (by simp)
  | read hw hr =>
    obtain ⟨hsplit, hst⟩ := hx
    rw [hr.split_eq] at hsplit
    refine (hr.isSome_stream hst).imp (fun h => ?_) fun h => ⟨_, hsplit, h⟩
    rw [HasOpened, hw]
    exact ⟨hsplit, h⟩
  | decode hw hr hd =>
    have hsplit := hr.split_eq.symm.trans hx
    refine (hr.isSome_stream hr.isSome_stream_of_batch).imp (fun h => ?_) fun h => ⟨_, hsplit, h⟩
    rw [HasOpened, hw]
    exact ⟨hsplit, h⟩
  | emitted hw =>
    refine .inl ?_
    rw [HasOpened, hw]
    exact hx.1
  | accept hw ho =>
    refine .inl ?_
    rw [HasOpened, hw]
    exact hx
  | _ => exact hx.elim

end Worker

/-! ## Calls of a run -/

/-- A call that goes on behind what is taken of its split: behind as many
rows as records were taken, which are those of the batches in front, none
of them beyond a batch that cannot be decoded. -/
structure Resumes (p : Plan) (src : Service) (sh : Shared σ) (c : ReadCall) : Prop where
  offset : c.offset.toNat = (sh.recordsOf c.split).length
  front : ∃ pre, pre <+: src.batchesOf c.split ∧ p.decoded? pre = some (sh.recordsOf c.split) ∧
    ∀ as b bs e, src.batchesOf c.split = as ++ b :: bs → p.codec.decode p.layout b = .error e →
      pre <+: as

/-- A reader that follows what is taken of its split calls for what comes
next. -/
theorem SplitReader.Stands.resumes {r : SplitReader} (h : r.Stands p src (sh.recordsOf r.split))
    (o : ReadOptions) : Resumes p src sh (r.call o) := by
  obtain ⟨post, ⟨pre, hpre, hdec, hrows⟩, -⟩ := h.place
  have hbegins : pre <+: src.batchesOf r.split := ⟨post, hpre.symm⟩
  exact ⟨hrows.trans (Plan.length_of_decoded? hdec).symm, pre, hbegins, hdec,
    fun as b bs e hbs hb => Plan.begins_of_decoded? hdec (hbs ▸ hbegins) hb⟩

/-- Records that are taken of a split stay taken. -/
theorem Worker.Moves.recordsOf_begins (h : w.Moves p sink sh w' sh') (x : SplitId) :
    sh.recordsOf x <+: sh'.recordsOf x := by
  rcases h.delivered_eq with he | ⟨y, z, he⟩
  · simp [Shared.recordsOf, he]
  · simp [Shared.recordsOf, he, List.filter_append]

namespace Machine

variable {m : Machine σ} {made new : List ReadCall}

/-- What the calls that were made tell of a run: each is behind no more
than is taken of its split by now, and a split that was not called for is
as it was. -/
structure Noted (m : Machine σ) (made : List ReadCall) : Prop where
  behind : ∀ c ∈ made, c.offset.toNat ≤ (m.shared.recordsOf c.split).length
  untouched : ∀ x, (∀ c ∈ made, c.split ≠ x) →
    m.shared.recordsOf x = [] ∧ ∀ w ∈ m.workers, ¬ w.HasOpened x

theorem Noted.of_moves (h : m.Noted made) (hw : m.workers[i]? = some w)
    (hm : w.Moves p sink m.shared w' sh')
    (hcalls : sh'.service.calls = m.shared.service.calls ++ new)
    (hnew : ∀ c ∈ new, c.offset.toNat ≤ (m.shared.recordsOf c.split).length) :
    Noted ⟨sh', m.workers.set i w'⟩ (made ++ new) := by
  refine ⟨fun c hc => ?_, fun x hx => ?_⟩
  · refine Nat.le_trans ?_ (hm.recordsOf_begins c.split).length_le
    exact (List.mem_append.1 hc).elim (h.behind c) (hnew c)
  · obtain ⟨hnil, hclosed⟩ := h.untouched x fun c hc => hx c (List.mem_append_left _ hc)
    have hno : ¬ w.HasOpened x := hclosed w (List.mem_of_getElem? hw)
    constructor
    · refine ((hm.recordsOf_eq x).resolve_right ?_).trans hnil
      rintro ⟨r, batch, rest, rows, bytes, hst, hr⟩
      rw [Worker.HasOpened, hst] at hno
      exact hno hr
    · intro v hv hopen
      rcases List.mem_or_eq_of_mem_set hv with hv | rfl
      · exact hclosed v hv hopen
      · rcases hm.hasOpened hopen with hopen | ⟨c, hsplit, hc⟩
        · exact hno hopen
        · obtain rfl := List.append_cancel_left (hcalls.symm.trans hc)
          exact hx c (by simp) hsplit

/-- **An event makes one call at most, which goes on behind what is taken
of its split.** -/
theorem Noted.apply (h : m.Noted made) (hI : m.Each fun _ w sh => w.Follows p src sh)
    (e : Event α) :
    ∃ new, (m.apply p sink e).shared.service.calls = m.shared.service.calls ++ new ∧
      (m.apply p sink e).Noted (made ++ new) ∧
      (new = [] ∨ ∃ c, new = [c] ∧ Resumes p src m.shared c) := by
  have hnone : ∀ m' : Machine σ, m'.shared.service.calls = m.shared.service.calls →
      m'.Noted made → ∃ new, m'.shared.service.calls = m.shared.service.calls ++ new ∧
        m'.Noted (made ++ new) ∧ (new = [] ∨ ∃ c, new = [c] ∧ Resumes p src m.shared c) :=
    fun m' hm h => ⟨[], by simpa using hm, by simpa using h, .inl rfl⟩
  refine apply_cases (Q := fun m' => ∃ new,
    m'.shared.service.calls = m.shared.service.calls ++ new ∧ m'.Noted (made ++ new) ∧
      (new = [] ∨ ∃ c, new = [c] ∧ Resumes p src m.shared c))
    e (hnone m rfl h) ?_ (fun _ => hnone _ rfl ⟨h.1, h.2⟩) fun _ => hnone _ rfl ⟨h.1, h.2⟩
  intro i w w' sh' hw hm
  rcases hm.calls_eq with hcalls | ⟨r, batch, hst, -, hcalls⟩
  · have hcalls' : sh'.service.calls = m.shared.service.calls ++ [] := by
      rw [hcalls, List.append_nil]
    exact ⟨[], hcalls', h.of_moves hw hm hcalls' (by simp), .inl rfl⟩
  · have htaken := (hI i w hw).taken
    rw [Worker.HasTaken, hst] at htaken
    have hres := htaken.resumes p.options
    refine ⟨_, hcalls, h.of_moves hw hm hcalls fun c hc => ?_, .inr ⟨_, rfl, hres⟩⟩
    obtain rfl := List.mem_singleton.1 hc
    exact Nat.le_of_eq hres.offset

end Machine

variable {c : EngineConfig} {t : Session} {selected : List String} {g : Ingestion}
variable {service : Service} {y : σ} {es : List (Event α)}

namespace Ingestion

/-- **Readers follow what is taken of their splits** throughout a run. -/
theorem follows (hg : ofSession c t selected = .ok g) (service : Service) (sink : Sink σ α)
    (y : σ) (es : List (Event α)) :
    (g.run service sink y es).Each fun i w sh =>
      w.Belongs i (g.own i) ∧ w.Follows g.plan service sh := by
  refine Machine.each_run (fun i j => disjoint_own hg) (belongs_start hg service y) ?_
    (fun _ h hm => h.of_moves hm) (fun hb h ha => h.apart hb ha) es
  intro i w hw
  exact .start (start_workers hg service y hw).2 (nodup_own hg i) rfl fun _ => rfl

end Ingestion

/-- A call that is among those made was made before the last, or is the
last. -/
theorem eq_of_getElem?_concat {β : Type} {ys : List β} {y z : β} {k : Nat}
    (h : (ys ++ [y])[k]? = some z) :
    ys[k]? = some z ∧ (ys ++ [y]).take k = ys.take k ∨ z = y ∧ (ys ++ [y]).take k = ys := by
  rcases Nat.lt_or_ge k ys.length with hlt | hge
  · rw [List.getElem?_append_left hlt] at h
    exact .inl ⟨h, List.take_append_of_le_length (Nat.le_of_lt hlt)⟩
  · rw [List.getElem?_append_right hge, List.getElem?_singleton] at h
    split at h
    · have hk : k = ys.length := by omega
      exact .inr ⟨(Option.some.inj h).symm, by rw [hk, List.take_left]⟩
    · cases h

/-- **Calls go on behind the records taken.** Each call of a run asks to go
on behind as many rows as the sink has taken records of its split when the
call is made, which are the records of the batches in front; none of these
batches is beyond one that cannot be decoded. So the calls for one split
start at the split's first row, and go on from no lower a row than those
before. -/
theorem offsets_of_calls (hg : Ingestion.ofSession c t selected = .ok g) :
    ∃ made, (g.run service sink y es).shared.service.calls = service.calls ++ made ∧
      (∀ k c, made[k]? = some c → ∃ fs e, fs ++ [e] <+: es ∧
        (g.run service sink y fs).shared.service.calls = service.calls ++ made.take k ∧
        (g.run service sink y (fs ++ [e])).shared.service.calls =
          service.calls ++ made.take k ++ [c] ∧
        Resumes g.plan service (g.run service sink y fs).shared c) ∧
      (∀ k c, made[k]? = some c → (∀ d ∈ made.take k, d.split ≠ c.split) → c.offset = 0) ∧
      made.Pairwise fun c d => c.split = d.split → c.offset ≤ d.offset := by
  -- the induction carries along what the calls made so far tell of the run
  suffices h : ∃ made, _ ∧ (g.run service sink y es).Noted made ∧ _ by
    obtain ⟨made, hcalls, -, h⟩ := h
    exact ⟨made, hcalls, h⟩
  induction es using List.reverseRecOn with
  | nil =>
    refine ⟨[], (List.append_nil _).symm, ⟨by simp, fun x _ => ⟨rfl, fun w hw => ?_⟩⟩, by simp⟩
    obtain ⟨i, hi⟩ := List.mem_iff_getElem?.1 hw
    obtain ⟨-, rfl⟩ := Ingestion.start_workers hg service y hi
    exact id
  | append_singleton es e ih =>
    obtain ⟨made, hcalls, hnoted, heach, hfirst, hpair⟩ := ih
    have hrun : g.run service sink y (es ++ [e]) = (g.run service sink y es).apply g.plan sink e :=
      Machine.run_append _ _ _ _ _
    have hI : (g.run service sink y es).Each fun _ w sh => w.Follows g.plan service sh :=
      fun i w hw => (Ingestion.follows hg service sink y es i w hw).2
    obtain ⟨new, hnew, hnoted', hone⟩ := hnoted.apply hI e
    rw [← hrun, hcalls, List.append_assoc] at hnew
    rw [← hrun] at hnoted'
    refine ⟨made ++ new, hnew, hnoted', ?_⟩
    have hbefore : ∀ {fs : List (Event α)} {f}, fs ++ [f] <+: es → fs ++ [f] <+: es ++ [e] :=
      fun h => h.trans (List.prefix_append _ _)
    -- the event makes no call, or one behind those before
    rcases hone with rfl | ⟨c, rfl, hres⟩
    · rw [List.append_nil]
      refine ⟨fun k c hk => ?_, hfirst, hpair⟩
      obtain ⟨fs, f, hfs, h⟩ := heach k c hk
      exact ⟨fs, f, hbefore hfs, h⟩
    · refine ⟨fun k d hk => ?_, fun k d hk hd => ?_, ?_⟩
      · rcases eq_of_getElem?_concat hk with ⟨hk, htake⟩ | ⟨rfl, htake⟩ <;> rw [htake]
        · obtain ⟨fs, f, hfs, h⟩ := heach k d hk
          exact ⟨fs, f, hbefore hfs, h⟩
        · exact ⟨es, e, List.prefix_rfl, hcalls, by rw [hnew, List.append_assoc], hres⟩
      · rcases eq_of_getElem?_concat hk with ⟨hk, htake⟩ | ⟨rfl, htake⟩ <;> rw [htake] at hd
        · exact hfirst k d hk hd
        · have hnil := (hnoted.untouched d.split hd).1
          have hzero := hres.offset
          rw [hnil, List.length_nil] at hzero
          exact UInt64.toNat_inj.1 hzero
      · refine List.pairwise_append.2 ⟨hpair, List.pairwise_singleton _ _, fun d hd c' hc' he => ?_⟩
        obtain rfl := List.mem_singleton.1 hc'
        rw [UInt64.le_iff_toNat_le, hres.offset, ← he]
        exact hnoted.behind d hd

/-- Three calls for split `a` behind the first go on behind its one record
taken. -/
theorem offsets_of_calls_with_faults :
    let made :=
      (Sample.ingestion.run Sample.faulty Sink.collecting () Sample.turns).shared.service.calls
    made.map (fun c => (c.split.name, c.offset)) =
        [("a", 0), ("a", 1), ("a", 1), ("a", 1), ("b", 0)] ∧
      (∀ c ∈ made, ∃ fs, fs <+: Sample.turns ∧
        Resumes Sample.ingestion.plan Sample.faulty
          (Sample.ingestion.run Sample.faulty Sink.collecting () fs).shared c) ∧
      made.Pairwise fun c d => c.split = d.split → c.offset ≤ d.offset := by
  intro made
  obtain ⟨made', hcalls, heach, -, hpair⟩ :=
    @offsets_of_calls _ _ Sink.collecting _ _ _ _ Sample.faulty () Sample.turns
      Sample.ofSession_session
  rw [show Sample.faulty.calls = [] from rfl, List.nil_append] at hcalls
  have hmade : made = made' := hcalls
  rw [← hmade] at heach hpair
  refine ⟨by decide +kernel, fun c hc => ?_, hpair⟩
  obtain ⟨k, hk⟩ := List.mem_iff_getElem?.1 hc
  obtain ⟨fs, e, hfs, -, -, hres⟩ := heach k c hk
  exact ⟨fs, (List.prefix_append _ _).trans hfs, hres⟩

end Intake
