import Intake.Proofs.Delivery
/-!
# Batches are handed out again

A reader tells the service where to go on by the number of rows it has
handed out. Behind a failure the service starts in front of the batches
without rows that stand there, so that those which were handed out before
the failure are handed out again. What a reader hands out is therefore the
batches of its split retold: in order, none left out, with nothing
repeated but such batches (`SplitReading.retold`). It is a beginning of the
script, whatever the faults, just when every batch of the script has rows
(`SplitReading.begins_iff`).
-/

namespace Intake

variable {o : ReadOptions} {running : Bool} {r r' : SplitReader} {src s s' s₁ : Service}
variable {st : Stream} {b : Batch} {g : Signal} {x : SplitId} {bs pre ys : List Batch}

/-! ## Retold batches -/

/-- What may be handed out of the batches `bs` on the way to a place
behind the first of them: the next batch, or one again once the place has
moved back in front of batches without rows. -/
inductive Retold (bs : List Batch) : List Batch → List Batch → Prop where
  | nil : Retold bs [] []
  | next {pre post ys : List Batch} {b : Batch} (h : Retold bs pre ys)
      (hb : bs = pre ++ b :: post) : Retold bs (pre ++ [b]) (ys ++ [b])
  | again {pre zeros ys : List Batch} (h : Retold bs (pre ++ zeros) ys)
      (hz : rowTotal zeros = 0) : Retold bs pre ys

theorem rowCount_eq_zero_of_rowTotal (h : rowTotal bs = 0) : ∀ b ∈ bs, b.rowCount = 0 := by
  induction bs with
  | nil => simp
  | cons b bs ih =>
    rw [rowTotal] at h
    rw [List.forall_mem_cons]
    exact ⟨UInt64.toNat_inj.1 (by simp; omega), ih (by omega)⟩

namespace Retold

/-- The place is one in the batches. -/
theorem begins (h : Retold bs pre ys) : pre <+: bs := by
  induction h with
  | nil => exact List.nil_prefix
  | next h hb ih =>
    rename_i pre post ys b
    exact ⟨post, by simp [hb]⟩
  | again h hz ih => exact (List.prefix_append _ _).trans ih

/-- No batch at all is left out. -/
theorem sublist (h : Retold bs pre ys) : pre.Sublist ys := by
  induction h with
  | nil => exact .slnil
  | next h hb ih => exact ih.append (.refl _)
  | again h hz ih => exact (List.sublist_append_left _ _).trans ih

/-- Batches that all have rows are handed out once. -/
theorem eq_of_rows (h : Retold bs pre ys) (hrows : ∀ b ∈ bs, b.rowCount ≠ 0) : ys = pre := by
  induction h with
  | nil => rfl
  | next h hb ih => rw [ih]
  | again h hz ih =>
    rename_i pre zeros ys
    have hnil : zeros = [] := by
      refine List.eq_nil_iff_forall_not_mem.2 fun b hb => ?_
      exact hrows b (h.begins.mem (List.mem_append_right _ hb))
        (rowCount_eq_zero_of_rowTotal hz b hb)
    rw [ih, hnil, List.append_nil]

end Retold

/-! ## Readers retell -/

/-- The batches of a split, none if the service does not know it. -/
def Service.batchesOf (s : Service) (x : SplitId) : List Batch := (s.script? x).getD []

theorem Service.batchesOf_eq (hx : s.script? x = some bs) : s.batchesOf x = bs := by
  rw [batchesOf, hx, Option.getD_some]

/-- A stream has the batches behind the rows that the call asks for. -/
theorem Service.skipRows_of_streamFor {c : ReadCall} {f : Option Fault}
    (h : s.streamFor c f = .ok st) :
    ∃ bs, s.script? c.split = some bs ∧ skipRows c.offset 0 bs = (c.offset, st.remaining) := by
  unfold streamFor at h
  split at h
  · cases h
  split at h
  · cases h
  rename_i bs hbs
  refine ⟨bs, hbs, ?_⟩
  dsimp only at h
  split at h
  · cases h
  · rename_i hoffset
    cases h
    exact Prod.ext (by simpa using hoffset) rfl

/-- And it is opened, unless a fault keeps it from that. -/
theorem Service.streamFor_of_skipRows {c : ReadCall} {rest : List Batch}
    (hx : s.script? c.split = some bs) (hskip : skipRows c.offset 0 bs = (c.offset, rest))
    (f : Option (Nat × TransportKind)) :
    s.streamFor c (f.map fun f => .afterBatches f.1 f.2) = .ok ⟨c.split, rest, 0, f⟩ := by
  cases f <;> simp [streamFor, hx, hskip]

theorem Service.exists_read {c : ReadCall}
    (h : s.streamFor c (s.faultsOf c.split).head? = .ok st) : ∃ s₁, s.read c = (s₁, .ok st) := by
  rw [read]
  dsimp only
  rw [h]
  exact ⟨_, rfl⟩

/-- The batch that a signal hands out. -/
def Signal.batch? : Signal → Option Batch
  | .batch b => some b
  | _ => none

namespace SplitReader

/-- What a reader has handed out of its split, by where it stands: behind
so many rows, with a stream of the batches that follow. -/
def Hands (src : Service) (r : SplitReader) (ys : List Batch) : Prop :=
  ∃ pre post, src.batchesOf r.split = pre ++ post ∧ Retold (src.batchesOf r.split) pre ys ∧
    r.rows.toNat = rowTotal pre ∧ ∀ st, r.stream = some st → st.remaining = post

theorem Hands.start (x : SplitId) : Hands src { split := x } [] :=
  ⟨[], _, rfl, .nil, rfl, by simp⟩

/-- A reader without a stream is behind the rows it has handed out. -/
theorem Hands.closed (h : r.Hands src ys) (hsplit : r'.split = r.split) (hrows : r'.rows = r.rows)
    (hst : r'.stream = none) : r'.Hands src ys := by
  obtain ⟨pre, post, hpre, hretold, hr, -⟩ := h
  exact ⟨pre, post, by rw [hsplit, hpre], by rw [hsplit]; exact hretold, by rw [hrows, hr],
    by simp [hst]⟩

/-- **A call goes on from the rows handed out**, and so may move the reader
back in front of batches without rows. -/
theorem Hands.opens (h : r.Hands src ys) (hs : s.scripts = src.scripts) (ho : Opens o r s s₁ st) :
    ∃ pre, src.batchesOf r.split = pre ++ st.remaining ∧ Retold (src.batchesOf r.split) pre ys ∧
      r.rows.toNat = rowTotal pre := by
  obtain ⟨pre, post, hpre, hretold, hrows, hst⟩ := h
  cases ho with
  | held hr =>
    obtain rfl := hst st hr
    exact ⟨pre, hpre, hretold, hrows⟩
  | called hr hc =>
    obtain ⟨-, hfor⟩ := Service.read_eq hc
    rw [Service.streamFor_congr hs] at hfor
    obtain ⟨bs, hbs, hremaining⟩ := Service.skipRows_of_streamFor hfor
    change src.script? r.split = some bs at hbs
    rw [Service.batchesOf_eq hbs] at hpre hretold ⊢
    obtain ⟨front, zeros, rfl, hz, hskip⟩ :=
      skipRows_append post (show r.rows.toNat = (0 : UInt64).toNat + rowTotal pre by simp [hrows])
    change skipRows r.rows 0 bs = (r.rows, st.remaining) at hremaining
    rw [← hpre, hremaining] at hskip
    refine ⟨front, ?_, .again hretold hz, by rw [hrows, rowTotal_append, hz, Nat.add_zero]⟩
    rw [(Prod.mk.inj hskip).2, ← List.append_assoc]
    exact hpre

/-- **A step hands out the next batch of the split, or nothing.** -/
theorem Hands.of_moves (h : r.Hands src ys) (hs : s.scripts = src.scripts)
    (hrows : rowTotal (src.batchesOf r.split) < UInt64.size)
    (hm : Moves o running r s r' s' g) : r'.Hands src (ys ++ g.batch?.toList) := by
  have hnil : r'.Hands src ys → r'.Hands src (ys ++ []) := by
    rw [List.append_nil]
    exact id
  cases hm with
  | through hr => exact hnil h
  | look hr hrun => exact hnil h
  | resume hr hrun => exact hnil h
  | interrupt hr hrun => exact hnil (h.closed rfl rfl rfl)
  | retry hr hf ht hb => exact hnil (h.closed rfl rfl rfl)
  | fail hr hf hb => exact hnil (h.closed rfl rfl rfl)
  | finish hr ho hn => exact hnil (h.closed rfl rfl rfl)
  | batch hr ho hn hfits =>
    rename_i st st' b
    obtain ⟨pre, hpre, hretold, htotal⟩ := h.opens hs ho
    rw [(Stream.next_eq_batch hn).1] at hpre
    refine ⟨pre ++ [b], st'.remaining, by simpa using hpre, .next hretold hpre, ?_, ?_⟩
    · rw [UInt64.toNat_add, Nat.mod_eq_of_lt hfits, htotal, rowTotal_append, rowTotal, rowTotal,
        Nat.add_zero]
    · intro st hst
      rw [← Option.some.inj hst]
  | panic hr ho hn hover =>
    -- the rows of the whole split can be counted
    obtain ⟨pre, hpre, -, htotal⟩ := h.opens hs ho
    rw [(Stream.next_eq_batch hn).1] at hpre
    rw [hpre, rowTotal_append, rowTotal] at hrows
    exact absurd (show r.CanCount _ by rw [CanCount]; omega) hover

/-- A batch that a reader yields stands behind those of which the ones
handed out before are told. -/
theorem Hands.front (h : r.Hands src ys) (hs : s.scripts = src.scripts)
    (hm : Moves o running r s r' s' (.batch b)) :
    ∃ pre post, src.batchesOf r.split = pre ++ b :: post ∧
      Retold (src.batchesOf r.split) pre ys := by
  cases hm with
  | batch hr ho hn =>
    obtain ⟨pre, hpre, hretold, -⟩ := h.opens hs ho
    rw [(Stream.next_eq_batch hn).1] at hpre
    exact ⟨pre, _, hpre, hretold⟩

/-- A reader that finds the end of its stream has handed out all batches. -/
theorem Hands.ended (h : r.Hands src ys) (hs : s.scripts = src.scripts) (ho : Opens o r s s₁ st)
    (hn : st.next = .ok none) :
    Retold (src.batchesOf r.split) (src.batchesOf r.split) ys := by
  obtain ⟨pre, hpre, hretold, -⟩ := h.opens hs ho
  rw [Stream.next_eq_end hn, List.append_nil] at hpre
  rw [hpre] at hretold ⊢
  exact hretold

end SplitReader

/-! ## Reading a split alone -/

/-- Whether a signal tells of a batch that was not to be had: by a failure,
or because its rows could not be counted. -/
def Signal.isLoss : Signal → Bool
  | .failed _ | .panicked => true
  | _ => false

/-- A reader, the service it calls, and what it has yielded. -/
structure SplitReading where
  reader : SplitReader
  service : Service
  signals : List Signal := []

namespace SplitReading

/-- The reading of a split at its start. -/
def start (x : SplitId) (s : Service) : SplitReading := { reader := { split := x }, service := s }

/-- The reading after a step of the reader, in a run that goes on or has
stopped. -/
def step (o : ReadOptions) (z : SplitReading) (running : Bool) : SplitReading :=
  match z.reader.step o running z.service with
  | (r, s, g) => ⟨r, s, z.signals ++ [g]⟩

/-- The reading after so many steps, with whether the run goes on at each. -/
def run (o : ReadOptions) (z : SplitReading) (flags : List Bool) : SplitReading :=
  flags.foldl (step o) z

/-- The batches handed out. -/
def batches (z : SplitReading) : List Batch := z.signals.filterMap Signal.batch?

/-- Whether the reader has come to its end, without a loss and without an
interruption. -/
def isThrough (z : SplitReading) : Bool :=
  z.reader.stage == .done false && !z.signals.any Signal.isLoss

variable {z z' : SplitReading} {flags : List Bool}

theorem isThrough_eq_true_iff :
    z.isThrough = true ↔
      z.reader.stage = .done false ∧ ∀ g ∈ z.signals, g.isLoss = false := by
  simp [isThrough]

/-- A batch that is handed out stands behind those before. -/
theorem batches_concat (h : z'.signals = z.signals ++ [g]) :
    z'.batches = z.batches ++ g.batch?.toList := by
  rw [batches, batches, h, List.filterMap_append]
  cases g <;> rfl

theorem run_append (o : ReadOptions) (z : SplitReading) (fs gs : List Bool) :
    z.run o (fs ++ gs) = (z.run o fs).run o gs := List.foldl_append

/-- What a reading keeps: the scripts of the service, the split, and that
the batches handed out are those of the split retold. -/
structure Retells (src : Service) (x : SplitId) (z : SplitReading) : Prop where
  scripts : z.service.scripts = src.scripts
  split : z.reader.split = x
  hands : z.reader.Hands src z.batches
  through : z.isThrough = true →
    Retold (src.batchesOf x) (src.batchesOf x) z.batches

theorem Retells.start (x : SplitId) (s : Service) : Retells s x (start x s) :=
  ⟨rfl, rfl, .start x, nofun⟩

/-- **A step of a reading goes on retelling.** -/
theorem Retells.step (hrows : rowTotal (src.batchesOf x) < UInt64.size)
    (h : Retells src x z) (running : Bool) : Retells src x (z.step o running) := by
  obtain ⟨hs, rfl, hhands, hthrough⟩ := h
  rcases hstep : z.reader.step o running z.service with ⟨r, s, g⟩
  have hm := SplitReader.moves_of_step hstep
  have hz : z.step o running = ⟨r, s, z.signals ++ [g]⟩ := by rw [SplitReading.step, hstep]
  have hbatches : batches ⟨r, s, z.signals ++ [g]⟩ = z.batches ++ g.batch?.toList :=
    batches_concat rfl
  rw [hz]
  refine ⟨hm.scripts_eq.trans hs, hm.split_eq, ?_, fun hend => ?_⟩
  · rw [hbatches]
    exact hhands.of_moves hs hrows hm
  · rw [hbatches]
    obtain ⟨hdone, hnone⟩ := isThrough_eq_true_iff.1 hend
    dsimp only at hdone hnone
    rw [List.forall_mem_append] at hnone
    cases hm with
    | through hr =>
      simpa [Signal.batch?] using hthrough (isThrough_eq_true_iff.2 ⟨hdone, hnone.1⟩)
    | fail hr hf hb => simp [Signal.isLoss] at hnone
    | finish hr ho hn => simpa [Signal.batch?] using hhands.ended hs ho hn
    | interrupt hr hrun => simp [SplitReader.finish] at hdone
    | look hr hrun => cases hdone
    | resume hr hrun => cases hdone
    | retry hr hf ht hb => cases hdone
    | batch hr ho hn hfits => cases hdone
    | panic hr ho hn hover => cases hdone

theorem Retells.run (hrows : rowTotal (src.batchesOf x) < UInt64.size) (o : ReadOptions)
    (flags : List Bool) : Retells src x ((SplitReading.start x src).run o flags) := by
  induction flags using List.reverseRecOn with
  | nil => exact .start x src
  | append_singleton fs f ih =>
    rw [run_append]
    exact ih.step hrows f

/-- **A reading retells its split** at every moment, and all of it once it
is through. -/
theorem retold (hx : src.script? x = some bs) (hrows : rowTotal bs < UInt64.size)
    (o : ReadOptions) (flags : List Bool) :
    ∃ pre, Retold bs pre ((SplitReading.start x src).run o flags).batches ∧
      (((SplitReading.start x src).run o flags).isThrough = true → pre = bs) := by
  have hscript := Service.batchesOf_eq hx
  have h := Retells.run (by rwa [hscript]) o flags
  by_cases hend : ((SplitReading.start x src).run o flags).isThrough = true
  · have hall := h.through hend
    rw [hscript] at hall
    exact ⟨bs, hall, fun _ => rfl⟩
  · obtain ⟨pre, -, -, hretold, -⟩ := h.hands
    rw [h.split, hscript] at hretold
    exact ⟨pre, hretold, fun h => absurd h hend⟩

/-! ## Batches without rows come twice -/

/-- A fetch that opens a stream is one from the stream itself. -/
theorem step_of_read (hr : z.reader.stage = .fetching) (hst : z.reader.stream = none)
    (hc : z.service.read (z.reader.call o) = (s₁, .ok st)) (running : Bool) :
    z.step o running = step o ⟨{ z.reader with stream := some st }, s₁, z.signals⟩ running := by
  simp only [step, SplitReader.step, hr, hst, hc]
  rfl

/-- So it is with more steps behind it. -/
theorem run_of_read (hr : z.reader.stage = .fetching) (hst : z.reader.stream = none)
    (hc : z.service.read (z.reader.call o) = (s₁, .ok st)) (hf : flags ≠ []) :
    z.run o flags = run o ⟨{ z.reader with stream := some st }, s₁, z.signals⟩ flags := by
  cases flags with
  | nil => exact absurd rfl hf
  | cons f fs =>
    rw [run, run, List.foldl_cons, List.foldl_cons, step_of_read hr hst hc]

variable {as rest : List Batch} {n k : Nat} {kind : TransportKind}

/-- A reader that fetches from a stream hands out what the stream has in
front of its fault. -/
theorem run_fetching {rows : UInt64} (hk : n + as.length ≤ k)
    (hfit : rows.toNat + rowTotal as < UInt64.size) (s : Service) (gs : List Signal) :
    ∃ rows' gs',
      run o ⟨⟨x, some ⟨x, as ++ rest, n, some (k, kind)⟩, rows, 0, .fetching⟩, s, gs⟩
          (List.replicate (2 * as.length) true) =
        ⟨⟨x, some ⟨x, rest, n + as.length, some (k, kind)⟩, rows', 0, .fetching⟩, s, gs'⟩ ∧
      gs'.filterMap Signal.batch? = gs.filterMap Signal.batch? ++ as := by
  induction as generalizing n rows gs with
  | nil => exact ⟨rows, gs, rfl, by simp⟩
  | cons b as ih =>
    rw [List.length_cons] at hk
    rw [rowTotal, UInt64.size] at hfit
    have hn : n ≠ k := by omega
    have hrows : (rows + b.rowCount).toNat = rows.toNat + b.rowCount.toNat := by
      rw [UInt64.toNat_add, Nat.mod_eq_of_lt (by omega)]
    have hcounts : rows.toNat + b.rowCount.toNat < UInt64.size := by
      rw [UInt64.size]
      omega
    have hk' : n + 1 + as.length ≤ k := by omega
    have hfit' : (rows + b.rowCount).toNat + rowTotal as < UInt64.size := by
      rw [hrows, UInt64.size]
      omega
    obtain ⟨rows', gs', hrun, hbatches⟩ := ih hk' hfit' (gs ++ [.batch b] ++ [.working])
    refine ⟨rows', gs', ?_, by simp [hbatches, Signal.batch?]⟩
    rw [List.length_cons, Nat.mul_succ, List.replicate_succ, List.replicate_succ]
    rw [show n + (as.length + 1) = n + 1 + as.length by omega, ← hrun]
    have hnext : Stream.next ⟨x, b :: (as ++ rest), n, some (k, kind)⟩ =
        .ok (some (b, ⟨x, as ++ rest, n + 1, some (k, kind)⟩)) :=
      (Stream.next_off_fault (by simp [hn.symm]) x).2 b (as ++ rest)
    simp [run, step, SplitReader.step, SplitReader.pull, hnext, SplitReader.CanCount, hcounts]

/-- At the fault it makes another attempt. -/
theorem run_fault (ht : kind.isTransient = true) (ho : 0 < o.maxRetries.toNat) (rows : UInt64)
    (s : Service) (gs : List Signal) :
    run o ⟨⟨x, some ⟨x, rest, k, some (k, kind)⟩, rows, 0, .fetching⟩, s, gs⟩ [true, true, true] =
      ⟨⟨x, none, rows, 1, .fetching⟩, s.release, gs ++ [.working, .working, .working]⟩ := by
  simp [run, step, SplitReader.step, SplitReader.pull, Stream.next_at_fault,
    SplitReader.onFailure, TransportError.isTransient, ht, ho]

/-- A service with one split, whose first stream fails behind `k` batches. -/
def interrupting (x : SplitId) (bs : List Batch) (k : Nat) : Service :=
  { scripts := [(x, bs)], faults := [(x, [.afterBatches k .network])] }

theorem script?_interrupting : (interrupting x bs k).script? x = some bs := by
  simp [interrupting, Service.script?]

theorem faultsOf_interrupting :
    (interrupting x bs k).faultsOf x = [.afterBatches k .network] := by
  simp [interrupting, Service.faultsOf]

/-- Up to the fault the batches in front of it are handed out. -/
theorem run_interrupting (hbs : bs = as ++ rest) (has : as ≠ [])
    (hrows : rowTotal as < UInt64.size) :
    ∃ rows s gs,
      (SplitReading.start x (interrupting x bs as.length)).run o
          (true :: List.replicate (2 * as.length) true) =
        ⟨⟨x, some ⟨x, rest, as.length, some (as.length, .network)⟩, rows, 0, .fetching⟩, s, gs⟩ ∧
      gs.filterMap Signal.batch? = as ∧ s.faultsOf x = [] := by
  let r : SplitReader := ⟨x, none, 0, 0, .fetching⟩
  have hskip : skipRows 0 0 bs = (0, bs) := by cases bs <;> simp [skipRows]
  obtain ⟨s, hread⟩ : ∃ s, (interrupting x bs as.length).read (r.call o) =
      (s, .ok ⟨x, bs, 0, some (as.length, .network)⟩) := by
    refine Service.exists_read ?_
    change Service.streamFor _ _ ((interrupting x bs as.length).faultsOf x).head? = _
    rw [faultsOf_interrupting]
    exact Service.streamFor_of_skipRows script?_interrupting hskip (some (as.length, .network))
  have hfaults := Service.faultsOf_read_self hread
  rw [show (r.call o).split = x from rfl, faultsOf_interrupting] at hfaults
  have hflags : List.replicate (2 * as.length) true ≠ [] := by
    have := List.length_pos_iff.2 has
    rw [ne_eq, List.replicate_eq_nil_iff]
    omega
  have hfetch : run o ⟨r, interrupting x bs as.length, [.working]⟩
        (List.replicate (2 * as.length) true) =
      run o ⟨⟨x, some ⟨x, as ++ rest, 0, some (as.length, .network)⟩, 0, 0, .fetching⟩, s,
        [.working]⟩ (List.replicate (2 * as.length) true) := by
    rw [← hbs]
    exact run_of_read rfl rfl hread hflags
  have hk := Nat.le_of_eq (Nat.zero_add as.length)
  have hfit : (0 : UInt64).toNat + rowTotal as < UInt64.size := by simpa using hrows
  obtain ⟨rows, gs, hrun, hgs⟩ := run_fetching hk hfit s [.working]
  refine ⟨rows, s, gs, ?_, hgs, hfaults⟩
  rw [Nat.zero_add] at hrun
  exact hfetch.trans hrun

/-- Behind batches that all have rows a call goes on from where they end. -/
theorem skipRows_of_rows {rows : UInt64} (h : ∀ b ∈ as, b.rowCount ≠ 0)
    (hrows : rows.toNat = rowTotal as) : skipRows rows 0 (as ++ rest) = (rows, rest) := by
  obtain ⟨front, zeros, rfl, hz, hskip⟩ :=
    skipRows_append rest (show rows.toNat = (0 : UInt64).toNat + rowTotal as by simp [hrows])
  have hnil : zeros = [] := List.eq_nil_iff_forall_not_mem.2 fun b hb =>
    h b (List.mem_append_right _ hb) (rowCount_eq_zero_of_rowTotal hz b hb)
  rw [hskip, hnil, List.nil_append]

/-- **Batches without rows in front of a fault are handed out again**: what
is handed out goes on with the first of them. -/
theorem exists_again {front zeros back : List Batch} (hbs : bs = front ++ b :: zeros ++ back)
    (hrows : rowTotal bs < UInt64.size) (hfront : ∀ b ∈ front, b.rowCount ≠ 0)
    (hz : rowTotal (b :: zeros) = 0) (ho : 0 < o.maxRetries.toNat) :
    ∃ src flags, src.script? x = some bs ∧
      ((SplitReading.start x src).run o flags).batches = front ++ b :: zeros ++ [b] := by
  have hbegin : rowTotal (front ++ b :: zeros) < UInt64.size := by
    rw [hbs, rowTotal_append] at hrows
    omega
  obtain ⟨rows, s, gs, hrun, hgs, hfaults⟩ :=
    run_interrupting (o := o) (x := x) hbs (List.append_ne_nil_of_right_ne_nil _ (by simp)) hbegin
  -- the reader is behind the rows of `front`, the batches at the fault having none
  have hscript : (interrupting x bs (front ++ b :: zeros).length).script? x = some bs :=
    script?_interrupting
  have hretells := Retells.run (x := x) (by rwa [Service.batchesOf_eq hscript]) o
    (true :: List.replicate (2 * (front ++ b :: zeros).length) true)
  rw [hrun] at hretells
  obtain ⟨pre, post, hpre, -, htotal, hst⟩ := hretells.hands
  obtain rfl := hst _ rfl
  change Service.batchesOf _ x = pre ++ back at hpre
  rw [Service.batchesOf_eq hscript, hbs, List.append_left_inj] at hpre
  change rows.toNat = rowTotal pre at htotal
  rw [← hpre, rowTotal_append, hz, Nat.add_zero] at htotal
  -- so that the next call goes on in front of them
  obtain ⟨s', hread⟩ : ∃ s', s.release.read (SplitReader.call o ⟨x, none, rows, 1, .fetching⟩) =
      (s', .ok ⟨x, b :: zeros ++ back, 0, none⟩) := by
    refine Service.exists_read ?_
    have hx : s.release.script? x = some bs :=
      (Service.script?_congr hretells.scripts x).trans hscript
    change Service.streamFor _ _ (s.faultsOf x).head? = _
    rw [hfaults]
    refine Service.streamFor_of_skipRows hx ?_ none
    rw [hbs, List.append_assoc]
    exact skipRows_of_rows hfront htotal
  have hfetch : run o ⟨⟨x, none, rows, 1, .fetching⟩, s.release,
        gs ++ [.working, .working, .working]⟩ [true] =
      run o ⟨⟨x, some ⟨x, b :: zeros ++ back, 0, none⟩, rows, 1, .fetching⟩, s',
        gs ++ [.working, .working, .working]⟩ [true] :=
    run_of_read rfl rfl hread (List.cons_ne_nil _ _)
  refine ⟨interrupting x bs (front ++ b :: zeros).length,
    (true :: List.replicate (2 * (front ++ b :: zeros).length) true) ++
      ([true, true, true] ++ [true]), hscript, ?_⟩
  rw [run_append, run_append, hrun, run_fault rfl ho, hfetch]
  have hnext : Stream.next ⟨x, b :: (zeros ++ back), 0, none⟩ =
      .ok (some (b, ⟨x, zeros ++ back, 1, none⟩)) := by simp [Stream.next]
  have hcounts : rows.toNat + b.rowCount.toNat < UInt64.size := by
    rw [rowTotal_append] at hbegin
    rw [rowTotal] at hbegin
    omega
  simp [run, step, SplitReader.step, SplitReader.pull, hnext, SplitReader.CanCount, hcounts,
    batches, Signal.batch?, hgs, List.filterMap_cons]

/-- The batches without rows in front, up to one that has rows. -/
theorem exists_zeros (bs : List Batch) :
    ∃ zeros back, bs = zeros ++ back ∧ rowTotal zeros = 0 ∧
      ∀ b, back.head? = some b → b.rowCount ≠ 0 := by
  induction bs with
  | nil => exact ⟨[], [], rfl, rfl, by simp⟩
  | cons b bs ih =>
    by_cases hb : b.rowCount = 0
    · obtain ⟨zeros, back, rfl, hz, hback⟩ := ih
      exact ⟨b :: zeros, back, rfl, by simp [rowTotal, hb, hz], hback⟩
    · exact ⟨[], b :: bs, rfl, rfl, by simpa using hb⟩

/-- **What is handed out begins the script, whatever happens, just when
every batch has rows.** -/
theorem begins_iff (x : SplitId) (hrows : rowTotal bs < UInt64.size) :
    (∀ src o flags, src.script? x = some bs →
      ((SplitReading.start x src).run o flags).batches <+: bs ∧
        (((SplitReading.start x src).run o flags).isThrough = true →
          ((SplitReading.start x src).run o flags).batches = bs)) ↔
      ∀ b ∈ bs, b.rowCount ≠ 0 := by
  constructor
  · intro h b hb hzero
    obtain ⟨c, hc⟩ := Option.isSome_iff_exists.1
      (List.find?_isSome.2 ⟨b, hb, beq_iff_eq.2 hzero⟩ : (bs.find? fun b => b.rowCount == 0).isSome)
    obtain ⟨hc, front, rest, hbs, hfront⟩ := List.find?_eq_some_iff_append.1 hc
    obtain ⟨zeros, back, rfl, hz, hback⟩ := exists_zeros rest
    have hbs' : bs = front ++ c :: zeros ++ back := by simpa using hbs
    have hc : c.rowCount = 0 := by simpa using hc
    obtain ⟨src, flags, hx, hbatches⟩ := exists_again (o := {}) (x := x) hbs' hrows
      (fun b hb => by simpa using hfront b hb) (by simp [rowTotal, hc, hz]) (by decide)
    have hprefix := (h src {} flags hx).1
    rw [hbatches, hbs', List.prefix_append_right_inj] at hprefix
    obtain ⟨back', rfl⟩ := hprefix
    exact hback c rfl hc
  · intro h src o flags hx
    obtain ⟨pre, hretold, hall⟩ := retold hx hrows o flags
    rw [hretold.eq_of_rows h]
    exact ⟨hretold.begins, hall⟩

end SplitReading

end Intake
