import Intake.Proofs.Resumption
/-!
# What reading a split costs

A reader makes one call for each attempt: the first, and one for each
retry. So its calls can be counted by its retries and the stream it holds
(`SplitReader.spent`), at every moment and whatever the service answers.
Each step of a reader that is not at its end uses up a retry, or a batch
of the stream, or brings it nearer to a call, which bounds the steps.

The main statement, over all scripts, faults, options and moments at which
the run stops or not: a reader comes to its end within a number of steps
known in advance, makes one call more than the retries allowed at most,
fails at most once and then for good, and tells with its failure how many
calls it made (`SplitReading.within_budget`).
-/

namespace Intake

variable {o : ReadOptions} {running : Bool} {r r' : SplitReader} {src s s' s₁ : Service}
variable {e : TransportError} {g : Signal} {x : SplitId}

/-! ## Calls -/

namespace SplitReader

/-- The call a reader makes by its next step, if any. -/
def calling (o : ReadOptions) (r : SplitReader) : List ReadCall :=
  if r.callsNext then [r.call o] else []

theorem calling_of_ne_fetching (h : r.stage ≠ .fetching) (o : ReadOptions) : r.calling o = [] := by
  simp [calling, callsNext, h]

theorem split_of_mem_calling {c : ReadCall} (h : c ∈ r.calling o) : c.split = r.split := by
  unfold calling at h
  split at h
  · obtain rfl := List.mem_singleton.1 h
    rfl
  · cases h

theorem calls_noting (o : ReadOptions) (r : SplitReader) (s : Service) :
    (r.noting o s).calls = s.calls ++ r.calling o := by
  rw [noting, calling]
  split
  · exact Service.calls_note s _
  · exact (List.append_nil _).symm

/-- A step of a reader makes its call, and no other. -/
theorem Moves.calls_eq (h : Moves o running r s r' s' g) :
    s'.calls = s.calls ++ r.calling o :=
  h.alike.calls.trans (calls_noting o r s)

/-- How many calls a reader that goes on has made: one for each retry, and
one for the stream it holds. -/
def spent (r : SplitReader) : Nat := r.retries + r.stream.toList.length

theorem spent_eq_or (r : SplitReader) : r.spent = r.retries ∨ r.spent = r.retries + 1 := by
  unfold spent
  cases r.stream <;> simp

/-- Once the call of a fetch is made, it is one more than the retries. -/
theorem spent_of_fetching (hr : r.stage = .fetching) (o : ReadOptions) :
    r.spent + (r.calling o).length = r.retries + 1 := by
  unfold spent calling callsNext
  cases r.stream <;> simp [hr]

/-- A reader that goes on accounts for the call of its step. -/
theorem Moves.spent_eq (h : Moves o running r s r' s' g) (hg : g.isLast = false) :
    r'.spent = r.spent + (r.calling o).length := by
  cases h with
  | through hr => cases hg
  | interrupt hr hrun => cases hg
  | finish hr ho hn => cases hg
  | fail hr hfail hb => cases hg
  | look hr hrun => rw [calling_of_ne_fetching (by simp [hr])]; rfl
  | resume hr hrun => rw [calling_of_ne_fetching (by simp [hr])]; rfl
  | retry hr hfail ht hb => rw [spent_of_fetching hr o]; rfl
  | batch hr ho hn hfits => rw [spent_of_fetching hr o]; rfl
  | panic hr ho hn hover => rw [spent_of_fetching hr o]; rfl

/-- A failure tells the calls of its reader, and comes when no retry may
help. -/
theorem Moves.failed_eq {f : Failure} (h : Moves o running r s r' s' (.failed f)) :
    r' = r.finish false ∧ r.spent + (r.calling o).length = r.retries + 1 ∧
      ∃ e, f = .stream r.split (r.spent + (r.calling o).length) e ∧
        ¬ (e.isTransient = true ∧ r.retries < o.maxRetries.toNat) := by
  cases h with
  | fail hr hfail hb =>
    have hcalls := spent_of_fetching hr o
    exact ⟨rfl, hcalls, _, by rw [hcalls], hb⟩

/-- What is left of a stream behind its next batch is less than the reader
had in stock. -/
theorem Opens.length_lt {st st' : Stream} {b : Batch} (ho : Opens o r s s₁ st)
    (hn : st.next = .ok (some (b, st'))) : st'.remaining.length < Worker.stock s r := by
  have hlt := Worker.length_lt_of_next hn
  cases ho with
  | held hst => simpa [Worker.stock, hst] using hlt
  | called hst hc =>
    have hle : st.remaining.length ≤ ((s.script? r.split).getD []).length :=
      Worker.length_of_read hc
    simp only [Worker.stock, hst]
    omega

/-- No step goes beyond the retries allowed. -/
theorem Moves.retries_le (h : Moves o running r s r' s' g) (hr : r.retries ≤ o.maxRetries.toNat) :
    r'.retries ≤ o.maxRetries.toNat := by
  cases h with
  | retry hf _ ht hb => exact hb
  | _ => exact hr

end SplitReader

/-! ## Signals of a reading -/

/-- Whether a signal tells a failure. -/
def Signal.isFailed : Signal → Bool
  | .failed _ => true
  | _ => false

theorem Signal.isFailed_of_isLast (h : g.isLast = false) : g.isFailed = false := by
  cases g <;> simp_all [isLast, isFailed]

namespace SplitReader

/-- How the calls of a reader, `n` so far, and what it has yielded go
together. -/
inductive Spends (o : ReadOptions) (r : SplitReader) (n : Nat) : List Signal → Prop where
  | live {gs : List Signal} (hr : ∀ i, r.stage ≠ .done i) (hn : n = r.spent)
      (hgs : ∀ g ∈ gs, g.isLast = false) : Spends o r n gs
  | ended {gs : List Signal} {i : Bool} {k : Nat} (hr : r.stage = .done i)
      (hn : n = r.retries ∨ n = r.retries + 1) (hgs : ∀ g ∈ gs, g.isLast = false) :
      Spends o r n (gs ++ .ended :: List.replicate k .ended)
  | failed {gs : List Signal} {e : TransportError} {k : Nat} (hr : r.stage = .done false)
      (hn : n = r.retries + 1) (he : e.isTransient = false ∨ n = o.maxRetries.toNat + 1)
      (hgs : ∀ g ∈ gs, g.isLast = false) :
      Spends o r n (gs ++ .failed (.stream r.split n e) :: List.replicate k .ended)

variable {n : Nat} {gs : List Signal}

/-- **A step keeps the account of calls.** -/
theorem Spends.of_moves (h : r.Spends o n gs) (hle : r.retries ≤ o.maxRetries.toNat)
    (hm : Moves o running r s r' s' g) :
    r'.Spends o (n + (r.calling o).length) (gs ++ [g]) := by
  cases h with
  | ended hr hn hgs =>
    -- a reader at its end stays there
    obtain ⟨rfl, rfl⟩ : r = r' ∧ g = .ended := by
      cases hm <;> simp_all
    rw [calling_of_ne_fetching (by simp [hr]), List.append_assoc, List.cons_append,
      ← List.replicate_succ']
    exact .ended hr hn hgs
  | failed hr hn he hgs =>
    obtain ⟨rfl, rfl⟩ : r = r' ∧ g = .ended := by
      cases hm <;> simp_all
    rw [calling_of_ne_fetching (by simp [hr]), List.append_assoc, List.cons_append,
      ← List.replicate_succ']
    exact .failed hr hn he hgs
  | live hr hn hgs =>
    have hsnoc : g.isLast = false → ∀ g' ∈ gs ++ [g], g'.isLast = false := fun hg g' hg' => by
      rcases List.mem_append.1 hg' with h | h
      · exact hgs g' h
      · rwa [List.mem_singleton.1 h]
    cases g with
    | working =>
      exact .live (hm.live rfl) (by rw [hn, hm.spent_eq rfl]) (hsnoc rfl)
    | batch b =>
      exact .live (hm.live rfl) (by rw [hn, hm.spent_eq rfl]) (hsnoc rfl)
    | panicked =>
      exact .live (hm.live rfl) (by rw [hn, hm.spent_eq rfl]) (hsnoc rfl)
    | failed f =>
      obtain ⟨rfl, hcalls, e, rfl, hb⟩ := hm.failed_eq
      rw [← hn] at hcalls ⊢
      refine .failed (r := r.finish false) (k := 0) rfl hcalls ?_ hgs
      by_cases ht : e.isTransient = true
      · have hfull : ¬ r.retries < o.maxRetries.toNat := fun hlt => hb ⟨ht, hlt⟩
        exact .inr (by omega)
      · exact .inl (by simpa using ht)
    | ended =>
      cases hm with
      | through h => exact absurd h (hr _)
      | interrupt h hrun =>
        rw [calling_of_ne_fetching (by rcases h with h | h <;> simp [h])]
        exact .ended (k := 0) rfl (hn ▸ r.spent_eq_or) hgs
      | finish h ho hnext =>
        have hcalls := spent_of_fetching h o
        exact .ended (k := 0) rfl (.inr (by rw [hn]; exact hcalls)) hgs

end SplitReader

namespace SplitReading

variable {z : SplitReading} {made : List ReadCall} {flags : List Bool}

/-! ## The account of a reading -/

/-- What a reading of split `x` has spent, `made` being its calls. -/
structure Accounts (o : ReadOptions) (src : Service) (x : SplitId) (made : List ReadCall)
    (z : SplitReading) : Prop where
  scripts : z.service.scripts = src.scripts
  split : z.reader.split = x
  retries : z.reader.retries ≤ o.maxRetries.toNat
  calls : z.service.calls = src.calls ++ made
  asked : ∀ c ∈ made, c.split = x
  spends : z.reader.Spends o made.length z.signals

theorem Accounts.start (o : ReadOptions) (src : Service) (x : SplitId) :
    Accounts o src x [] (start x src) :=
  ⟨rfl, rfl, Nat.zero_le _, (List.append_nil _).symm, nofun, .live nofun rfl nofun⟩

theorem Accounts.step (h : Accounts o src x made z) (running : Bool) :
    Accounts o src x (made ++ z.reader.calling o) (z.step o running) := by
  rcases hstep : z.reader.step o running z.service with ⟨r, s, g⟩
  have hm := SplitReader.moves_of_step hstep
  rw [SplitReading.step, hstep]
  refine ⟨hm.scripts_eq.trans h.scripts, hm.split_eq.trans h.split, hm.retries_le h.retries, ?_,
    fun c hc => ?_, ?_⟩
  · rw [← List.append_assoc, ← h.calls]
    exact hm.calls_eq
  · rcases List.mem_append.1 hc with hc | hc
    · exact h.asked c hc
    · exact (SplitReader.split_of_mem_calling hc).trans h.split
  · rw [List.length_append]
    exact h.spends.of_moves h.retries hm

theorem exists_accounts (o : ReadOptions) (src : Service) (x : SplitId) (flags : List Bool) :
    ∃ made, Accounts o src x made ((SplitReading.start x src).run o flags) := by
  induction flags using List.reverseRecOn with
  | nil => exact ⟨[], .start o src x⟩
  | append_singleton fs f ih =>
    obtain ⟨made, h⟩ := ih
    rw [run_append]
    exact ⟨_, h.step f⟩

/-! ## Coming to an end -/

/-- Whether the reader is at its end. -/
def isDone (z : SplitReading) : Bool := z.reader.stage matches .done _

theorem stage_of_isDone (h : z.isDone = true) : ∃ i, z.reader.stage = .done i := by
  unfold isDone at h
  split at h
  · exact ⟨_, ‹_›⟩
  · cases h

/-- A reader at its end goes no further: it calls nobody, and says again
that it has ended. -/
theorem run_of_isDone (h : z.isDone = true) (o : ReadOptions) (more : List Bool) :
    z.run o more = { z with signals := z.signals ++ List.replicate more.length .ended } := by
  obtain ⟨i, hi⟩ := stage_of_isDone h
  induction more using List.reverseRecOn with
  | nil => simp [run]
  | append_singleton fs f ih =>
    rw [run_append, ih, List.length_append, List.length_singleton, List.replicate_succ',
      ← List.append_assoc]
    have hstep : z.reader.step o f z.service = (z.reader, z.service, .ended) :=
      (SplitReader.Moves.through hi).step_eq
    simp [run, step, hstep]

/-- How many steps a reading may still take before its reader is at its
end: each attempt left may go over the whole script. -/
def effort (o : ReadOptions) (src : Service) (x : SplitId) (z : SplitReading) : Nat :=
  (o.maxRetries.toNat - z.reader.retries) * (2 * (src.batchesOf x).length + 5) +
    2 * Worker.stock z.service z.reader + z.reader.rank

theorem effort_start_lt (o : ReadOptions) (src : Service) (x : SplitId) :
    effort o src x (start x src) <
      (o.maxRetries.toNat + 1) * (2 * (src.batchesOf x).length + 5) := by
  have hstock : Worker.stock src { split := x } = (src.batchesOf x).length + 1 := rfl
  rw [Nat.add_mul]
  simp only [effort, start, hstock, SplitReader.rank, Nat.sub_zero]
  omega

/-- **A step of a reader that is not at its end lessens the effort**, or
ends it. -/
theorem Accounts.effort_step_lt (h : Accounts o src x made z) (hdone : z.isDone = false)
    (running : Bool) :
    (z.step o running).isDone = true ∨ effort o src x (z.step o running) < effort o src x z := by
  rcases hstep : z.reader.step o running z.service with ⟨r, s, g⟩
  have hm := SplitReader.moves_of_step hstep
  have hz : z.step o running = ⟨r, s, z.signals ++ [g]⟩ := by rw [SplitReading.step, hstep]
  rw [hz]
  cases hm with
  | through hr => simp [isDone, hr] at hdone
  | interrupt hr hrun => exact .inl rfl
  | fail hr hf hb => exact .inl rfl
  | finish hr ho hn => exact .inl rfl
  | look hr hrun =>
    refine .inr ?_
    simp only [effort, SplitReader.rank, hr, Worker.stock]
    omega
  | resume hr hrun =>
    refine .inr ?_
    simp only [effort, SplitReader.rank, hr, Worker.stock]
    omega
  | retry hr hf ht hb =>
    -- the next attempt has the whole script before it, paid for by a retry
    refine .inr ?_
    have hscript : s.script? z.reader.split = src.script? x := by
      rw [h.split]
      exact Service.script?_congr ((SplitReader.moves_of_step hstep).scripts_eq.trans h.scripts) x
    have hstock : Worker.stock s { z.reader with
        stream := none, retries := z.reader.retries + 1, stage := .waiting } =
        (src.batchesOf x).length + 1 := by
      simp only [Worker.stock, hscript, Service.batchesOf]
    obtain ⟨k, hk⟩ : ∃ k, o.maxRetries.toNat - z.reader.retries = k + 1 :=
      ⟨o.maxRetries.toNat - z.reader.retries - 1, by omega⟩
    have hk' : o.maxRetries.toNat - (z.reader.retries + 1) = k := by omega
    simp only [effort, hstock, hk, hk', SplitReader.rank, hr, Nat.add_mul, Nat.one_mul]
    omega
  | batch hr ho hn hfits =>
    have hstock := ho.length_lt hn
    refine .inr ?_
    simp only [effort, SplitReader.rank, hr, Worker.stock] at hstock ⊢
    omega
  | panic hr ho hn hover =>
    have hstock := ho.length_lt hn
    refine .inr ?_
    simp only [effort, SplitReader.rank, hr, Worker.stock] at hstock ⊢
    omega

/-- A reading that has not come to its end has taken no more steps than
its effort at the start allows. -/
theorem effort_run (o : ReadOptions) (src : Service) (x : SplitId) (flags : List Bool)
    (h : ((start x src).run o flags).isDone = false) :
    effort o src x ((start x src).run o flags) + flags.length ≤ effort o src x (start x src) := by
  induction flags using List.reverseRecOn with
  | nil => exact Nat.le_refl _
  | append_singleton fs f ih =>
    rw [run_append] at h ⊢
    have hbefore : ((start x src).run o fs).isDone = false := by
      by_contra hc
      have hend := run_of_isDone (by simpa using hc) o [f]
      rw [hend] at h
      exact hc h
    obtain ⟨made, hacc⟩ := exists_accounts o src x fs
    have hlt : effort o src x (((start x src).run o fs).run o [f]) <
        effort o src x ((start x src).run o fs) :=
      (hacc.effort_step_lt hbefore f).resolve_left (by rw [Bool.not_eq_true]; exact h)
    have hle := ih hbefore
    rw [List.length_append, List.length_singleton]
    omega

/-! ## The budget -/

/-- What a reading of split `x` that has made the calls `made` keeps to. -/
structure WithinBudget (o : ReadOptions) (src : Service) (x : SplitId) (made : List ReadCall)
    (z : SplitReading) : Prop where
  calls : z.service.calls = src.calls ++ made
  asked : ∀ c ∈ made, c.split = x
  made_le : made.length ≤ o.maxRetries.toNat + 1
  retries_le : z.reader.retries ≤ o.maxRetries.toNat
  /-- a failure comes once, and nothing but the end behind it -/
  failed_last : ∀ before e after, z.signals = before ++ .failed e :: after →
    (∀ g ∈ before, g.isLast = false) ∧ ∀ g ∈ after, g = .ended
  /-- it tells the calls made, and comes when no retry may help -/
  failed : ∀ e, .failed e ∈ z.signals → z.isDone = true ∧
    ∃ err, e = .stream x made.length err ∧ made.length = z.reader.retries + 1 ∧
      (err.isTransient = false ∨ made.length = o.maxRetries.toNat + 1)
  interrupted : z.reader.interrupted = true → (∀ g ∈ z.signals, g.isFailed = false) ∧
    (made.length = z.reader.retries ∨ made.length = z.reader.retries + 1)

theorem Accounts.withinBudget (h : Accounts o src x made z) : WithinBudget o src x made z := by
  obtain ⟨-, rfl, hle, hcalls, hasked, hspends⟩ := h
  generalize hgs : z.signals = all at hspends
  cases hspends with
  | live hr hn hlast =>
    have hfailed : ∀ e, .failed e ∉ all := fun e he => by cases hlast _ he
    refine ⟨hcalls, hasked, ?_, hle, fun before e after heq => ?_, fun e he => ?_, fun hi => ?_⟩
    · rcases z.reader.spent_eq_or with h | h <;> omega
    · exact absurd (by simp [← hgs, heq]) (hfailed e)
    · exact absurd (hgs ▸ he) (hfailed e)
    · exact absurd (by simpa [SplitReader.interrupted] using hi) (hr true)
  | ended hr hn hlast =>
    have hfailed : ∀ g ∈ z.signals, g.isFailed = false := fun g hg => by
      rw [hgs, List.mem_append, List.mem_cons, List.mem_replicate] at hg
      rcases hg with hg | rfl | ⟨-, rfl⟩
      · exact Signal.isFailed_of_isLast (hlast g hg)
      · rfl
      · rfl
    refine ⟨hcalls, hasked, by omega, hle, fun before e after heq => ?_, fun e he => ?_,
      fun _ => ⟨hfailed, hn⟩⟩
    · cases hfailed (.failed e) (by simp [heq])
    · cases hfailed _ he
  | failed hr hn he hlast =>
    rename_i gs err k
    have hfailed : ∀ e, .failed e ∉ gs := fun e he => by cases hlast _ he
    refine ⟨hcalls, hasked, by omega, hle, fun before e after heq => ?_, fun e hmem => ?_,
      fun hi => ?_⟩
    · rw [hgs] at heq
      obtain ⟨rfl, -, rfl⟩ := (List.append_cons_inj_of_notMem (hfailed e)
        (fun h => by cases List.eq_of_mem_replicate h)).1 heq
      exact ⟨hlast, fun g => List.eq_of_mem_replicate⟩
    · rw [hgs, List.mem_append, List.mem_cons, List.mem_replicate] at hmem
      rcases hmem with h | h | ⟨-, h⟩
      · cases hlast _ h
      · exact ⟨by simp [isDone, hr], err, by simpa using h, hn, he⟩
      · cases h
    · simp [SplitReader.interrupted, hr] at hi

/-- **A reader keeps to its budget and comes to its end.** Whatever the
service answers and whenever the run stops: the reader makes one call more
than the retries allowed at most, and fails at most once, telling how many
calls it made; within a number of steps known in advance it is at its end;
and from there on it calls nobody and says that it has ended. -/
theorem within_budget (o : ReadOptions) (src : Service) (x : SplitId) (flags : List Bool) :
    (∃ made, WithinBudget o src x made ((start x src).run o flags)) ∧
      ((o.maxRetries.toNat + 1) * (2 * (src.batchesOf x).length + 5) ≤ flags.length →
        ((start x src).run o flags).isDone = true) ∧
      (((start x src).run o flags).isDone = true → ∀ more : List Bool,
        (start x src).run o (flags ++ more) =
          { (start x src).run o flags with
            signals := ((start x src).run o flags).signals ++
              List.replicate more.length .ended }) := by
  obtain ⟨made, hacc⟩ := exists_accounts o src x flags
  refine ⟨⟨made, hacc.withinBudget⟩, fun hlen => ?_, fun hdone more => ?_⟩
  · by_contra hc
    have hrun := effort_run o src x flags (by simpa using hc)
    have hstart := effort_start_lt o src x
    omega
  · rw [run_append]
    exact run_of_isDone hdone o more

end SplitReading

namespace Sample

/-- Split `a` has no batches, and the first two calls on it are refused. -/
def refusing : Service :=
  { scripts := [(⟨"a"⟩, [])], faults := [(⟨"a"⟩, [.onOpen .network, .onOpen .timeout])] }

end Sample

/-- Two calls that are refused are all that one retry allows: the failure
tells both, and whatever comes behind it there is no other call. -/
theorem SplitReading.within_budget_of_refusals :
    let o : ReadOptions := { maxRetries := 1 }
    let z := (start ⟨"a"⟩ Sample.refusing).run o (List.replicate 6 true)
    z.signals = [.working, .working, .working, .working,
        .failed (.stream ⟨"a"⟩ 2 ⟨.timeout, .openFault ⟨"a"⟩, none⟩), .ended] ∧
      (∃ made, WithinBudget o Sample.refusing ⟨"a"⟩ made z ∧ made.length = 2) ∧
      ∀ more, ((start ⟨"a"⟩ Sample.refusing).run o (List.replicate 6 true ++ more)).service =
        z.service := by
  intro o z
  have hsignals : z.signals = [.working, .working, .working, .working,
      .failed (.stream ⟨"a"⟩ 2 ⟨.timeout, .openFault ⟨"a"⟩, none⟩), .ended] := by decide
  obtain ⟨⟨made, hmade⟩, -, hstays⟩ := within_budget o Sample.refusing ⟨"a"⟩ (List.replicate 6 true)
  have hfailed : .failed (.stream ⟨"a"⟩ 2 ⟨.timeout, .openFault ⟨"a"⟩, none⟩) ∈ z.signals := by
    rw [hsignals]
    simp
  refine ⟨hsignals, ⟨made, hmade, ?_⟩, fun more => ?_⟩
  · obtain ⟨-, err, he, -⟩ := hmade.failed _ hfailed
    exact (Failure.stream.inj he).2.1.symm
  · rw [hstays (by decide) more]

end Intake
