import Intake.Proofs.Budget
/-!
# Splits read alone

What a reader does depends on its split alone: on the batches the service
has for it, on the faults queued for it, and on nothing that was called for
another (`SplitReader.Moves.sameOn`). So whatever else a run does meanwhile,
a reader that nobody stops takes the steps that it takes in a reading of
its own (`SplitReader.Retraces.step`).

The main statement: a reading that comes to its end always comes to the
same one, with the same batches and the same calls
(`SplitReading.eq_of_isDone`). So it makes sense to say of a split that it
can be read through (`Plan.ReadsThrough`).
-/

namespace Intake

variable {o : ReadOptions} {running : Bool} {r r' : SplitReader}
variable {src s s' s₁ t t' : Service} {st : Stream} {e : TransportError} {g : Signal}
variable {x : SplitId} {c : ReadCall} {n m : Nat}

/-! ## What a split tells of a service -/

namespace Service

/-- Two services that are alike as far as a split goes: in the batches they
have for it, the faults queued for it and the calls made for it. -/
structure SameOn (x : SplitId) (s t : Service) : Prop where
  script : t.script? x = s.script? x
  faults : t.faultsOf x = s.faultsOf x
  calls : callsFor x t.calls = callsFor x s.calls

namespace SameOn

theorem refl (x : SplitId) (s : Service) : s.SameOn x s := ⟨rfl, rfl, rfl⟩

theorem symm (h : s.SameOn x t) : t.SameOn x s :=
  ⟨h.script.symm, h.faults.symm, h.calls.symm⟩

theorem trans (h : s.SameOn x t) (h' : t.SameOn x t') : s.SameOn x t' :=
  ⟨h'.script.trans h.script, h'.faults.trans h.faults, h'.calls.trans h.calls⟩

/-- Streams that are given back make no difference. -/
theorem release (h : s.SameOn x t) : s.release.SameOn x t.release :=
  ⟨h.script, h.faults, h.calls⟩

end SameOn

/-- Services that differ in their streams alone are the same on every
split. -/
theorem Alike.sameOn (h : s.Alike s') (x : SplitId) : s.SameOn x s' :=
  ⟨script?_congr h.scripts x, h.faultsOf_eq x, congrArg (callsFor x) h.calls⟩

/-- **A call is answered by what the service has for its split.** -/
theorem SameOn.read {a : Except TransportError Stream} (h : s.SameOn c.split t)
    (hc : s.read c = (s₁, a)) : ∃ t₁, t.read c = (t₁, a) ∧ s₁.SameOn c.split t₁ := by
  obtain ⟨hnote, hfor⟩ := read_eq hc
  have hsame : t.streamFor c (t.faultsOf c.split).head? = a := by
    rw [h.faults, ← hfor]
    unfold streamFor
    rw [h.script]
  have hanswer : t.streamFor c (t.faultsOf c.split).head? = (t.read c).2 := (read_eq rfl).2
  have hread : t.read c = ((t.read c).1, a) := Prod.ext rfl (hanswer.symm.trans hsame)
  refine ⟨_, hread, ?_, ?_, ?_⟩
  · rw [script?_congr (scripts_read t c), h.script, ← script?_congr (scripts_read s c), hc]
  · rw [faultsOf_read_self hread, faultsOf_read_self hc, h.faults]
  · rw [(read_eq hread).1.calls, hnote.calls, calls_note, calls_note, callsFor_append,
      callsFor_append, h.calls]

end Service

namespace SplitReader

theorem Opens.sameOn (h : Opens o r s s₁ st) (ht : s.SameOn r.split t) :
    ∃ t₁, Opens o r t t₁ st ∧ s₁.SameOn r.split t₁ := by
  cases h with
  | held hst => exact ⟨t, .held hst, ht⟩
  | called hst hc =>
    obtain ⟨t₁, hread, hsame⟩ := Service.SameOn.read (c := r.call o) ht hc
    exact ⟨t₁, .called hst hread, hsame⟩

theorem Fails.sameOn (h : Fails o r s s₁ e) (ht : s.SameOn r.split t) :
    ∃ t₁, Fails o r t t₁ e ∧ s₁.SameOn r.split t₁ := by
  cases h with
  | call hst hc =>
    obtain ⟨t₁, hread, hsame⟩ := Service.SameOn.read (c := r.call o) ht hc
    exact ⟨t₁, .call hst hread, hsame⟩
  | stream ho hn =>
    obtain ⟨t₁, ho', hsame⟩ := ho.sameOn ht
    exact ⟨t₁.release, .stream ho' hn, hsame.release⟩

/-- **A step of a reader depends on its split alone**, and unless it ends
the reader because the run has stopped, it is one of a run that goes on. -/
theorem Moves.sameOn (h : Moves o running r s r' s' g) (hi : r'.interrupted = false)
    (ht : s.SameOn r.split t) :
    ∃ t', Moves o true r t r' t' g ∧ s'.SameOn r.split t' := by
  cases h with
  | through hr => exact ⟨t, .through hr, ht⟩
  | look hr hrun => exact ⟨t, .look hr rfl, ht⟩
  | resume hr hrun => exact ⟨t, .resume hr rfl, ht⟩
  | interrupt hr hrun => cases hi
  | retry hr hf htransient hb =>
    obtain ⟨t₁, hf', hsame⟩ := hf.sameOn ht
    exact ⟨t₁, .retry hr hf' htransient hb, hsame⟩
  | fail hr hf hb =>
    obtain ⟨t₁, hf', hsame⟩ := hf.sameOn ht
    exact ⟨t₁, .fail hr hf' hb, hsame⟩
  | batch hr ho hn hfits =>
    obtain ⟨t₁, ho', hsame⟩ := ho.sameOn ht
    exact ⟨t₁, .batch hr ho' hn hfits, hsame⟩
  | panic hr ho hn hover =>
    obtain ⟨t₁, ho', hsame⟩ := ho.sameOn ht
    exact ⟨t₁, .panic hr ho' hn hover, hsame⟩
  | finish hr ho hn =>
    obtain ⟨t₁, ho', hsame⟩ := ho.sameOn ht
    exact ⟨t₁.release, .finish hr ho' hn, hsame.release⟩

/-- A reader that goes on was not interrupted. -/
theorem interrupted_eq_false (h : ∀ i, r.stage ≠ .done i) : r.interrupted = false := by
  simpa [interrupted] using h true

end SplitReader

/-! ## Readings that nobody stops -/

namespace SplitReading

/-- The reading of a split in a run that goes on, after so many steps. -/
def alone (o : ReadOptions) (src : Service) (x : SplitId) (n : Nat) : SplitReading :=
  (start x src).run o (List.replicate n true)

theorem alone_succ (o : ReadOptions) (src : Service) (x : SplitId) (n : Nat) :
    alone o src x (n + 1) = (alone o src x n).step o true := by
  rw [alone, List.replicate_succ', run_append]
  rfl

/-- The signals so far stand in front of those that follow. -/
theorem signals_alone_begins (h : n ≤ m) :
    (alone o src x n).signals <+: (alone o src x m).signals := by
  induction h with
  | refl => exact List.prefix_rfl
  | step _ ih =>
    rw [alone_succ]
    exact ih.trans (List.prefix_append _ _)

/-- Behind its end a reading says again that it has ended, and that is
all. -/
theorem alone_of_isDone (hdone : (alone o src x n).isDone = true) (h : n ≤ m) :
    alone o src x m =
      { alone o src x n with
        signals := (alone o src x n).signals ++ List.replicate (m - n) .ended } := by
  obtain ⟨k, rfl⟩ := Nat.exists_eq_add_of_le h
  have hrun := run_of_isDone hdone o (List.replicate k true)
  rw [alone, ← run_append, List.replicate_append_replicate, List.length_replicate] at hrun
  rw [Nat.add_sub_cancel_left]
  exact hrun

theorem isDone_of_isThrough {z : SplitReading} (h : z.isThrough = true) : z.isDone = true := by
  obtain ⟨hstage, -⟩ := isThrough_eq_true_iff.1 h
  simp [isDone, hstage]

/-- **A reading comes to one end**: with the same batches, and with a
service that noted the same. -/
theorem eq_of_isDone (hn : (alone o src x n).isDone = true)
    (hm : (alone o src x m).isDone = true) :
    (alone o src x m).batches = (alone o src x n).batches ∧
      (alone o src x m).service = (alone o src x n).service := by
  have hnone : ∀ k, (List.replicate k Signal.ended).filterMap Signal.batch? = [] := fun k =>
    List.filterMap_eq_nil_iff.2 fun g hg => by rw [List.eq_of_mem_replicate hg]; rfl
  rcases Nat.le_total n m with h | h
  · rw [alone_of_isDone hn h]
    exact ⟨by simp [batches, hnone], rfl⟩
  · rw [alone_of_isDone hm h]
    exact ⟨by simp [batches, hnone], rfl⟩

/-- All that a reading ever tells it has told by its end. -/
theorem mem_signals_of_isDone (hm : (alone o src x m).isDone = true)
    (hg : g ∈ (alone o src x n).signals) : g ∈ (alone o src x m).signals ∨ g = .ended := by
  rcases Nat.le_total n m with h | h
  · exact .inl ((signals_alone_begins h).subset hg)
  · rw [alone_of_isDone hm h] at hg
    exact (List.mem_append.1 hg).imp_right List.eq_of_mem_replicate

/-- A reader that goes on and has not panicked lost nothing. -/
theorem isLoss_of_live (h : ∀ i, (alone o src x n).reader.stage ≠ .done i)
    (hcalm : .panicked ∉ (alone o src x n).signals) :
    ∀ g ∈ (alone o src x n).signals, g.isLoss = false := by
  obtain ⟨made, hacc⟩ := exists_accounts o src x (List.replicate n true)
  have hspends := hacc.spends
  change (alone o src x n).reader.Spends o _ (alone o src x n).signals at hspends
  generalize (alone o src x n).signals = gs at hspends hcalm ⊢
  cases hspends with
  | live hr hn hgs =>
    intro g hg
    have hlast := hgs g hg
    cases g with
    | failed f => cases hlast
    | panicked => exact absurd hg hcalm
    | _ => rfl
  | ended hr hn hgs => exact absurd hr (h _)
  | failed hr hn he hgs => exact absurd hr (h _)

end SplitReading

open SplitReading

/-! ## Splits that can be read through -/

namespace Plan

variable {p : Plan} {b : Batch} {bs : List Batch} {xs : List Record}

/-- Batches that are decoded are decoded one by one. -/
theorem exists_decode_of_mem (h : p.decoded? bs = some xs) (hb : b ∈ bs) :
    ∃ ys, p.codec.decode p.layout b = .ok ys := by
  obtain ⟨pre, post, rfl⟩ := List.append_of_mem hb
  obtain ⟨-, zs, -, hz, -⟩ := decoded?_append_eq_some.1 h
  obtain ⟨ys, -, hy, -⟩ := decoded?_cons_eq_some.1 hz
  exact ⟨ys, hy⟩

/-- A split that can be read through: its reading comes to an end without a
loss, and all batches it hands out can be decoded. -/
def ReadsThrough (p : Plan) (src : Service) (x : SplitId) : Prop :=
  ∃ n xs, (alone p.options src x n).isThrough = true ∧
    p.decoded? (alone p.options src x n).batches = some xs

/-- Its reading tells of no loss. -/
theorem ReadsThrough.isLoss_eq_false (h : p.ReadsThrough src x)
    (hg : g ∈ (alone p.options src x n).signals) : g.isLoss = false := by
  obtain ⟨m, xs, hthrough, -⟩ := h
  obtain ⟨-, hnone⟩ := isThrough_eq_true_iff.1 hthrough
  rcases mem_signals_of_isDone (isDone_of_isThrough hthrough) hg with hg | rfl
  · exact hnone g hg
  · rfl

/-- And no batch that cannot be decoded. -/
theorem ReadsThrough.decodes (h : p.ReadsThrough src x)
    (hb : .batch b ∈ (alone p.options src x n).signals) :
    ∃ ys, p.codec.decode p.layout b = .ok ys := by
  obtain ⟨m, xs, hthrough, hdec⟩ := h
  rcases mem_signals_of_isDone (isDone_of_isThrough hthrough) hb with hb | hb
  · exact exists_decode_of_mem hdec (List.mem_filterMap.2 ⟨_, hb, rfl⟩)
  · cases hb

end Plan

/-! ## Readers of a run -/

/-- A reader in a run, with its service, that has come where the reading of
its split comes in `n` steps, and has not panicked on the way. -/
structure SplitReader.Retraces (o : ReadOptions) (src : Service) (r : SplitReader) (s : Service)
    (n : Nat) : Prop where
  reader : (alone o src r.split n).reader = r
  service : (alone o src r.split n).service.SameOn r.split s
  calm : .panicked ∉ (alone o src r.split n).signals

/-- **A reader in a run takes the steps of a reading of its own**, until it
panics or the run stops it. -/
theorem SplitReader.Retraces.step (h : r.Retraces o src s n)
    (hm : Moves o running r s r' s' g) (hi : r'.interrupted = false) :
    (g ≠ .panicked → r'.Retraces o src s' (n + 1)) ∧
      (alone o src r.split (n + 1)).signals = (alone o src r.split n).signals ++ [g] := by
  obtain ⟨t, hmoves, hsame⟩ := hm.sameOn hi h.service.symm
  have hstep : alone o src r.split (n + 1) = ⟨r', t, (alone o src r.split n).signals ++ [g]⟩ := by
    rw [alone_succ, SplitReading.step, h.reader, hmoves.step_eq]
  refine ⟨fun hg => ⟨?_, ?_, ?_⟩, by rw [hstep]⟩
  · rw [hm.split_eq, hstep]
  · rw [hm.split_eq, hstep]
    exact hsame.symm
  · rw [hm.split_eq, hstep]
    simpa [h.calm] using hg.symm

end Intake
