import Intake.Proofs.Resumption
/-!
# What a call is served

A call tells the service behind how many rows of its split to go on. The
service walks over the batches of the split, adding up their rows, until it
has passed so many. The batches it walks over are the fewest that have so
many rows, or more of them, or they are all (`exists_skipRows`). So a stream
is opened just when some of the first batches have exactly these rows, and it
serves all others, those without rows at the seam among them, up to the fault
it was opened with (`Stream.served_of_fault`). Main statement: that is what
comes of a call that no fault keeps from opening a stream, and whatever comes
of a call, it is noted, takes the first fault of its split off the queue and
leaves scripts and other faults alone (`resumes_exactly`).
-/

namespace Intake

variable {s s' : Service} {c : ReadCall} {st st' : Stream} {x : SplitId}
variable {b : Batch} {bs pre post front rest : List Batch} {e : TransportError}
variable {skipped : UInt64} {n k : Nat} {kind : TransportKind}

/-! ## The first rows of a split -/

/-- The fewest batches in front of `bs` that have `n` rows. -/
structure Fewest (n : Nat) (bs pre : List Batch) : Prop where
  begins : pre <+: bs
  rows : rowTotal pre = n
  least : ∀ front, front <+: bs → rowTotal front = n → pre <+: front

/-- More batches have no fewer rows. -/
theorem rowTotal_mono (h : pre <+: bs) : rowTotal pre ≤ rowTotal bs := by
  obtain ⟨post, rfl⟩ := h
  rw [rowTotal_append]
  exact Nat.le_add_right _ _

/-- **The walk over batches.** It passes a batch only while the rows so far
are fewer than those asked for, and goes on as long as they are. Where the
rows of all batches fit into 64 bits, the sum of those passed is their number. -/
theorem exists_skipRows (offset : UInt64)
    (hrows : skipped.toNat + rowTotal bs < UInt64.size) :
    ∃ pre post upTo, bs = pre ++ post ∧ skipRows offset skipped bs = (upTo, post) ∧
      upTo.toNat = skipped.toNat + rowTotal pre ∧
      (∀ front, front <+: pre → front ≠ pre →
        skipped.toNat + rowTotal front < offset.toNat) ∧
      (post = [] ∨ offset.toNat ≤ upTo.toNat) := by
  induction bs generalizing skipped with
  | nil =>
    refine ⟨[], [], skipped, rfl, rfl, rfl, fun front hfront hne => ?_, .inl rfl⟩
    exact absurd (List.prefix_nil.1 hfront) hne
  | cons b bs ih =>
    rw [rowTotal] at hrows
    rw [skipRows]
    by_cases hlt : skipped < offset
    · have hsum : (skipped + b.rowCount).toNat = skipped.toNat + b.rowCount.toNat := by
        rw [UInt64.toNat_add, Nat.mod_eq_of_lt (by rw [UInt64.size] at hrows; omega)]
      obtain ⟨pre, post, upTo, rfl, hskip, hupTo, hfewer, hpost⟩ := ih (by rw [hsum]; omega)
      rw [if_pos hlt]
      refine ⟨b :: pre, post, upTo, rfl, hskip, by rw [rowTotal]; omega, ?_, hpost⟩
      intro front hfront hne
      rcases List.prefix_cons_iff.1 hfront with rfl | ⟨more, rfl, hmore⟩
      · simpa [rowTotal] using UInt64.lt_iff_toNat_lt.1 hlt
      · have := hfewer more hmore (fun he => hne (he ▸ rfl))
        rw [rowTotal]
        omega
    · rw [if_neg hlt]
      refine ⟨[], b :: bs, skipped, rfl, rfl, rfl, fun front hfront hne => ?_, .inr ?_⟩
      · exact absurd (List.prefix_nil.1 hfront) hne
      · rw [UInt64.lt_iff_toNat_lt] at hlt
        omega

/-- The walk ends at the rows asked for just when some of the first batches
have them, and then behind the fewest. -/
theorem skipRows_exact (offset : UInt64) (hrows : rowTotal bs < UInt64.size) :
    ((skipRows offset 0 bs).1 = offset ↔
        ∃ front, front <+: bs ∧ rowTotal front = offset.toNat) ∧
      ((skipRows offset 0 bs).1 = offset →
        ∃ pre, bs = pre ++ (skipRows offset 0 bs).2 ∧ Fewest offset.toNat bs pre) := by
  have hstart : (0 : UInt64).toNat + rowTotal bs < UInt64.size := by simpa using hrows
  obtain ⟨pre, post, upTo, hbs, hskip, hupTo, hfewer, hpost⟩ := exists_skipRows offset hstart
  simp only [UInt64.toNat_zero, Nat.zero_add] at hupTo hfewer
  have hpre : pre <+: bs := ⟨post, hbs.symm⟩
  -- first batches that have the rows asked for are none of those walked over too soon
  have hleast : ∀ front, front <+: bs → rowTotal front = offset.toNat → pre <+: front := by
    intro front hfront hn
    rcases List.prefix_or_prefix_of_prefix hfront hpre with hshort | hlong
    · by_cases he : front = pre
      · exact he ▸ List.prefix_rfl
      · have := hfewer front hshort he
        omega
    · exact hlong
  rw [hskip]
  dsimp only
  refine ⟨⟨fun hup => ⟨pre, hpre, by rw [← hupTo, hup]⟩, ?_⟩, fun hup => ?_⟩
  · rintro ⟨front, hfront, hn⟩
    have hle : rowTotal pre ≤ offset.toNat := hn ▸ rowTotal_mono (hleast front hfront hn)
    have hge : offset.toNat ≤ rowTotal pre := by
      rcases hpost with rfl | hge
      · rw [List.append_nil] at hbs
        exact hn ▸ rowTotal_mono (hbs ▸ hfront)
      · omega
    exact UInt64.toNat_inj.1 (by omega)
  · exact ⟨pre, hbs, hpre, by rw [← hupTo, hup], hleast⟩

/-! ## What a stream serves -/

namespace Stream

theorem length_remaining_lt (h : st.next = .ok (some (b, st'))) :
    st'.remaining.length < st.remaining.length := by
  rw [(next_eq_batch h).1, List.length_cons]
  exact Nat.lt_succ_self _

/-- The batches that a stream serves to a reader that asks on and on, and the
failure that it ends with, if it does not end behind its last batch. -/
def served (st : Stream) : List Batch × Option TransportError :=
  match _h : st.next with
  | .error e => ([], some e)
  | .ok none => ([], none)
  | .ok (some (b, st')) => (b :: st'.served.1, st'.served.2)
  termination_by st.remaining.length
  decreasing_by all_goals exact length_remaining_lt _h

theorem served_of_error (h : st.next = .error e) : st.served = ([], some e) := by
  rw [served]
  split <;> simp_all

theorem served_of_end (h : st.next = .ok none) : st.served = ([], none) := by
  rw [served]
  split <;> simp_all

theorem served_of_batch (h : st.next = .ok (some (b, st'))) :
    st.served = (b :: st'.served.1, st'.served.2) := by
  rw [served]
  split <;> simp_all

/-- **A stream serves what remains of it**, if it has no fault or too few
batches to meet it. -/
theorem served_of_whole {f : Option (Nat × TransportKind)}
    (hf : ∀ n kind, f = some (n, kind) → k + rest.length < n) :
    served ⟨x, rest, k, f⟩ = (rest, none) := by
  induction rest generalizing k with
  | nil =>
    have hoff : ∀ kind, f ≠ some (k, kind) := by
      intro kind he
      exact Nat.lt_irrefl k (hf k kind he)
    exact served_of_end (next_off_fault hoff x).1
  | cons b rest ih =>
    have hfar : ∀ n kind, f = some (n, kind) → k + 1 + rest.length < n := by
      intro n kind he
      have := hf n kind he
      rw [List.length_cons] at this
      omega
    have hoff : ∀ kind, f ≠ some (k, kind) := by
      intro kind he
      have := hfar k kind he
      omega
    rw [served_of_batch ((next_off_fault hoff x).2 b rest), ih hfar]

/-- **And up to its fault otherwise.** -/
theorem served_of_fault (hk : k ≤ n) (hn : n ≤ k + rest.length) :
    served ⟨x, rest, k, some (n, kind)⟩ =
      (rest.take (n - k), some ⟨kind, .streamFault x n, none⟩) := by
  induction rest generalizing k with
  | nil =>
    obtain rfl : k = n := by
      rw [List.length_nil] at hn
      omega
    rw [served_of_error (next_at_fault x [] k kind), List.take_nil]
  | cons b rest ih =>
    rw [List.length_cons] at hn
    by_cases he : k = n
    · subst he
      rw [served_of_error (next_at_fault x (b :: rest) k kind), Nat.sub_self, List.take_zero]
    · have hoff : ∀ kind', some (n, kind) ≠ some (k, kind') := by simp [Ne.symm he]
      have hsteps : n - k = n - (k + 1) + 1 := by omega
      rw [served_of_batch ((next_off_fault hoff x).2 b rest), ih (by omega) (by omega), hsteps,
        List.take_succ_cons]

/-- What a stream serves of the batches `post` of the split `x`, opened with
the fault `f`: all of them, unless the fault comes within them or right behind
the last, and then those in front of it. -/
structure Serves (x : SplitId) (f : Option Fault) (post : List Batch) (st : Stream) : Prop where
  whole : st.served.2 = none → st.served.1 = post
  fails : ∀ n kind, f = some (.afterBatches n kind) → n ≤ post.length →
    st.served = (post.take n, some ⟨kind, .streamFault x n, none⟩)
  meets : st.served.2 ≠ none → ∃ n kind, f = some (.afterBatches n kind) ∧ n ≤ post.length

/-- A stream that was just opened has all of its batches to serve. -/
theorem serves_start (x : SplitId) (g : Option (Nat × TransportKind)) (post : List Batch) :
    Serves x (g.map fun g => .afterBatches g.1 g.2) post ⟨x, post, 0, g⟩ := by
  by_cases hmeets : ∃ n kind, g = some (n, kind) ∧ n ≤ post.length
  · obtain ⟨n, kind, rfl, hn⟩ := hmeets
    have hserved : served ⟨x, post, 0, some (n, kind)⟩ =
        (post.take n, some ⟨kind, .streamFault x n, none⟩) := by
      rw [served_of_fault (Nat.zero_le n) (by omega), Nat.sub_zero]
    refine ⟨fun h => ?_, fun m kind' hm _ => ?_, fun _ => ⟨n, kind, rfl, hn⟩⟩
    · rw [hserved] at h
      cases h
    · cases hm
      exact hserved
  · have hwhole : ∀ n kind, g = some (n, kind) → 0 + post.length < n := by
      intro n kind hg
      by_contra hle
      exact hmeets ⟨n, kind, hg, by omega⟩
    have hserved := served_of_whole (x := x) hwhole
    refine ⟨fun _ => by rw [hserved], fun n kind hf hn => ?_, fun h => ?_⟩
    · obtain ⟨⟨m, kind'⟩, hg, he⟩ := Option.map_eq_some_iff.1 hf
      cases he
      exact absurd ⟨m, kind', hg, hn⟩ hmeets
    · rw [hserved] at h
      exact absurd rfl h

end Stream

/-! ## What comes of a call -/

namespace Service

/-- What a call leaves behind, whatever comes of it: it is noted, the first
fault of its split, if there is one, is used up, and neither scripts nor
other faults nor the streams given back have changed. -/
structure Notes (s : Service) (c : ReadCall) (s' : Service) : Prop where
  calls : s'.calls = s.calls ++ [c]
  faults : s'.faultsOf c.split = (s.faultsOf c.split).tail
  others : ∀ x, x ≠ c.split → s'.faultsOf x = s.faultsOf x
  scripts : s'.scripts = s.scripts
  released : s'.released = s.released

theorem answer_read (s : Service) (c : ReadCall) :
    (s.read c).2 = s.streamFor c (s.faultsOf c.split).head? :=
  ((read_eq (a := (s.read c).2) rfl).2).symm

theorem notes_read (s : Service) (c : ReadCall) : s.Notes c (s.read c).1 := by
  have halike : (s.note c).Alike (s.read c).1 := (read_eq (a := (s.read c).2) rfl).1
  refine ⟨halike.calls.trans (calls_note s c), ?_, fun x hx => ?_, scripts_read s c, ?_⟩
  · exact (halike.faultsOf_eq c.split).trans (faultsOf_note_self s c)
  · exact (halike.faultsOf_eq x).trans (faultsOf_note_of_ne s hx)
  · unfold read
    dsimp only
    split <;> exact (s.streams_note c).2

/-- A call opens one stream or none. -/
theorem opened_read (s : Service) (c : ReadCall) :
    (s.read c).1.opened = s.opened + (s.read c).2.toOption.isSome.toNat := by
  unfold read
  dsimp only
  split
  · exact (s.streams_note c).1
  · rfl

/-- A fault that does not keep a stream from being opened is none, or one that
the stream meets. -/
theorem eq_map_of_ne_onOpen {f : Option Fault} (h : ∀ kind, f ≠ some (.onOpen kind)) :
    ∃ g : Option (Nat × TransportKind), f = g.map fun g => .afterBatches g.1 g.2 := by
  rcases f with _ | ⟨kind⟩ | ⟨n, kind⟩
  · exact ⟨none, rfl⟩
  · exact absurd rfl (h kind)
  · exact ⟨some (n, kind), rfl⟩

/-- An offset that the walk over the batches does not end at is refused. -/
theorem streamFor_of_ne (hx : s.script? c.split = some bs)
    (hskip : (skipRows c.offset 0 bs).1 ≠ c.offset) (g : Option (Nat × TransportKind)) :
    s.streamFor c (g.map fun g => .afterBatches g.1 g.2) =
      .error ⟨.invalidArgument, .offBoundary c.offset c.split, none⟩ := by
  cases g <;> simp [streamFor, hx, hskip]

end Service

/-- **A call is served exactly the rows that remain.** Whatever comes of a
call, it is noted, uses up the first fault of its split and leaves scripts and
other faults alone. Where that fault does not keep it from opening a stream,
and the rows of its split fit into 64 bits, it opens one just when some of the
first batches have as many rows as it asks to leave out. The stream serves the
batches behind the fewest such, with all rows that remain, or fails where its
fault has it. Any other call is refused as an invalid argument, and opens none. -/
theorem resumes_exactly (s : Service) (c : ReadCall) :
    s.Notes c (s.read c).1 ∧
      ∀ bs, s.script? c.split = some bs → rowTotal bs < UInt64.size →
        (∀ kind, (s.faultsOf c.split).head? ≠ some (.onOpen kind)) →
        ((∃ st, (s.read c).2 = .ok st) ↔
            ∃ front, front <+: bs ∧ rowTotal front = c.offset.toNat) ∧
          (∀ st, (s.read c).2 = .ok st → (s.read c).1.opened = s.opened + 1 ∧
            ∃ pre post, bs = pre ++ post ∧ Fewest c.offset.toNat bs pre ∧
              rowTotal post = rowTotal bs - c.offset.toNat ∧
              st.Serves c.split (s.faultsOf c.split).head? post) ∧
          ∀ e, (s.read c).2 = .error e → e.kind = .invalidArgument ∧
            e.cause = .offBoundary c.offset c.split ∧ (s.read c).1.opened = s.opened := by
  refine ⟨s.notes_read c, fun bs hx hrows hfault => ?_⟩
  obtain ⟨g, hg⟩ := Service.eq_map_of_ne_onOpen hfault
  obtain ⟨hiff, hfewest⟩ := skipRows_exact c.offset hrows
  have hanswer := s.answer_read c
  have hopened := s.opened_read c
  rw [hg] at hanswer ⊢
  by_cases hskip : (skipRows c.offset 0 bs).1 = c.offset
  · -- the walk ends where the call asks to go on
    obtain ⟨pre, hbs, hpre⟩ := hfewest hskip
    have hpost : rowTotal (skipRows c.offset 0 bs).2 = rowTotal bs - c.offset.toNat := by
      have htotal := rowTotal_append pre (skipRows c.offset 0 bs).2
      rw [← hbs, hpre.rows] at htotal
      omega
    rw [Service.streamFor_of_skipRows hx (Prod.ext hskip rfl)] at hanswer
    rw [hanswer] at hopened ⊢
    refine ⟨iff_of_true ⟨_, rfl⟩ (hiff.1 hskip), ?_, nofun⟩
    intro st hst
    obtain rfl := Except.ok.inj hst
    exact ⟨hopened, pre, _, hbs, hpre, hpost, Stream.serves_start c.split g _⟩
  · have hnone : ¬ ∃ front, front <+: bs ∧ rowTotal front = c.offset.toNat :=
      fun h => hskip (hiff.2 h)
    rw [Service.streamFor_of_ne hx hskip] at hanswer
    rw [hanswer] at hopened ⊢
    refine ⟨iff_of_false (by simp) hnone, nofun, ?_⟩
    intro e he
    obtain rfl := Except.error.inj he
    exact ⟨rfl, rfl, hopened⟩

namespace Sample

/-- Split `a` has batches of two rows, none, one and none, and its next stream
fails behind two batches. -/
def gapped : Service :=
  { scripts :=
      [(⟨"a"⟩, [⟨.avro, 2, [2, 4]⟩, ⟨.avro, 0, []⟩, ⟨.avro, 1, [6]⟩, ⟨.avro, 0, []⟩])]
    faults := [(⟨"a"⟩, [.afterBatches 2 .network, .onOpen .internal])] }

/-- A call for split `a` behind so many rows. -/
def callBehind (offset : UInt64) : ReadCall := ⟨⟨"a"⟩, offset, 1, 1, none, none⟩

end Sample

/-- A call behind two rows is served the batch without rows at the seam and
the next, and then fails; one behind a single row is refused. -/
theorem resumes_behind_two_rows :
    (∃ bs, Sample.gapped.script? ⟨"a"⟩ = some bs ∧ rowTotal bs < UInt64.size) ∧
      (∀ kind, (Sample.gapped.faultsOf ⟨"a"⟩).head? ≠ some (.onOpen kind)) ∧
      (∃ st, (Sample.gapped.read (Sample.callBehind 2)).2 = .ok st ∧
        st.served = ([⟨.avro, 0, []⟩, ⟨.avro, 1, [6]⟩],
          some ⟨.network, .streamFault ⟨"a"⟩ 2, none⟩)) ∧
      ∃ e, (Sample.gapped.read (Sample.callBehind 1)).2 = .error e ∧
        e.kind = .invalidArgument := by
  have hrows : rowTotal [⟨.avro, 2, [2, 4]⟩, ⟨.avro, 0, []⟩, ⟨.avro, 1, [6]⟩, ⟨.avro, 0, []⟩] <
      UInt64.size := by decide
  have hfault : ∀ kind, (Sample.gapped.faultsOf ⟨"a"⟩).head? ≠ some (.onOpen kind) := nofun
  refine ⟨⟨_, rfl, hrows⟩, hfault, ?_, ?_⟩
  · obtain ⟨-, hcall⟩ := resumes_exactly Sample.gapped (Sample.callBehind 2)
    obtain ⟨hiff, hserved, -⟩ := hcall _ rfl hrows hfault
    obtain ⟨st, hst⟩ := hiff.2 ⟨[⟨.avro, 2, [2, 4]⟩], by decide, by decide⟩
    obtain ⟨-, pre, post, hbs, hpre, -, hserves⟩ := hserved st hst
    -- the fewest batches with two rows are the first alone
    have hfirst : pre <+: [⟨.avro, 2, [2, 4]⟩] := hpre.least _ (by decide) (by decide)
    rcases List.prefix_cons_iff.1 hfirst with rfl | ⟨more, rfl, hmore⟩
    · exact absurd hpre.rows (by decide)
    · obtain rfl := List.prefix_nil.1 hmore
      obtain rfl := (List.cons.inj hbs).2
      exact ⟨st, hst, hserves.fails 2 .network rfl (by decide)⟩
  · obtain ⟨-, hcall⟩ := resumes_exactly Sample.gapped (Sample.callBehind 1)
    obtain ⟨-, -, hrefused⟩ := hcall _ rfl hrows hfault
    exact ⟨_, rfl, (hrefused _ rfl).1⟩

end Intake
