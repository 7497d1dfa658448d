import Intake.Proofs.Codecs
/-!
# What the messages of a stream come to

Whether a stream yields records, and which, does not depend on where a
failure would be told to lie. So the reading of its messages is stated once
more without the places: what one message adds (`Frame.adds?`), and what a
stream of them yields (`yields?`). Main statement: the reader yields just
this (`toOption_readFrames`).
-/

namespace Intake.Columns

variable {names : List String} {l : Layout} {seen seen' : Seen} {ended : Bool} {f : Frame}
variable {fs gs : List Frame} {here records : List Record}

/-- What has been seen behind a message and the records that it holds, if
it can be read. -/
def Frame.adds? (names : List String) (l : Layout) (seen : Seen) (f : Frame) :
    Option (Seen × List Record) :=
  match f.message.header with
  | .schema table =>
    match seen.fields?, table.columns? with
    | none, some fields => some (.unchecked fields, [])
    | _, _ => none
  | .block table =>
    match seen.fields? with
    | none => none
    | some fields =>
      match table.columns fields ⟨f.message.version, f.bodyStart, f.body⟩, seen.check names with
      | .ok columns, .ok seen =>
        (blockRecords l table.length.toNat columns).toOption.map fun records => (seen, records)
      | _, _ => none
  | _ => some (seen, [])

/-- A message at the end of a stream that is never completed: it has no
body, and no mark follows. -/
def Frame.IsUnread (ended : Bool) (fs : List Frame) (f : Frame) : Prop :=
  fs.isEmpty ∧ f.body.isEmpty ∧ !ended

instance (ended : Bool) (fs : List Frame) (f : Frame) : Decidable (f.IsUnread ended fs) := by
  unfold Frame.IsUnread
  infer_instance

/-- The records of messages, if all of them can be read. -/
def yields? (names : List String) (l : Layout) (ended : Bool) :
    List Frame → Seen → Option (List Record)
  | [], seen =>
    match seen.check names with
    | .error _ | .ok .nothing => none
    | .ok _ => some []
  | f :: fs, seen =>
    if f.IsUnread ended fs then none
    else
      match f.adds? names l seen with
      | none => none
      | some (seen, here) => (yields? names l ended fs seen).map (here ++ ·)

theorem map_nil_append (x : Option (List Record)) : x.map ([] ++ ·) = x := by
  cases x <;> rfl

theorem toOption_map {ε α β : Type} (x : Except ε α) (g : α → β) :
    (x.map g).toOption = x.toOption.map g := by
  cases x <;> rfl

theorem toOption_eq_some {ε α : Type} {x : Except ε α} {a : α} :
    x.toOption = some a ↔ x = .ok a := by
  cases x with
  | error e => exact iff_of_false nofun nofun
  | ok b => exact ⟨fun h => congrArg _ (Option.some.inj h), fun h => congrArg _ (Except.ok.inj h)⟩

/-- **The reader of a stream yields what its messages come to.** -/
theorem toOption_readFrames (total block began : Nat) :
    (readFrames names l total ended fs seen block began).toOption =
      yields? names l ended fs seen := by
  induction fs generalizing seen block began with
  | nil =>
    rw [readFrames, yields?]
    cases seen.check names with
    | error e => rfl
    | ok seen' => cases seen' <;> rfl
  | cons f fs ih =>
    unfold readFrames yields?
    by_cases hunread : fs.isEmpty = true ∧ f.body.isEmpty = true ∧ (!ended) = true
    · rw [if_pos hunread, if_pos (show f.IsUnread ended fs from hunread)]
      cases seen.check names <;> rfl
    rw [if_neg hunread, if_neg (show ¬ f.IsUnread ended fs from hunread), Frame.adds?]
    cases f.message.header with
    | none => exact (ih block began).trans (map_nil_append _).symm
    | other code => exact (ih block began).trans (map_nil_append _).symm
    | schema table =>
      dsimp only
      cases seen.fields? with
      | some fields => rfl
      | none =>
        cases table.columns? with
        | none => rfl
        | some fields => exact (ih block began).trans (map_nil_append _).symm
    | block table =>
      dsimp only
      cases seen.fields? with
      | none => rfl
      | some fields =>
        dsimp only
        cases table.columns fields ⟨f.message.version, f.bodyStart, f.body⟩ with
        | error fault => cases fault <;> rfl
        | ok columns =>
          dsimp only
          cases seen.check names with
          | error e => rfl
          | ok seen' =>
            dsimp only
            cases blockRecords l table.length.toNat columns with
            | error fault => cases fault <;> rfl
            | ok here => exact (toOption_map _ _).trans (congrArg _ (ih _ _))

/-- Records come out of a message and those behind it. -/
theorem yields?_cons_eq_some :
    yields? names l ended (f :: fs) seen = some records ↔
      ¬ f.IsUnread ended fs ∧ ∃ seen' here rest, f.adds? names l seen = some (seen', here) ∧
        yields? names l ended fs seen' = some rest ∧ here ++ rest = records := by
  rw [yields?]
  by_cases hunread : f.IsUnread ended fs
  · rw [if_pos hunread]
    exact iff_of_false nofun fun h => h.1 hunread
  · rw [if_neg hunread]
    cases hadds : f.adds? names l seen with
    | none => exact iff_of_false nofun fun ⟨_, _, _, _, h, _⟩ => nomatch h
    | some p =>
      dsimp only
      rw [Option.map_eq_some_iff]
      constructor
      · rintro ⟨rest, hrest, hrecords⟩
        exact ⟨hunread, p.1, p.2, rest, rfl, hrest, hrecords⟩
      · rintro ⟨-, seen', here, rest, hp, hrest, hrecords⟩
        cases hp
        exact ⟨rest, hrest, hrecords⟩

theorem framesFrom_nil (index pos : Nat) : framesFrom index pos [] = .ok ⟨[], false⟩ := by
  rw [framesFrom]
  rfl

/-- **A batch yields records** just when it is cut into messages that do. -/
theorem decode_eq_ok {s : Schema} {data : Bytes} :
    decode s l data = .ok records ↔
      ∃ fs, frames data = .ok fs ∧
        yields? s.names l fs.ended fs.frames .nothing = some records := by
  by_cases hdata : data = []
  · subst hdata
    refine iff_of_false nofun fun ⟨fs, hfs, hyields⟩ => ?_
    rw [frames, framesFrom_nil] at hfs
    cases hfs
    cases hyields
  · have hnonempty : ¬ data.isEmpty = true := by simpa using hdata
    rw [decode, if_neg hnonempty]
    cases frames data with
    | error e => exact iff_of_false nofun fun ⟨_, h, _⟩ => nomatch h
    | ok fs =>
      rw [← toOption_eq_some, toOption_readFrames]
      constructor
      · exact fun h => ⟨fs, rfl, h⟩
      · rintro ⟨_, ⟨⟩, h⟩
        exact h

end Intake.Columns
