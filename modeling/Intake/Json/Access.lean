import Intake.Json.Basic
/-!
# Taking a JSON value apart

Readers for the types a configuration is made of. A reader gives `none`
for a value of the wrong form. A structure may be written as an object,
in which unknown names are skipped and a known name may occur once, or
as an array of its fields in order, the missing ones at the end.
-/

namespace Intake.Json

variable {α : Type}

def bool? : Json → Option Bool
  | .bool b => some b
  | _ => none

def text? : Json → Option String
  | .text s => s
  | _ => none

/-- An integer from `low` up to and with `high`. -/
def intBetween? (low high : Int) : Json → Option Int
  | .number (.int n) => if low ≤ n ∧ n ≤ high then some n else none
  | _ => none

/-- A natural number below `limit`. -/
def natBelow? (limit : Nat) : Json → Option Nat
  | .number (.int n) => if 0 ≤ n ∧ n < limit then some n.toNat else none
  | _ => none

def uint64? (j : Json) : Option UInt64 := (j.natBelow? UInt64.size).map UInt64.ofNat

def uint32? (j : Json) : Option UInt32 := (j.natBelow? UInt32.size).map UInt32.ofNat

def uint8? (j : Json) : Option UInt8 := (j.natBelow? UInt8.size).map UInt8.ofNat

def int64? (j : Json) : Option Int64 :=
  (j.intBetween? Int64.minValue.toInt Int64.maxValue.toInt).map Int64.ofInt

def int32? (j : Json) : Option Int32 :=
  (j.intBetween? Int32.minValue.toInt Int32.maxValue.toInt).map Int32.ofInt

/-- A double; an integer stands for the double nearest to it. -/
def real? : Json → Option Binary64
  | .number (.int n) => some (Binary64.ofInt n)
  | .number (.real x) => some x
  | _ => none

/-- A value that may be null. -/
def optional? (f : Json → Option α) : Json → Option (Option α)
  | .null => some none
  | j => (f j).map some

/-- An array whose items all have one form. -/
def list? (f : Json → Option α) : Json → Option (List α)
  | .array items => items.mapM f
  | _ => none

/-- A name out of a closed set: a string, or an object that gives the
name the value null. -/
def word? : Json → Option String
  | .text s => s
  | .object [(some s, .null)] => some s
  | _ => none

/-! ## Structures -/

/-- The value of a member that occurs at most once. -/
def member? (members : List (Text × Json)) (name : String) : Option (Option Json) :=
  match members.filter fun m => m.1 == some name with
  | [] => some none
  | [m] => some (some m.2)
  | _ => none

/-- The values of the fields called `names`, in that order. -/
def fields? (names : List String) : Json → Option (List (Option Json))
  | .object members =>
    if members.any fun m => m.1.isNone then none
    else names.mapM (member? members)
  | .array items =>
    if items.length ≤ names.length then
      some ((List.range names.length).map fun i => items[i]?)
    else none
  | _ => none

/-- A field that has to be given. -/
def required (f : Json → Option α) : Option Json → Option α
  | none => none
  | some j => f j

/-- A field that may be left out. -/
def fieldOr (default : α) (f : Json → Option α) : Option Json → Option α
  | none => some default
  | some j => f j

/-! ## What the readers find -/

/-- Behind a reading that succeeds the next is made of its value. -/
theorem bind_eq {β : Type} {o : Option α} {a : α} {f : α → Option β} (h : o = some a) :
    (o >>= f) = f a := by
  rw [h]
  rfl

/-- A reader that succeeds on every item succeeds on the list. -/
theorem mapM_eq_some_map {β : Type} {f : α → Option β} {g : α → β} {xs : List α}
    (h : ∀ x ∈ xs, f x = some (g x)) : xs.mapM f = some (xs.map g) := by
  induction xs with
  | nil => rfl
  | cons x xs ih =>
    have htail := ih fun y hy => h y (List.mem_cons_of_mem _ hy)
    simp [h x List.mem_cons_self, htail]

/-- An array of values that are each read back is read back. -/
theorem list?_array_map {f : Json → Option α} {g : α → Json} (h : ∀ a, f (g a) = some a)
    (as : List α) : list? f (.array (as.map g)) = some as := by
  have hitems : as.mapM (f ∘ g) = some (as.map id) := mapM_eq_some_map fun a _ => h a
  rw [list?, List.mapM_map, hitems, List.map_id]

variable {before after : List (Json.Text × Json)} {name key : String}

/-- A member is passed over in the search for another name. -/
theorem member?_of_ne (h : key ≠ name) (v : Json) :
    member? (before ++ (some key, v) :: after) name = member? (before ++ after) name := by
  simp [member?, h]

/-- The value of a member is found, unless its name is repeated. -/
theorem member?_self (before after : List (Json.Text × Json)) (key : String) :
    (∀ v, member? (before ++ (some key, v) :: after) key = none) ∨
      ∀ v, member? (before ++ (some key, v) :: after) key = some (some v) := by
  rcases hb : before.filter fun m => m.1 == some key with _ | ⟨b, bs⟩
  · rcases ha : after.filter fun m => m.1 == some key with _ | ⟨a, as⟩
    · exact .inr fun v => by simp [member?, hb, ha]
    · exact .inl fun v => by simp [member?, hb, ha]
  · exact .inl fun v => by
      cases bs <;> simp [member?, hb]

/-- A reader that is run over a list gives as many values. -/
theorem length_of_mapM {β : Type} {f : α → Option β} {xs : List α} {ys : List β}
    (h : xs.mapM f = some ys) : ys.length = xs.length := by
  induction xs generalizing ys with
  | nil => simp_all
  | cons x xs ih =>
    simp only [List.mapM_cons, Option.bind_eq_bind, Option.bind_eq_some_iff, Option.pure_def,
      Option.some.injEq] at h
    obtain ⟨y, -, zs, hzs, rfl⟩ := h
    simp [ih hzs]

/-- And each of these was read. -/
theorem exists_of_mem_mapM {β : Type} {f : α → Option β} {xs : List α} {ys : List β} {y : β}
    (h : xs.mapM f = some ys) (hy : y ∈ ys) : ∃ x ∈ xs, f x = some y := by
  induction xs generalizing ys with
  | nil =>
    cases h
    cases hy
  | cons x xs ih =>
    simp only [List.mapM_cons, Option.bind_eq_bind, Option.bind_eq_some_iff, Option.pure_def,
      Option.some.injEq] at h
    obtain ⟨z, hz, zs, hzs, rfl⟩ := h
    rcases List.mem_cons.1 hy with rfl | hy
    · exact ⟨x, by simp, hz⟩
    · obtain ⟨x', hx', hread⟩ := ih hzs hy
      exact ⟨x', List.mem_cons_of_mem _ hx', hread⟩

/-- The values of the fields of an object, around one of its members. -/
theorem fields?_object {front back : List String} (hf : key ∉ front) (hb : key ∉ back) :
    (∀ v, (Json.object (before ++ (some key, v) :: after)).fields? (front ++ key :: back) = none) ∨
      ∃ xs ys, xs.length = front.length ∧ ∀ v,
        (Json.object (before ++ (some key, v) :: after)).fields? (front ++ key :: back) =
          some (xs ++ some v :: ys) := by
  have hpass (names : List String) (hn : key ∉ names) (v : Json) :
      names.mapM (member? (before ++ (some key, v) :: after)) =
        names.mapM (member? (before ++ after)) := by
    induction names with
    | nil => rfl
    | cons n ns ih =>
      obtain ⟨hne, hns⟩ : key ≠ n ∧ key ∉ ns := by simpa using hn
      simp [member?_of_ne hne, ih hns]
  by_cases hnamed : (before ++ after).any fun m => m.1.isNone
  · refine .inl fun v => if_pos ?_
    simp_all
  · have hplain (v : Json) :
        ¬ (before ++ (some key, v) :: after).any fun m => m.1.isNone := by simpa using hnamed
    have hfields (v : Json) :
        (Json.object (before ++ (some key, v) :: after)).fields? (front ++ key :: back) =
          (front.mapM (member? (before ++ after))).bind fun xs =>
            (member? (before ++ (some key, v) :: after) key).bind fun x =>
              (back.mapM (member? (before ++ after))).map fun ys => xs ++ x :: ys := by
      rw [fields?, if_neg (hplain v), List.mapM_append, List.mapM_cons, hpass front hf,
        hpass back hb]
      cases front.mapM (member? (before ++ after)) with
      | none => rfl
      | some xs =>
        cases member? (before ++ (some key, v) :: after) key with
        | none => rfl
        | some x => cases back.mapM (member? (before ++ after)) <;> rfl
    cases hxs : front.mapM (member? (before ++ after)) with
    | none => exact .inl fun v => by rw [hfields, hxs]; rfl
    | some xs =>
      cases hys : back.mapM (member? (before ++ after)) with
      | none =>
        refine .inl fun v => ?_
        rw [hfields, hxs, hys]
        cases member? (before ++ (some key, v) :: after) key <;> rfl
      | some ys =>
        rcases member?_self before after key with h | h
        · exact .inl fun v => by rw [hfields, hxs, h]; rfl
        · exact .inr ⟨xs, ys, length_of_mapM hxs, fun v => by rw [hfields, hxs, hys, h]; rfl⟩

end Intake.Json
