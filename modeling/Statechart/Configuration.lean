import Statechart.StateId

/-!
# Statechart.Configuration

The set of active states, kept in the order of identifiers, so that two configurations with the
same members are equal. The empty configuration is that of an instance that was not started.

* `Configuration.insert`, `Configuration.erase` and the set operations built on them.
* `Configuration.mem_insert`, `Configuration.mem_erase`: what they do to membership.
* `Configuration.isConsistent`: every ancestor of a member is a member.
-/

namespace Statechart

/-- A set of state identifiers in increasing order. -/
structure Configuration where
  ids : List StateId := []
  sorted : ids.Pairwise (· < ·) := by simp
  deriving DecidableEq

namespace Configuration

def insertInto (x : StateId) : List StateId → List StateId
  | [] => [x]
  | y :: ys => if x = y then y :: ys else if x < y then x :: y :: ys else y :: insertInto x ys

theorem mem_insertInto {x z : StateId} {ys : List StateId} :
    z ∈ insertInto x ys ↔ z = x ∨ z ∈ ys := by
  induction ys with
  | nil => simp [insertInto]
  | cons y ys ih =>
    by_cases hxy : x = y
    · simp [insertInto, hxy]
    · by_cases hlt : x < y
      · simp [insertInto, hxy, hlt]
      · simp only [insertInto, hxy, hlt, if_false, List.mem_cons, ih]
        constructor
        · rintro (h | h | h) <;> simp [h]
        · rintro (h | h | h) <;> simp [h]

theorem insertInto_sorted {x : StateId} {ys : List StateId} (h : ys.Pairwise (· < ·)) :
    (insertInto x ys).Pairwise (· < ·) := by
  induction ys with
  | nil => simp [insertInto]
  | cons y ys ih =>
    obtain ⟨hy, hys⟩ := List.pairwise_cons.1 h
    by_cases hxy : x = y
    · simpa [insertInto, hxy] using h
    · by_cases hlt : x < y
      · simp only [insertInto, hxy, hlt, if_false, if_true]
        refine List.pairwise_cons.2 ⟨fun z hz => ?_, h⟩
        rcases List.mem_cons.1 hz with rfl | hz
        · exact hlt
        · exact StateId.lt_trans hlt (hy z hz)
      · simp only [insertInto, hxy, hlt, if_false]
        refine List.pairwise_cons.2 ⟨fun z hz => ?_, ih hys⟩
        rcases mem_insertInto.1 hz with rfl | hz
        · exact StateId.lt_of_not_lt hxy hlt
        · exact hy z hz

def empty : Configuration where

instance : Inhabited Configuration := ⟨empty⟩

instance : Membership StateId Configuration := ⟨fun c id => id ∈ c.ids⟩

instance (id : StateId) (c : Configuration) : Decidable (id ∈ c) :=
  inferInstanceAs (Decidable (id ∈ c.ids))

def contains (c : Configuration) (id : StateId) : Bool :=
  decide (id ∈ c)

def insert (c : Configuration) (id : StateId) : Configuration :=
  ⟨insertInto id c.ids, insertInto_sorted c.sorted⟩

def erase (c : Configuration) (id : StateId) : Configuration :=
  ⟨c.ids.filter (· ≠ id), c.sorted.filter _⟩

def insertAll (c : Configuration) (ids : List StateId) : Configuration :=
  ids.foldl insert c

def eraseAll (c : Configuration) (ids : List StateId) : Configuration :=
  ids.foldl erase c

def ofList (ids : List StateId) : Configuration :=
  insertAll empty ids

def union (c d : Configuration) : Configuration :=
  c.insertAll d.ids

def difference (c d : Configuration) : Configuration :=
  c.eraseAll d.ids

def size (c : Configuration) : Nat :=
  c.ids.length

def isInitialized (c : Configuration) : Bool :=
  !c.ids.isEmpty

/-- Is every ancestor of a member a member? -/
def isConsistent (c : Configuration) : Bool :=
  c.ids.all fun id => id.ancestors.all c.contains

def text (c : Configuration) : String :=
  "\x7b" ++ ", ".intercalate (c.ids.map StateId.text) ++ "\x7d"

@[simp] theorem contains_iff {c : Configuration} {id : StateId} :
    c.contains id = true ↔ id ∈ c := by
  simp [contains]

@[simp] theorem mem_insert {c : Configuration} {x z : StateId} :
    z ∈ c.insert x ↔ z = x ∨ z ∈ c :=
  mem_insertInto

@[simp] theorem mem_erase {c : Configuration} {x z : StateId} :
    z ∈ c.erase x ↔ z ∈ c ∧ z ≠ x := by
  show z ∈ c.ids.filter (· ≠ x) ↔ z ∈ c.ids ∧ z ≠ x
  simp

end Configuration

end Statechart
