import Statechart.Text.Blank

/-!
# Statechart.StateId

Identifiers of states. A state is named by the keys on the way from the root of its chart, so the
identifiers alone carry the ancestor relation.

* `StateId.parse?`, `StateId.text`: the dotted form, such as `order.payment.pending`.
* `StateId.child`, `StateId.parent?`, `StateId.ancestors`: the tree order.
* `StateId.lca`, `StateId.oneBeneath`, `StateId.ancestorsUntil`: what transitions are planned with.
* Identifiers are ordered as lists of keys, and keys by their characters. `StateId.lt_trans` and
  `StateId.lt_of_not_lt` say that the order is linear.
-/

namespace Statechart

/-- The chain of keys from the root of a chart to one of its states. -/
structure StateId where
  keys : List String
  deriving DecidableEq, Inhabited, Repr

namespace StateId

def separator : Char := '.'

def root (key : String) : StateId := ⟨[key]⟩

/-- The identifier with these keys, if there is a key and none is empty. -/
def ofKeys? (keys : List String) : Option StateId :=
  if keys.isEmpty || keys.any (· == "") then none else some ⟨keys⟩

def splitDots (text : String) : List String :=
  (Text.splitAtChar separator text.toList).map String.ofList

def parse? (text : String) : Option StateId :=
  ofKeys? (splitDots text)

def text (id : StateId) : String :=
  ".".intercalate id.keys

def child (id : StateId) (key : String) : StateId :=
  ⟨id.keys ++ [key]⟩

def parent? (id : StateId) : Option StateId :=
  if id.keys.length ≤ 1 then none else some ⟨id.keys.dropLast⟩

def rootKey (id : StateId) : String :=
  id.keys.head?.getD ""

def key (id : StateId) : String :=
  id.keys.getLast?.getD ""

def depth (id : StateId) : Nat :=
  id.keys.length - 1

def isAncestorOf (a b : StateId) : Bool :=
  a.keys.length < b.keys.length && a.keys.isPrefixOf b.keys

def ancestors (id : StateId) : List StateId :=
  ((List.range id.depth).map fun n => ⟨id.keys.take (n + 1)⟩).reverse

/-- The nearest identifier strictly above both. None if one of them is a root. -/
def lca (a b : StateId) : Option StateId :=
  a.ancestors.find? (b.ancestors.contains ·)

/-- The child of `above` on the way down to `id`. -/
def oneBeneath (id above : StateId) : Option StateId :=
  (id :: id.ancestors).find? (·.parent? == some above)

/-- The identifiers strictly above `id` and below `stop`, nearest first. -/
def ancestorsUntil (id stop : StateId) : List StateId :=
  id.ancestors.takeWhile (· ≠ stop)

instance : LT StateId := ⟨fun a b => a.keys < b.keys⟩

instance : DecidableLT StateId :=
  fun a b => inferInstanceAs (Decidable (a.keys < b.keys))

theorem lt_iff {a b : StateId} : a < b ↔ a.keys < b.keys := Iff.rfl

theorem lt_irrefl (a : StateId) : ¬ a < a :=
  List.lt_irrefl a.keys

theorem lt_trans {a b c : StateId} (hab : a < b) (hbc : b < c) : a < c :=
  Std.lt_trans (a := a.keys) (b := b.keys) (c := c.keys) hab hbc

theorem lt_of_not_lt {a b : StateId} (hne : a ≠ b) (h : ¬ a < b) : b < a := by
  rcases List.le_iff_lt_or_eq.1 (List.not_lt.1 h) with hlt | heq
  · exact hlt
  · exact absurd (by cases a; cases b; simp_all) hne

def order (a b : StateId) : Ordering :=
  if a < b then .lt else if b < a then .gt else .eq

end StateId

end Statechart
