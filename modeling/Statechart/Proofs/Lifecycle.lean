import Statechart.Proofs.Microsteps
import Statechart.Proofs.Rounds

/-!
# Statechart.Proofs.Lifecycle

The signals of a run are a faithful record of its configuration: every state that is signalled as
entered was inactive and is active from then on, every state that is signalled as left was active,
and nothing else changes the configuration.

* `Tree.Lifecycle`: signals as changes of a configuration.
* `Tree.Recorded`: the signals given between two runs tell how their configurations differ.
* `Tree.process_recorded`, `Engine.drain_recorded`: events and drains.
-/

namespace Statechart

variable {C : Type}

namespace Tree

/-- The signals, the oldest first, lead from one configuration to the other. -/
inductive Lifecycle (t : Tree C) : Configuration → List Signal → Configuration → Prop where
  | nil {c : Configuration} : Lifecycle t c [] c
  | entered {c c' : Configuration} {id : StateId} {signals : List Signal} :
      id ∈ t.ids → id ∉ c → Lifecycle t (c.insert id) signals c' →
      Lifecycle t c (.entered id :: signals) c'
  | exited {c c' : Configuration} {id : StateId} {signals : List Signal} :
      id ∈ c → Lifecycle t (c.erase id) signals c' → Lifecycle t c (.exited id :: signals) c'
  | logged {c c' : Configuration} {signals : List Signal} (message : String) :
      Lifecycle t c signals c' → Lifecycle t c (.logged message :: signals) c'

theorem Lifecycle.trans {t : Tree C} {c c' c'' : Configuration} {signals signals' : List Signal}
    (h : t.Lifecycle c signals c') (h' : t.Lifecycle c' signals' c'') :
    t.Lifecycle c (signals ++ signals') c'' := by
  induction h with
  | nil => exact h'
  | entered hid hout _ ih => exact .entered hid hout (ih h')
  | exited hin _ ih => exact .exited hin (ih h')
  | logged message _ ih => exact .logged message (ih h')

theorem Lifecycle.messages {t : Tree C} (c : Configuration) (messages : List String) :
    t.Lifecycle c (messages.map .logged) c := by
  induction messages with
  | nil => exact .nil
  | cons message rest ih => exact .logged message ih

/-- The signals given from `run` to `run'` lead from the configuration of the one to that of the
other. -/
def Recorded (t : Tree C) (run run' : Run C) : Prop :=
  ∃ signals, run'.signals = signals.reverse ++ run.signals ∧
    t.Lifecycle run.configuration signals run'.configuration

variable {t : Tree C} {run run' run'' : Run C}

theorem Recorded.refl (run : Run C) : t.Recorded run run :=
  ⟨[], rfl, .nil⟩

theorem Recorded.trans (h : t.Recorded run run') (h' : t.Recorded run' run'') :
    t.Recorded run run'' := by
  obtain ⟨signals, hs, hc⟩ := h
  obtain ⟨signals', hs', hc'⟩ := h'
  refine ⟨signals ++ signals', ?_, hc.trans hc'⟩
  rw [hs', hs, List.reverse_append, List.append_assoc]

/-! ## One microstep -/

/-- A block of actions signals nothing but messages. -/
theorem runBlock_signals (origin : String) (data : Json) (actions : List (Action C))
    (s : Store C) : ∃ messages : List String,
      (runBlock origin data actions s).2.signals = (messages.map .logged).reverse ++ s.signals := by
  induction actions generalizing s with
  | nil => exact ⟨[], rfl⟩
  | cons a rest ih =>
    cases hp : a.perform s.context data with
    | error e =>
      refine ⟨[], ?_⟩
      simp only [runBlock, hp]
      rfl
    | ok p =>
      have hrun : (runBlock origin data (a :: rest) s).2 =
          (runBlock origin data rest (s.accept p)).2 := by simp only [runBlock, hp]
      obtain ⟨messages, hm⟩ := ih (s.accept p)
      rw [hrun, hm]
      have haccept : (s.accept p).signals =
          (p.logged.toList.map Signal.logged).reverse ++ s.signals := by
        obtain ⟨context, emitted, logged⟩ := p
        cases emitted <;> cases logged <;> rfl
      refine ⟨p.logged.toList ++ messages, ?_⟩
      rw [haccept, List.map_append, List.reverse_append, List.append_assoc]

theorem foldl_leave_recorded (data : Json) {c : Configuration} {ids : List StateId}
    (hnodup : ids.Nodup) (hactive : ∀ id ∈ ids, id ∈ c) (run : Run C) :
    ∃ signals, (ids.foldl (t.leave data) run).signals = signals.reverse ++ run.signals ∧
      t.Lifecycle c signals (c.eraseAll ids) := by
  induction ids generalizing c run with
  | nil => exact ⟨[], rfl, .nil⟩
  | cons id rest ih =>
    obtain ⟨hfresh, hnodup⟩ := List.nodup_cons.1 hnodup
    have hrest : ∀ x ∈ rest, x ∈ c.erase id := by
      intro x hx
      refine Configuration.mem_erase.2 ⟨hactive x (List.mem_cons_of_mem _ hx), ?_⟩
      rintro rfl
      exact hfresh hx
    obtain ⟨messages, hm⟩ := runBlock_signals ("exit " ++ id.text) data
      (((t.node? id).map Node.exit).getD []) run.toStore
    obtain ⟨signals, hs, hl⟩ := ih hnodup hrest (t.leave data run id)
    have hleave : (t.leave data run id).signals =
        .exited id :: ((messages.map .logged).reverse ++ run.signals) := by
      rw [← hm]; rfl
    refine ⟨messages.map .logged ++ .exited id :: signals, ?_,
      (Lifecycle.messages c messages).trans (.exited (hactive id List.mem_cons_self) hl)⟩
    show (rest.foldl (t.leave data) (t.leave data run id)).signals = _
    rw [hs, hleave]
    simp

theorem foldl_enter_recorded (data : Json) {ids : List StateId} (hnodup : ids.Nodup)
    (hknown : ∀ id ∈ ids, id ∈ t.ids) (run : Run C)
    (hinactive : ∀ id ∈ ids, id ∉ run.configuration) :
    t.Recorded run (ids.foldl (t.enter data) run) := by
  induction ids generalizing run with
  | nil => exact .refl run
  | cons id rest ih =>
    obtain ⟨hfresh, hnodup⟩ := List.nodup_cons.1 hnodup
    obtain ⟨messages, hm⟩ := runBlock_signals ("entry " ++ id.text) data
      (((t.node? id).map Node.entry).getD []) run.toStore
    have henter : t.Recorded run (t.enter data run id) := by
      refine ⟨messages.map .logged ++ [.entered id], ?_, (Lifecycle.messages _ messages).trans
        (.entered (hknown id List.mem_cons_self) (hinactive id List.mem_cons_self) .nil)⟩
      have hsignals : (t.enter data run id).signals =
          .entered id :: ((messages.map .logged).reverse ++ run.signals) := by
        rw [← hm]; rfl
      rw [hsignals]
      simp
    refine henter.trans (ih hnodup (fun x hx => hknown x (List.mem_cons_of_mem _ hx)) _ ?_)
    intro x hx hin
    rcases Configuration.mem_insert.1 hin with rfl | hin
    · exact hfresh hx
    · exact hinactive x (List.mem_cons_of_mem _ hx) hin

theorem apply_recorded {p : Plan} (hp : p.Fits t.ids run.configuration)
    (actions : List (Action C)) (cause : Cause) :
    t.Recorded run (t.apply p actions cause run).2 := by
  obtain ⟨signals, hs, hl⟩ :=
    foldl_leave_recorded (t := t) cause.data hp.exited_nodup hp.exited_active run
  let left : Run C :=
    { p.exited.foldl (t.leave cause.data) run with
      configuration := (p.exited.foldl (t.leave cause.data) run).configuration.eraseAll p.exited }
  have hleft : left.configuration = run.configuration.eraseAll p.exited := by
    simp only [left, foldl_leave_configuration]
  obtain ⟨messages, hm⟩ := runBlock_signals cause.origin cause.data actions left.toStore
  let acted : Run C := { left with
    toStore := (runBlock cause.origin cause.data actions left.toStore).2 }
  have hacted : t.Recorded run acted := by
    refine ⟨signals ++ messages.map .logged, ?_, ?_⟩
    · show (runBlock cause.origin cause.data actions left.toStore).2.signals = _
      rw [hm, List.reverse_append, List.append_assoc]
      exact congrArg _ hs
    · show t.Lifecycle _ _ left.configuration
      rw [hleft]
      exact hl.trans (Lifecycle.messages _ messages)
  refine hacted.trans (foldl_enter_recorded cause.data hp.entered_nodup hp.entered_known acted ?_)
  intro id hid
  show id ∉ left.configuration
  rw [hleft]
  exact hp.entered_inactive id hid

/-! ## Events and drains -/

theorem Steps.recorded (h : t.WellFormed) {ms : List Microstep} (hsteps : t.Steps run ms run') :
    t.Recorded run run' := by
  induction hsteps with
  | nil => exact .refl _
  | cons hp _ ih => exact (apply_recorded (hp.fits h) _ _).trans ih

theorem process_recorded (h : t.WellFormed) (event : Event) (run : Run C) :
    t.Recorded run (t.process event run).2 := by
  rcases process_cases h event run with ⟨-, -, hp⟩ | ⟨-, -, hp⟩ |
    ⟨data, handled, taken, mid, hsteps, -, hp⟩
  · rw [hp]
    exact .refl run
  · rw [hp]
    exact .refl run
  · rw [hp]
    have hmore := (stabilize_steps (t := t) data mid).recorded h
    exact (hsteps.recorded h).trans hmore

end Tree

theorem Engine.drain_recorded {e : Engine C} (h : e.tree.WellFormed) (run : Run C) :
    e.tree.Recorded run (e.drain run).2 := by
  obtain ⟨rounds, hdrain⟩ := e.drain_rounds run
  refine hdrain.preserves (P := fun _ run' => e.tree.Recorded run run') []
    (fun queue hrun => hrun) ?_ ?_ (.refl run)
  · intro events mid event report run' hmid hp
    have hstep := Tree.process_recorded h event mid
    rw [hp] at hstep
    exact hmid.trans hstep
  · intro events mid event err run' hmid hp
    have hstep := Tree.process_recorded h event mid
    rw [hp] at hstep
    exact hmid.trans hstep

end Statechart
