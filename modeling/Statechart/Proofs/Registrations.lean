import Statechart.Proofs.Building
import Statechart.Proofs.Calls

/-!
# Statechart.Proofs.Registrations

Which activities are registered between two calls. While an instance is active, every active state
has its services and timers, each once, apart from those that have reported since it was entered;
nothing else is registered. No activity is ever lost: each runs, has reported, or was cancelled.

* `Instance.register_exact`: after any calls.
-/

namespace Statechart

namespace Instance

variable {C : Type} {e : Engine C} {context : C} {h : History} {i j : Instance C}

theorem register_exact {d : NodeDef C} {t : Tree C} (hb : Tree.build d = .ok t) {limits : Limits}
    (hr : Reached ⟨t, limits⟩ context h i) :
    (i.status = .active →
      (∀ n ∈ t.nodes, n.id ∈ i.run.configuration →
        ((i.activities.running.filter (·.owner = n.id) ++ h.reportedSince n.id).map
          Activity.kind).Perm n.activityKinds ∧ n.activityKinds.Nodup) ∧
      (∀ x ∈ i.activities.running, x.owner ∈ i.run.configuration) ∧
      (i.activities.running.map Activity.ticket).Nodup ∧
      ∀ x ∈ i.activities.running, x.ticket < i.activities.nextTicket) ∧
    (i.activities.running ++ h.reported ++ i.activities.cancelled).Perm i.activities.started ∧
      (i.activities.started.map Activity.ticket).Nodup := by
  have hw : (⟨t, limits⟩ : Engine C).tree.WellFormed := Tree.build_wellFormed hb
  have hi := hr.sound hw
  have ha := hi.accounted
  refine ⟨fun hactive => ⟨?_, ?_, ha.running_nodup, ?_⟩, ha.accounts, ha.tickets_nodup⟩
  · intro n hn hin
    rw [← hi.configuration] at hin
    exact ⟨(hi.serving hactive).served n hn hin, n.activityKinds_nodup hw hn⟩
  · intro x hx
    rw [← hi.configuration]
    exact (ha.staying x hx).mem_configuration
  · intro x hx
    exact ha.lt_nextTicket x (ha.mem_started hx)

end Instance

/-! A state with a service and a timer, which `again` leaves and enters anew. -/

def waiting : NodeDef Nat where
  key := "m"
  kind := .compound "a" []
  children := [{
    key := "a"
    kind := .atomic
    transitions := [{ event := .named "again", targets := ["a"] }, { event := .delayed 5 }]
    services := [{ id := some "job", body := fun _ => .untilCancelled }] }]

def waitingTree : Tree Nat where
  root := ⟨⟨["m"]⟩, .compound [⟨["m", "a"]⟩] ⟨["m", "a"]⟩ [], [], [], [], []⟩
  rest := [⟨⟨["m", "a"]⟩, .atomic, [], [],
    [.taken (.named "again") none [⟨["m", "a"]⟩] [], .taken (.delayed 5) none [] []],
    [⟨"job", fun _ => .untilCancelled, .null⟩]⟩]

/-- The activities of one stay in the state, with tickets from this one on. -/
def waitingStay (ticket : Nat) : List Activity :=
  [⟨⟨["m", "a"]⟩, .service "job", ticket⟩, ⟨⟨["m", "a"]⟩, .timer 5, ticket + 1⟩]

def waitingTimeout (ticket : Nat) : Report := ⟨⟨["m", "a"]⟩, ticket, .delayed ⟨["m", "a"]⟩ 5⟩

def waitingWith (activities : Activities) : Instance Nat where
  engine := ⟨waitingTree, {}⟩
  run := { context := 0, configuration := .ofList [⟨["m"]⟩, ⟨["m", "a"]⟩] }
  activities
  status := .active

/-- The instance after the start and `again`: the activities of the second stay run, those of the
first were cancelled. -/
def waitingAgain : Instance Nat := waitingWith {
  attached := true
  nextTicket := 4
  running := waitingStay 2
  pending := [⟨5, waitingTimeout 3⟩]
  started := (waitingStay 0 ++ waitingStay 2).reverse
  cancelled := (waitingStay 0).reverse }

theorem waitingAgain_reached :
    Instance.Reached ⟨waitingTree, {}⟩ 0
      [.entered ⟨["m", "a"]⟩, .exited ⟨["m", "a"]⟩, .entered ⟨["m", "a"]⟩, .entered ⟨["m"]⟩]
      waitingAgain := by
  have hstart : Instance.Reached ⟨waitingTree, {}⟩ 0 [.entered ⟨["m", "a"]⟩, .entered ⟨["m"]⟩]
      (waitingWith {
        attached := true, nextTicket := 2, running := waitingStay 0
        pending := [⟨5, waitingTimeout 1⟩], started := (waitingStay 0).reverse }) :=
    Instance.Reached.new.opened_rounds (.start rfl rfl) (.next .none rfl rfl rfl) rfl
  exact hstart.opened_rounds (.send (.named "again" .null) rfl) (.next .none rfl rfl rfl) rfl

theorem waitingAgain_registered :
    Tree.build waiting = .ok waitingTree ∧ waitingAgain.status = .active ∧
      (waitingAgain.activities.running.map Activity.kind).Perm [.service "job", .timer 5] ∧
      (waitingAgain.activities.running ++ waitingAgain.activities.cancelled).Perm
        waitingAgain.activities.started := by
  have hbuild : Tree.build waiting = .ok waitingTree := rfl
  obtain ⟨hactive, haccounts, -⟩ := Instance.register_exact hbuild waitingAgain_reached
  obtain ⟨hserved, -⟩ := hactive rfl
  obtain ⟨hkinds, -⟩ := hserved _ (.tail _ (.head _)) (by decide)
  exact ⟨hbuild, rfl, hkinds, haccounts⟩

end Statechart
