import Statechart.Proofs.Registrations

/-!
# Statechart.Proofs.Deliveries

Reports may be delivered late, twice, or made up. An instance takes in a report once at most, and
only during the stay in a state for which its activity was started; its event is then the next to
be processed, while the state is active.

* `Activities.Spent`: a ticket under which no activity runs or will run.
* `Instance.deliver_once`: which reports are taken in.
-/

namespace Statechart

variable {C : Type}

/-! ## Spent tickets -/

namespace Activities

/-- The ticket has been given out, and no activity with it runs any more. -/
def Spent (a : Activities) (ticket : Nat) : Prop :=
  ticket < a.nextTicket ∧ ∀ x ∈ a.running, x.ticket ≠ ticket

variable {a a' : Activities} {ticket : Nat}

theorem Spent.of_running (hs : a.Spent ticket) (hn : a'.nextTicket = a.nextTicket)
    (hr : ∀ x ∈ a'.running, x ∈ a.running) : a'.Spent ticket := by
  refine ⟨?_, fun x hx => hs.2 x (hr x hx)⟩
  rw [hn]
  exact hs.1

theorem Spent.cancelBy (hs : a.Spent ticket) (test : Activity → Bool) :
    (a.cancelBy test).Spent ticket := by
  refine hs.of_running rfl fun x hx => ?_
  rw [cancelBy_running] at hx
  exact (List.mem_filter.1 hx).1

theorem Spent.enter (hs : a.Spent ticket) (n : Node C) : (a.enter n).Spent ticket := by
  cases ha : a.attached with
  | false =>
    have hsame : a.enter n = a := by simp only [Activities.enter, ha]; rfl
    rw [hsame]
    exact hs
  | true =>
    have hstarts := enter_starts ha n
    refine ⟨?_, ?_⟩
    · have hlt := hs.1
      rw [hstarts.nextTicket]
      omega
    · intro x hx
      rw [hstarts.running] at hx
      rcases List.mem_append.1 hx with hx | hx
      · exact hs.2 x hx
      · have hlow := (mem_registrations hx).2.1
        have hlt := hs.1
        omega

theorem Spent.follow (hs : a.Spent ticket) (t : Tree C) (signals : List Signal) :
    (a.follow t signals).Spent ticket := by
  induction signals generalizing a with
  | nil => exact hs
  | cons x rest ih =>
    cases x with
    | entered id =>
      simp only [Activities.follow]
      split
      · rename_i n _
        exact ih (hs.enter n)
      · exact ih hs
    | exited id => exact ih (hs.cancelBy _)
    | logged message => exact ih hs

end Activities

namespace Instance

variable {e : Engine C} {context : C} {h : History} {i j : Instance C} {r : Report}

theorem drain_spent {ticket : Nat} (hs : j.activities.Spent ticket) :
    j.drain.2.activities.Spent ticket := by
  have hadopt : (j.adopt (j.engine.drain j.run).2).activities.Spent ticket := hs.follow _ _
  rcases j.drain_cases with ⟨hd, -⟩ | ⟨termination, hd⟩
  · rw [hd]
    exact hadopt
  · rw [hd]
    exact hadopt.cancelBy _

theorem opens_spent {ticket : Nat} (hs : i.activities.Spent ticket) {call : Call}
    {reported : List Activity} (ho : i.Opens call reported j) : j.activities.Spent ticket := by
  cases ho with
  | start _ _ => exact hs
  | send event _ => exact hs
  | deliver r _ => exact hs.of_running rfl fun x hx => (List.mem_filter.1 hx).1

theorem perform_spent {ticket : Nat} (hs : i.activities.Spent ticket) (call : Call) :
    (i.perform call).activities.Spent ticket := by
  have undisturbed : ∀ i' : Instance C, i.Undisturbed i' → i'.activities.Spent ticket :=
    fun i' hu => hs.of_running hu.nextTicket fun x hx => by rwa [hu.running] at hx
  by_cases ho : ∃ reported j, i.Opens call reported j
  · obtain ⟨reported, j, ho⟩ := ho
    rw [ho.perform]
    exact drain_spent (opens_spent hs ho)
  · rcases perform_of_not_opens fun reported j hopens => ho ⟨reported, j, hopens⟩ with
      hu | ⟨i', hu, hp⟩
    · exact undisturbed _ hu
    · rw [hp]
      exact (undisturbed i' hu).cancelBy _

/-- A spent ticket stays spent, whatever is done to the instance. -/
theorem performAll_spent {ticket : Nat} (hs : i.activities.Spent ticket) (calls : List Call) :
    (i.performAll calls).activities.Spent ticket := by
  induction calls generalizing i with
  | nil => exact hs
  | cons call rest ih => exact ih (perform_spent hs call)

/-! ## Deliveries -/

theorem not_accepts_of_spent (hs : i.activities.Spent r.ticket) : ¬ i.Accepts r := by
  rintro ⟨-, x, hx, -, hticket⟩
  exact hs.2 x hx hticket

/-- Taking in a report spends its ticket. -/
theorem taking_spent (hi : i.Sound e h) (ha : i.Accepts r) :
    (i.taking r).activities.Spent r.ticket := by
  obtain ⟨-, x, hx, howner, hticket⟩ := ha
  refine ⟨?_, fun y hy hsame => ?_⟩
  · rw [← hticket]
    exact hi.accounted.lt_nextTicket x (hi.accounted.mem_started hx)
  · obtain ⟨hy, hother⟩ := List.mem_filter.1 hy
    have hyx : y = x :=
      List.inj_on_of_nodup_map hi.accounted.running_nodup hy hx (hsame.trans hticket.symm)
    rw [hyx] at hother
    simp [Activity.hasTicket, howner, hticket] at hother

/-- The drain after a report was taken in begins with the event of the report. -/
theorem taking_first (hw : e.tree.WellFormed) (hi : i.Sound e h) (ha : i.Accepts r) :
    (i.taking r).run.queue = ⟨[], [], [r.event]⟩ ∧ r.owner ∈ (i.taking r).run.configuration ∧
      ∃ report rest, e.Drains (i.taking r).run (⟨r.event, .nextMacrostep, report⟩ :: rest)
        (e.drain (i.taking r).run) := by
  have hqueue : (i.taking r).run.queue = ⟨[], [], [r.event]⟩ := by
    simp only [taking, queueing, hi.queue]
    rfl
  have howner : r.owner ∈ (i.taking r).run.configuration := by
    obtain ⟨-, x, hx, howner, -⟩ := ha
    have hin := (hi.accounted.staying x hx).mem_configuration
    rwa [howner, hi.configuration] at hin
  refine ⟨hqueue, howner, ?_⟩
  have hq : (i.taking r).run.queue.dequeue? =
      some ((r.event, .nextMacrostep), EventQueue.empty) := by
    rw [hqueue]
    rfl
  have hinit : ({ (i.taking r).run with queue := .empty } : Run C).configuration.isInitialized =
      true := Configuration.isInitialized_iff.2 ⟨_, howner⟩
  obtain ⟨report, run', hp⟩ := Tree.exists_process hw r.event hinit
  obtain ⟨rounds, hdrain⟩ := e.drain_rounds (i.taking r).run
  obtain ⟨rest, rfl⟩ := hdrain.first hq hp
  exact ⟨report, rest, hdrain⟩

/-- A report that is not accepted changes nothing. One that is accepted comes from an activity that
was started when its state was entered, and the state has not been left since; the instance is
drained with the event of the report as the first, the state being active; and no report with the
same ticket is ever accepted again. -/
theorem deliver_once {d : NodeDef C} {t : Tree C} (hb : Tree.build d = .ok t) {limits : Limits}
    (hr : Reached ⟨t, limits⟩ context h i) (r : Report) :
    (¬ i.Accepts r → i.deliver r = i) ∧
    (i.Accepts r →
      i.status = .active ∧ h.Staying t r.owner r.ticket ∧
      (∃ j : Instance C, i.deliver r = j.drain.2 ∧ j.engine = ⟨t, limits⟩ ∧
        j.run.queue = ⟨[], [], [r.event]⟩ ∧ j.run.configuration = i.run.configuration ∧
        r.owner ∈ j.run.configuration ∧
        ∃ report rest, Engine.Drains ⟨t, limits⟩ j.run
          (⟨r.event, .nextMacrostep, report⟩ :: rest) (Engine.drain ⟨t, limits⟩ j.run)) ∧
      ∀ later r', r'.ticket = r.ticket → ¬ ((i.deliver r).performAll later).Accepts r') := by
  have hw : (⟨t, limits⟩ : Engine C).tree.WellFormed := Tree.build_wellFormed hb
  have hi := hr.sound hw
  refine ⟨deliver_of_not_accepts, fun ha => ?_⟩
  have hdeliver : i.deliver r = (i.taking r).drain.2 := (Opens.deliver r ha).perform
  obtain ⟨hqueue, howner, hfirst⟩ := taking_first hw hi ha
  refine ⟨ha.1, ?_, ⟨i.taking r, hdeliver, hi.engine, hqueue, rfl, howner, hfirst⟩, ?_⟩
  · obtain ⟨-, x, hx, hxowner, hxticket⟩ := ha
    have hstay := hi.accounted.staying x hx
    rwa [hxowner, hxticket] at hstay
  · intro later r' hticket
    refine not_accepts_of_spent ?_
    rw [hticket, hdeliver]
    exact performAll_spent (drain_spent (taking_spent hi ha)) later

end Instance

/-- Of the two timeouts, only that of the present stay is taken in, and only once. -/
theorem waitingAgain_delivers :
    Tree.build waiting = .ok waitingTree ∧
      waitingAgain.deliver (waitingTimeout 1) = waitingAgain ∧
      waitingAgain.Accepts (waitingTimeout 3) ∧
      ¬ (waitingAgain.deliver (waitingTimeout 3)).Accepts (waitingTimeout 3) := by
  have hbuild : Tree.build waiting = .ok waitingTree := rfl
  have haccepts : waitingAgain.Accepts (waitingTimeout 3) := by decide
  obtain ⟨hlate, -⟩ := Instance.deliver_once hbuild waitingAgain_reached (waitingTimeout 1)
  obtain ⟨-, hpresent⟩ := Instance.deliver_once hbuild waitingAgain_reached (waitingTimeout 3)
  obtain ⟨-, -, -, honce⟩ := hpresent haccepts
  exact ⟨hbuild, hlate (by decide), haccepts, honce [] _ rfl⟩

end Statechart
