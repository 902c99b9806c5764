import Statechart.Instance.Clock
import Statechart.Proofs.Register

/-!
# Statechart.Proofs.Calls

Instances under any sequence of calls: starting, events from outside, reports of activities at any
time, and ending from outside. Beside an instance stands its history, which no operation reads.

* `Call`, `Instance.perform`: what can be done to an instance.
* `Instance.Opens`: the calls that have an event processed.
* `Instance.Reached`: the instances that calls lead to, with their history.
* `Instance.Reached.sound`: what holds between two calls.
* `Instance.advance_leadsTo`, `Instance.wait_leadsTo`: time passes through calls only.
-/

namespace Statechart

variable {C : Type}

/-- What can be done to an instance. Reports may be delivered at any time and any number of times,
whether or not an activity has given them. -/
inductive Call where
  | start
  /-- Starts the instance where no host can run its services. -/
  | startUnhosted
  | send (event : Event)
  | deliver (report : Report)
  | cancel
  | requestCancel
  | heedCancel
  /-- Takes the reports that are due, to be delivered later. -/
  | collect
  | moveTo (time : Nat)

namespace Instance

/-- The instance after a call. -/
def perform (i : Instance C) : Call → Instance C
  | .start => i.start.2
  | .startUnhosted => (i.startOn false).2
  | .send event => (i.send event).2
  | .deliver report => i.deliver report
  | .cancel => i.cancel
  | .requestCancel => i.requestCancel
  | .heedCancel => i.heedCancel
  | .collect => { i with activities := i.activities.takeDue.2 }
  | .moveTo time => i.moveTo time

/-- The instance after calls in turn. -/
def performAll (i : Instance C) (calls : List Call) : Instance C :=
  calls.foldl perform i

/-- The instance with an event waiting for the next macrostep. -/
def queueing (i : Instance C) (event : Event) : Instance C :=
  { i with run := { i.run with queue := i.run.queue.enqueue event .nextMacrostep } }

/-- Does the instance take in the report? -/
def Accepts (i : Instance C) (r : Report) : Prop :=
  i.status = .active ∧ ∃ x ∈ i.activities.running, x.owner = r.owner ∧ x.ticket = r.ticket

instance (i : Instance C) (r : Report) : Decidable (i.Accepts r) :=
  inferInstanceAs (Decidable (_ ∧ ∃ x ∈ i.activities.running, _))

/-- The activities that a report strikes off the register. -/
def reporting (i : Instance C) (r : Report) : List Activity :=
  i.activities.running.filter (·.hasTicket r.owner r.ticket)

/-- The instance that takes in a report. -/
def taking (i : Instance C) (r : Report) : Instance C :=
  queueing { i with activities := { i.activities with
    running := i.activities.running.filter (!·.hasTicket r.owner r.ticket) } } r.event

/-- The calls that have an event processed, with the activities that have reported and the instance
that is drained. -/
inductive Opens (i : Instance C) : Call → List Activity → Instance C → Prop where
  | start : i.status = .notStarted → i.cancelRequested = false →
      Opens i .start [] (queueing { i with
        status := .active, activities := i.activities.attach } .start)
  | send (event : Event) : i.status = .active → Opens i (.send event) [] (i.queueing event)
  | deliver (r : Report) : i.Accepts r → Opens i (.deliver r) (i.reporting r) (i.taking r)

/-- The instances that calls lead to, with what happened to them. -/
inductive Reached (e : Engine C) (context : C) : History → Instance C → Prop where
  | new : Reached e context [] (.new e context)
  | opened {h : History} {i j : Instance C} {call : Call} {reported : List Activity} :
      Reached e context h i → i.Opens call reported j →
      Reached e context (History.extend (reported.map .reported ++ h)
        (j.engine.drain j.run).2.signals) (i.perform call)
  | other {h : History} {i : Instance C} {call : Call} :
      Reached e context h i → (∀ reported j, ¬ i.Opens call reported j) →
      Reached e context h (i.perform call)

/-! ## Calls that have an event processed, and others -/

variable {i j : Instance C} {call : Call} {reported : List Activity}

theorem acceptCall_snd (i : Instance C) (event : Event) :
    (i.acceptCall event).2 = (i.queueing event).drain.2 := by
  have haccept : i.accept event = (i.queueing event).drain := rfl
  simp only [acceptCall, haccept]
  split <;> rename_i hd <;> rw [hd]

theorem finish?_of_accepts {r : Report} (ha : i.Accepts r) :
    i.activities.finish? r.owner r.ticket = some (i.taking r).activities := by
  obtain ⟨-, x, hx, howner, hticket⟩ := ha
  cases hf : i.activities.finish? r.owner r.ticket with
  | none => exact absurd hticket (Activities.finish?_eq_none.1 hf x hx howner)
  | some activities =>
    obtain ⟨-, rfl⟩ := Activities.finish?_eq_some hf
    rfl

theorem deliver_of_not_accepts {r : Report} (ha : ¬ i.Accepts r) : i.deliver r = i := by
  cases hs : i.status with
  | notStarted => simp only [deliver, hs]
  | ended termination => simp only [deliver, hs]
  | active =>
    have hf : i.activities.finish? r.owner r.ticket = none := by
      refine Activities.finish?_eq_none.2 fun x hx howner hticket => ha ?_
      exact ⟨hs, x, hx, howner, hticket⟩
    simp only [deliver, hs, hf]

theorem Opens.perform (ho : i.Opens call reported j) : i.perform call = j.drain.2 := by
  cases ho with
  | start hs hc =>
    have hgo : ¬ i.cancelRequested = true := by simp [hc]
    simp only [Instance.perform, Instance.start, hs, if_neg hgo, acceptCall_snd]
  | send event hs => simp only [Instance.perform, Instance.send, hs, acceptCall_snd]
  | deliver r ha =>
    simp only [Instance.perform, Instance.deliver]
    split
    · rw [finish?_of_accepts ha]
      rfl
    · rename_i hnot
      exact absurd ha.1 hnot

/-- Run, status, outcome and register are the same; cancellation may have been requested, time may
have passed, and reports may have been collected. -/
structure Undisturbed (i i' : Instance C) : Prop where
  engine : i'.engine = i.engine
  run : i'.run = i.run
  status : i'.status = i.status
  outcome : i'.outcome = i.outcome
  attached : i'.activities.attached = i.activities.attached
  nextTicket : i'.activities.nextTicket = i.activities.nextTicket
  running : i'.activities.running = i.activities.running
  started : i'.activities.started = i.activities.started
  cancelled : i'.activities.cancelled = i.activities.cancelled

/-- Asking for the end, the passing of time and collecting reports disturb nothing. -/
theorem Undisturbed.passing (i : Instance C) (cancelRequested : Bool) (now : Nat)
    (pending : List TimedReport) : i.Undisturbed { i with
      cancelRequested, activities := { i.activities with now, pending } } :=
  ⟨rfl, rfl, rfl, rfl, rfl, rfl, rfl, rfl, rfl⟩

theorem Undisturbed.refl (i : Instance C) : i.Undisturbed i :=
  .passing i _ _ _

theorem Undisturbed.of_eq {i i' : Instance C} (h : i' = i) : i.Undisturbed i' := by
  rw [h]
  exact .refl i

theorem Undisturbed.trans {k : Instance C} (h : i.Undisturbed j) (h' : j.Undisturbed k) :
    i.Undisturbed k :=
  ⟨h'.engine.trans h.engine, h'.run.trans h.run, h'.status.trans h.status,
    h'.outcome.trans h.outcome, h'.attached.trans h.attached, h'.nextTicket.trans h.nextTicket,
    h'.running.trans h.running, h'.started.trans h.started, h'.cancelled.trans h.cancelled⟩

/-- A call without an event to process does not disturb the instance, or ends it. -/
theorem perform_of_not_opens (ho : ∀ reported j, ¬ i.Opens call reported j) :
    i.Undisturbed (i.perform call) ∨
      ∃ i', i.Undisturbed i' ∧ i.perform call = i'.finish .cancelled := by
  cases call with
  | start =>
    cases hs : i.status with
    | notStarted =>
      cases hc : i.cancelRequested with
      | false => exact absurd (.start hs hc) (ho _ _)
      | true =>
        refine .inr ⟨i, .refl i, ?_⟩
        simp only [perform, start, hs, if_pos hc]
    | active => exact .inl (.of_eq (by simp only [perform, start, hs]))
    | ended termination => exact .inl (.of_eq (by simp only [perform, start, hs]))
  | startUnhosted => exact .inl (.refl i)
  | send event =>
    cases hs : i.status with
    | notStarted => exact .inl (.of_eq (by simp only [perform, send, hs]))
    | active => exact absurd (.send event hs) (ho _ _)
    | ended termination => exact .inl (.of_eq (by simp only [perform, send, hs]))
  | deliver r =>
    have ha : ¬ i.Accepts r := fun ha => ho _ _ (.deliver r ha)
    exact .inl (.of_eq (deliver_of_not_accepts ha))
  | cancel =>
    simp only [perform, cancel, cancelNow]
    split
    · exact .inl (.passing i _ _ _)
    · exact .inr ⟨i.requestCancel, .passing i _ _ _, rfl⟩
  | requestCancel => exact .inl (.passing i _ _ _)
  | heedCancel =>
    simp only [perform, heedCancel, cancelNow]
    split
    · split
      · exact .inl (.refl i)
      · exact .inr ⟨i, .refl i, rfl⟩
    · exact .inl (.refl i)
  | collect => exact .inl (.passing i _ _ _)
  | moveTo time => exact .inl (.passing i _ _ _)

/-- A call whose drain comes to rest, with the rounds of the drain. -/
theorem Reached.opened_rounds {e : Engine C} {context : C} {h : History} {past : List Round}
    {run : Run C} (hr : Reached e context h i) (ho : i.Opens call reported j)
    (hrounds : j.engine.Rounds j.run past run) (hq : run.queue.dequeue? = none) :
    Reached e context (History.extend (reported.map .reported ++ h) run.signals)
      (j.adopt run) := by
  have hdrain := hrounds.drain_quiescent hq
  have hperform : i.perform call = j.adopt run := by
    rw [ho.perform]
    simp only [drain, hdrain]
  have hreached := hr.opened ho
  rw [hperform] at hreached
  simpa only [hdrain] using hreached

/-! ## Between two calls -/

/-- What holds of an instance between two calls: no event waits, no signal is left over, and
configuration and register are those that the history tells. -/
structure Sound (e : Engine C) (h : History) (i : Instance C) : Prop where
  engine : i.engine = e
  queue : i.run.queue = .empty
  signals : i.run.signals = []
  configuration : h.configuration = i.run.configuration
  accounted : i.activities.Accounted e.tree h
  unstarted : i.status = .notStarted → h = []
  serving : i.status = .active → i.activities.Serving e.tree h

variable {e : Engine C} {context : C} {h : History}

theorem sound_new (e : Engine C) (context : C) : (Instance.new e context).Sound e [] :=
  ⟨rfl, rfl, rfl, rfl, ⟨rfl, rfl, .refl _, fun x hx => by cases hx⟩, fun _ => rfl,
    fun hs => by cases hs⟩

theorem Sound.undisturbed (hi : i.Sound e h) (hu : i.Undisturbed j) : j.Sound e h := by
  have haccounted : j.activities.Accounted e.tree h := by
    refine ⟨?_, ?_, ?_, ?_⟩
    · rw [hu.nextTicket]; exact hi.accounted.issued
    · rw [hu.started, hu.nextTicket]; exact hi.accounted.tickets
    · rw [hu.running, hu.started, hu.cancelled]; exact hi.accounted.accounts
    · rw [hu.running]; exact hi.accounted.staying
  refine ⟨?_, ?_, ?_, ?_, haccounted, ?_, fun hs => ⟨haccounted, ?_, ?_⟩⟩
  · rw [hu.engine]; exact hi.engine
  · rw [hu.run]; exact hi.queue
  · rw [hu.run]; exact hi.signals
  · rw [hu.run]; exact hi.configuration
  · rw [hu.status]; exact hi.unstarted
  · rw [hu.status] at hs
    rw [hu.attached]; exact (hi.serving hs).attached
  · rw [hu.status] at hs
    rw [hu.running]; exact (hi.serving hs).served

theorem Sound.finish (hi : i.Sound e h) (termination : Termination) :
    (i.finish termination).Sound e h :=
  ⟨hi.engine, rfl, hi.signals, hi.configuration, hi.accounted.cancelBy _,
    fun hs => Status.noConfusion hs, fun hs => Status.noConfusion hs⟩

/-- A drain comes to rest, or ends the instance. -/
theorem drain_cases (j : Instance C) :
    (j.drain.2 = j.adopt (j.engine.drain j.run).2 ∧
        (j.engine.drain j.run).2.queue = .empty) ∨
      ∃ termination, j.drain.2 = (j.adopt (j.engine.drain j.run).2).finish termination := by
  simp only [drain]
  generalize hd : j.engine.drain j.run = result
  obtain ⟨result, run⟩ := result
  cases result with
  | error err => exact .inr ⟨_, rfl⟩
  | ok report =>
    cases ho : report.outcome with
    | quiescent =>
      obtain ⟨-, -, hq⟩ := Engine.drain_rest hd ho
      exact .inl ⟨by simp only [ho], hq⟩
    | completed => exact .inr ⟨.completed, by simp only [ho]⟩
    | faulted fault => exact .inr ⟨.faulted fault, by simp only [ho]⟩

theorem drain_sound (hw : e.tree.WellFormed) (he : j.engine = e) (hsignals : j.run.signals = [])
    (hc : h.configuration = j.run.configuration) (hstatus : j.status = .active)
    (hserving : j.activities.Serving e.tree h) :
    j.drain.2.Sound e (h.extend (e.drain j.run).2.signals) := by
  subst he
  obtain ⟨signals, hs, hl⟩ := Engine.drain_recorded hw j.run
  rw [hsignals, List.append_nil] at hs
  obtain ⟨hserves, hconfiguration⟩ := Activities.follow_serving hw hl hserving hc
  -- The instance that takes over the run, its waiting events aside.
  have hadopted : ({ j.adopt (j.engine.drain j.run).2 with
      run := { (j.engine.drain j.run).2 with queue := .empty, signals := [] } } :
      Instance C).Sound j.engine (h.extend (j.engine.drain j.run).2.signals) := by
    have hfollow : (j.adopt (j.engine.drain j.run).2).activities.Serving j.engine.tree
        (h.extend (j.engine.drain j.run).2.signals) := by
      simp only [adopt, hs, List.reverse_reverse]
      exact hserves
    refine ⟨rfl, rfl, rfl, ?_, hfollow.toAccounted, fun hn => ?_, fun _ => hfollow⟩
    · rw [hs]
      exact hconfiguration
    · have hactive : (j.adopt (j.engine.drain j.run).2).status = .active := hstatus
      rw [hactive] at hn
      cases hn
  rcases j.drain_cases with ⟨hd, hq⟩ | ⟨termination, hd⟩
  · rw [hd]
    have hsame : j.adopt (j.engine.drain j.run).2 = { j.adopt (j.engine.drain j.run).2 with
        run := { (j.engine.drain j.run).2 with queue := .empty, signals := [] } } := by
      simp only [adopt, ← hq]
    rw [hsame]
    exact hadopted
  · rw [hd]
    exact hadopted.finish termination

/-- How a call prepares an instance: the activities that report are struck off the register. -/
theorem Sound.opens (hi : i.Sound e h) (ho : i.Opens call reported j) :
    j.engine = e ∧ j.run.signals = [] ∧ j.run.configuration = i.run.configuration ∧
      j.status = .active ∧ j.activities.Serving e.tree (reported.map .reported ++ h) := by
  cases ho with
  | start hs hc =>
    have ha := hi.accounted
    refine ⟨hi.engine, hi.signals, rfl, rfl,
      ⟨ha.issued, ha.tickets, ha.accounts, ha.staying⟩, rfl, ?_⟩
    intro n hn hactive
    rw [hi.unstarted hs] at hactive
    exact absurd hactive (Configuration.not_mem_empty _)
  | send event hs => exact ⟨hi.engine, hi.signals, rfl, hs, hi.serving hs⟩
  | deliver r ha => exact ⟨hi.engine, hi.signals, rfl, ha.1, (hi.serving ha.1).report _⟩

/-- Every instance that calls lead to is sound. -/
theorem Reached.sound (hw : e.tree.WellFormed) (hr : Reached e context h i) : i.Sound e h := by
  induction hr with
  | new => exact sound_new e context
  | @opened h i j call reported _ ho ih =>
    obtain ⟨he, hs, hc, hstatus, hserving⟩ := ih.opens ho
    rw [ho.perform, he]
    refine drain_sound hw he hs ?_ hstatus hserving
    rw [History.configuration_reports, hc]
    exact ih.configuration
  | other _ ho ih =>
    rcases perform_of_not_opens ho with hu | ⟨i', hu, hp⟩
    · exact ih.undisturbed hu
    · rw [hp]
      exact (ih.undisturbed hu).finish _

theorem Reached.step (hr : Reached e context h i) (call : Call) :
    ∃ h', Reached e context h' (i.perform call) := by
  by_cases ho : ∃ reported j, i.Opens call reported j
  · obtain ⟨reported, j, ho⟩ := ho
    exact ⟨_, hr.opened ho⟩
  · exact ⟨h, hr.other fun reported j hopens => ho ⟨reported, j, hopens⟩⟩

/-! ## The clock -/

/-- Some calls lead from one instance to the other. -/
def LeadsTo (i j : Instance C) : Prop :=
  ∃ calls, i.performAll calls = j

theorem LeadsTo.refl (i : Instance C) : i.LeadsTo i :=
  ⟨[], rfl⟩

theorem LeadsTo.step (i : Instance C) (call : Call) : i.LeadsTo (i.perform call) :=
  ⟨[call], rfl⟩

theorem LeadsTo.trans {k : Instance C} (hij : i.LeadsTo j) (hjk : j.LeadsTo k) : i.LeadsTo k := by
  obtain ⟨calls, rfl⟩ := hij
  obtain ⟨calls', rfl⟩ := hjk
  exact ⟨calls ++ calls', List.foldl_append⟩

theorem Reached.leadsTo (hr : Reached e context h i) (hl : i.LeadsTo j) :
    ∃ h', Reached e context h' j := by
  obtain ⟨calls, rfl⟩ := hl
  induction calls generalizing h i with
  | nil => exact ⟨h, hr⟩
  | cons call rest ih =>
    obtain ⟨h', hr'⟩ := hr.step call
    exact ih hr'

theorem deliverDue?_leadsTo (hd : i.deliverDue? = some j) : i.LeadsTo j := by
  simp only [deliverDue?] at hd
  split at hd
  · cases hd
  · rename_i reports activities _ hdue
    cases hd
    refine ⟨.collect :: reports.map .deliver, ?_⟩
    have hcollect : i.perform .collect = { i with activities } := by simp only [perform, hdue]
    rw [performAll, List.foldl_cons, hcollect, List.foldl_map]
    rfl

theorem settle_leadsTo (i : Instance C) : i.LeadsTo i.settle := by
  have rounds : ∀ n (i : Instance C), i.LeadsTo (settleFor n i) := by
    intro n
    induction n with
    | zero => exact LeadsTo.refl
    | succ n ih =>
      intro i
      simp only [settleFor]
      split
      · rename_i j hd
        exact (deliverDue?_leadsTo hd).trans (ih j)
      · exact .refl i
  exact (LeadsTo.step i .heedCancel).trans (rounds maxRounds _)

theorem moveTo_settle_leadsTo (i : Instance C) (time : Nat) : i.LeadsTo (i.moveTo time).settle :=
  (LeadsTo.step i (.moveTo time)).trans (settle_leadsTo _)

theorem advanceFrom_leadsTo (target now : Nat) (i : Instance C) :
    i.LeadsTo (advanceFrom target now i) := by
  induction now, i using advanceFrom.induct target with
  | case1 now i i' hdue =>
    rw [advanceFrom, hdue]
    exact (moveTo_settle_leadsTo i now).trans (.step _ (.moveTo target))
  | case2 now i i' due hdue hlater ih =>
    rw [advanceFrom, hdue]
    simp only [if_pos hlater]
    exact (moveTo_settle_leadsTo i now).trans ih
  | case3 now i i' due hdue hlater =>
    rw [advanceFrom, hdue]
    simp only [if_neg hlater]
    exact (moveTo_settle_leadsTo i now).trans (.step _ (.moveTo target))

theorem waitFrom_leadsTo (deadline now : Nat) (i : Instance C) :
    i.LeadsTo (waitFrom deadline now i) := by
  induction now, i using waitFrom.induct deadline with
  | case1 now i i' hended =>
    rw [waitFrom, if_pos hended]
    exact moveTo_settle_leadsTo i now
  | case2 now i i' hgo hdue =>
    rw [waitFrom, if_neg hgo, hdue]
    exact (moveTo_settle_leadsTo i now).trans (.step _ (.moveTo deadline))
  | case3 now i i' hgo due hdue hlater ih =>
    rw [waitFrom, if_neg hgo, hdue]
    simp only [if_pos hlater]
    exact (moveTo_settle_leadsTo i now).trans ih
  | case4 now i i' hgo due hdue hlater =>
    rw [waitFrom, if_neg hgo, hdue]
    simp only [if_neg hlater]
    exact (moveTo_settle_leadsTo i now).trans (.step _ (.moveTo deadline))

theorem advance_leadsTo (i : Instance C) (duration : Nat) : i.LeadsTo (i.advance duration) :=
  advanceFrom_leadsTo _ _ i

theorem wait_leadsTo (i : Instance C) (duration : Nat) : i.LeadsTo (i.wait duration) := by
  simp only [wait]
  split
  · exact .refl i
  · exact waitFrom_leadsTo _ _ i

end Instance

end Statechart
