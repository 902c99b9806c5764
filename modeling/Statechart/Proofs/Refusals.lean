import Statechart.Proofs.Accounting
import Statechart.Proofs.Calls
import Statechart.Proofs.Forks
import Statechart.Proofs.Trace

/-!
# Statechart.Proofs.Refusals

The engine refuses nothing that calls and reports of activities ask of it. Every transition can be
planned, since its targets are states below the root. Events come after the start, since the root
is entered first and never left, so some state is active from then on.

* `Tree.process_root`: what processing an event does to the root.
* `Tree.Rooted`, `Engine.Drains.rooted`: a drain that starts the chart, or finds it started.
* `Instance.Reached.root`: the root in the history of an instance.
* `Instance.never_refused`: every instance and every call.
-/

namespace Statechart

variable {C : Type}

/-! ## The root -/

namespace Tree

variable {t : Tree C} {run run' : Run C} {event : Event} {report : StepReport}

/-- The root is entered only where no state is active. -/
theorem Planned.root_entered (h : t.WellFormed) {c : Configuration} {p : Plan}
    (hp : t.Planned c p) (hentered : t.root.id ∈ p.entered) : c = .empty := by
  cases hp with
  | initialization hc => exact hc
  | targetless => cases hentered
  | @transition n tr target p hn htr htarget _ hplan =>
    obtain ⟨hmem, hne⟩ := h.targets n hn tr htr target htarget
    obtain ⟨top, boundary, hs, rfl, -⟩ := plan_eq_ok h (id_mem_ids hn) hmem hne hplan
    rw [planWithin_entered, List.mem_filter, mem_way h hs] at hentered
    exact absurd hentered.1.2 (h.not_isAncestorOf_root (id_mem_ids hs.mem))
  | stabilization hplan =>
    obtain ⟨hn, rfl⟩ := planStabilization_eq_some hplan
    obtain ⟨⟨hmem, -⟩, hlacks⟩ := mem_unstable.1 hn
    have hparent := (h.child_mem hmem (mem_missingChildren h hmem hlacks hentered).1).2
    rw [h.root_parent] at hparent
    cases hparent

theorem Steps.root_untouched (h : t.WellFormed) {ms : List Microstep}
    (hsteps : t.Steps run ms run') (hinit : run.configuration.isInitialized = true) :
    ∀ m ∈ ms, t.root.id ∉ m.exited ∧ t.root.id ∉ m.entered := by
  induction hsteps with
  | nil => exact fun m hm => by cases hm
  | @cons run run' p actions cause ms hp _ ih =>
    have hnext : (t.apply p actions cause run).2.configuration.isInitialized = true := by
      rw [apply_configuration]
      exact hp.initialized h hinit
    refine List.forall_mem_cons.2 ⟨⟨hp.root_not_mem_exited h, fun hentered => ?_⟩, ih hnext⟩
    rw [hp.root_entered h hentered] at hinit
    cases hinit

/-- No microstep leaves the root, and only that of the start enters it. -/
theorem process_root (h : t.WellFormed) (hp : t.process event run = (.ok report, run')) :
    ∀ m ∈ report.microsteps, t.root.id ∉ m.exited ∧ (t.root.id ∈ m.entered →
      m.kind = .initialization ∧ event = .start ∧ run.configuration = .empty) := by
  by_cases hinit : run.configuration.isInitialized = true
  · obtain ⟨mid, hsteps, -⟩ := process_steps h hp
    intro m hm
    obtain ⟨hexited, hentered⟩ := hsteps.root_untouched h hinit m hm
    exact ⟨hexited, fun hin => absurd hin hentered⟩
  · by_cases he : event = .start
    · subst he
      have hc := Configuration.eq_empty_of_not_initialized hinit
      simp only [process, if_neg hinit] at hp
      cases hp
      refine List.forall_mem_cons.2 ⟨⟨List.not_mem_nil, fun _ => ⟨rfl, rfl, hc⟩⟩, fun m hm => ?_⟩
      have hstarted : (t.apply { entered := [t.root.id] } []
          ⟨"initialize", .null, .initialization⟩ run).2.configuration.isInitialized = true := by
        rw [apply_configuration, hc]
        exact Configuration.isInitialized_iff.2 ⟨_, Configuration.mem_insert.2 (.inl rfl)⟩
      obtain ⟨hexited, hentered⟩ := (stabilize_steps .null _).root_untouched h hstarted m hm
      exact ⟨hexited, fun hin => absurd hin hentered⟩
    · rw [process_eq he, if_neg hinit] at hp
      cases hp

/-- After an event that was not refused the root is active. -/
theorem process_root_mem (h : t.WellFormed)
    (hc : t.root.id ∈ run.configuration ∨ run.configuration = .empty)
    (hp : t.process event run = (.ok report, run')) : t.root.id ∈ run'.configuration := by
  rcases process_cases h event run with ⟨-, hinit, hok⟩ | ⟨-, -, herr⟩ |
    ⟨data, handled, taken, mid, hsteps, hnew, hok⟩
  · rw [hok] at hp
    cases hp
    refine hc.resolve_right fun hempty => ?_
    rw [hempty] at hinit
    cases hinit
  · rw [herr] at hp
    cases hp
  · rw [hok] at hp
    cases hp
    have hmid : t.root.id ∈ mid.configuration := by
      rcases hc with hroot | hempty
      · exact hsteps.root_mem h hroot
      · rw [(hnew (by rw [hempty]; rfl)).2.2]
        exact Configuration.mem_insert.2 (.inl rfl)
    exact (stabilize_steps data mid).root_mem h hmid

/-- A state that is not left is entered once at most, and not if it was active before. -/
theorem Lifecycle.count_entered {c c' : Configuration} {signals : List Signal}
    (hl : t.Lifecycle c signals c') {id : StateId} (hstay : .exited id ∉ signals) :
    signals.count (.entered id) + (if id ∈ c then 1 else 0) = if id ∈ c' then 1 else 0 := by
  induction hl with
  | nil => simp
  | @entered c c' other signals _ hout _ ih =>
    have ih := ih fun hin => hstay (List.mem_cons_of_mem _ hin)
    by_cases hother : other = id
    · subst hother
      rw [if_pos (Configuration.mem_insert.2 (.inl rfl))] at ih
      rw [List.count_cons_self, if_neg hout]
      exact ih
    · simpa [Configuration.mem_insert, List.count_cons, hother, Ne.symm hother] using ih
  | @exited c c' other signals _ _ ih =>
    rw [List.mem_cons, not_or] at hstay
    have hother : id ≠ other := fun hsame => hstay.1 (congrArg _ hsame)
    simpa [Configuration.mem_erase, List.count_cons, hother] using ih hstay.2
  | logged message _ ih =>
    simpa [List.count_cons] using ih fun hin => hstay (List.mem_cons_of_mem _ hin)

/-- Is the chart started, or about to be? -/
def Rooted (t : Tree C) (run : Run C) : Prop :=
  t.root.id ∈ run.configuration ∨ run.configuration = .empty ∧
    ∃ band queue, run.queue.dequeue? = some ((.start, band), queue)

end Tree

/-! ## Drains -/

namespace Engine

variable {e : Engine C} {start run : Run C} {rounds : List Round}
  {result : Except EngineError DrainReport × Run C}

theorem Rounds.rooted (h : e.tree.WellFormed) (hrounds : e.Rounds start rounds run)
    (hstart : e.tree.Rooted start) : e.tree.Rooted run := by
  induction hrounds with
  | none => exact hstart
  | @next past run run' event band queue report _ _ hp _ ih =>
    have hbefore : e.tree.root.id ∈ ({ run with queue } : Run C).configuration ∨
        ({ run with queue } : Run C).configuration = .empty := ih.imp_right And.left
    exact .inl (Tree.process_root_mem h hbefore hp)

/-- The root is active after the drain, and the drain fails with the limit only. -/
theorem Drains.rooted (h : e.tree.WellFormed) (hdrain : e.Drains start rounds result)
    (hstart : e.tree.Rooted start) :
    e.tree.root.id ∈ result.2.configuration ∧
      ∀ err, result.1 = .error err → err = .microstepLimit e.limits.maxMicrosteps := by
  obtain ⟨past, run, hrounds, hends⟩ := hdrain
  have hrun := hrounds.rooted h hstart
  cases hends with
  | quiescent hq =>
    refine ⟨hrun.resolve_right ?_, fun err herr => by cases herr⟩
    rintro ⟨-, band, queue, hq'⟩
    rw [hq] at hq'
    cases hq'
  | @failed event band queue err run' hq hp =>
    exfalso
    rcases hrun with hroot | ⟨hempty, band', queue', hq'⟩
    · have hinit : ({ run with queue } : Run C).configuration.isInitialized = true :=
        Configuration.isInitialized_iff.2 ⟨_, hroot⟩
      obtain ⟨report, run'', hok⟩ := Tree.exists_process h event hinit
      rw [hok] at hp
      cases hp
    · rw [hq] at hq'
      cases hq'
      simp only [Tree.process, hempty] at hp
      cases hp
  | @stopped event band queue report run' stop _ hp _ =>
    have hbefore : e.tree.root.id ∈ ({ run with queue } : Run C).configuration ∨
        ({ run with queue } : Run C).configuration = .empty := hrun.imp_right And.left
    have hroot : e.tree.root.id ∈ run'.configuration := Tree.process_root_mem h hbefore hp
    refine ⟨hroot, fun err herr => ?_⟩
    cases stop <;> cases herr
    rfl

theorem Drains.root_stays (h : e.tree.WellFormed) (hdrain : e.Drains start rounds result)
    (hstart : .exited e.tree.root.id ∉ start.calls) :
    .exited e.tree.root.id ∉ result.2.calls := by
  refine hdrain.preserves (P := fun _ run => .exited e.tree.root.id ∉ run.calls) []
    (fun _ hrun => hrun) ?_ ?_ hstart
  · intro events run event report run' hrun hp hexited
    rw [(Tree.process_traced h hp).calls, List.mem_append] at hexited
    obtain ⟨m, hm, hcall⟩ := List.mem_flatMap.1 (hexited.resolve_left hrun)
    have hstay := (Tree.process_root h hp m hm).1
    exact hstay (by simpa [Microstep.calls] using hcall)
  · intro events run event err run' hrun hp
    rw [Tree.process_refused h hp]
    exact hrun

end Engine

/-! ## Instances -/

namespace History

variable {h : History} {signals : List Signal} {id : StateId}

theorem exited_mem_extend :
    .exited id ∈ h.extend signals ↔ .exited id ∈ signals ∨ .exited id ∈ h := by
  rw [extend, List.mem_append, List.mem_filterMap]
  refine or_congr_left ⟨?_, fun hin => ⟨_, hin, rfl⟩⟩
  rintro ⟨s, hs, hid⟩
  cases s <;> cases hid
  exact hs

theorem count_extend (h : History) (signals : List Signal) (id : StateId) :
    (h.extend signals).count (.entered id) =
      signals.count (.entered id) + h.count (.entered id) := by
  rw [extend, List.count_append, Nat.add_right_cancel_iff]
  induction signals with
  | nil => rfl
  | cons s rest ih => cases s <;> simp [List.filterMap_cons, Signal.happening?, List.count_cons, ih]

end History

/-- Is this an error of the chart or of the engine? -/
def InstanceError.isCore : InstanceError → Bool
  | .chart _ => true
  | .engine _ => true
  | _ => false

namespace Instance

/-- The errors that calls meet. That of a delivery is told to nobody. -/
inductive Meets (i : Instance C) : Call → InstanceError → Prop where
  | start {err : InstanceError} {j : Instance C} : i.start = (.error err, j) → Meets i .start err
  | startUnhosted {err : InstanceError} {j : Instance C} :
      i.startOn false = (.error err, j) → Meets i .startUnhosted err
  | send {event : Event} {err : InstanceError} {j : Instance C} :
      i.send event = (.error err, j) → Meets i (.send event) err
  | deliver {r : Report} {activities : Activities} {err : InstanceError} {j : Instance C} :
      i.status = .active → i.activities.finish? r.owner r.ticket = some activities →
      accept { i with activities } r.event = (.error err, j) → Meets i (.deliver r) err

variable {e : Engine C} {context : C} {h : History} {i j : Instance C} {call : Call}
  {reported : List Activity} {err : InstanceError}

theorem drain_error (hd : j.drain = (.error err, i)) (hcore : err.isCore = true) :
    ∃ err', err = .engine err' ∧ (j.engine.drain j.run).1 = .error err' := by
  simp only [drain] at hd
  split at hd
  · split at hd
    · cases hd
    · cases hd
    · rename_i fault _
      cases hd
      cases fault <;> cases hcore
  · rename_i err' hresult
    cases hd
    exact ⟨err', rfl, hresult⟩

theorem acceptCall_error {event : Event} (ha : i.acceptCall event = (.error err, j)) :
    (i.queueing event).drain = (.error err, j) := by
  have haccept : i.accept event = (i.queueing event).drain := rfl
  simp only [acceptCall, haccept] at ha
  split at ha
  · cases ha
  · rename_i hd
    cases ha
    exact hd

/-- An error of the engine comes from the drain that a call leads to. -/
theorem Meets.drains (hm : i.Meets call err) (hcore : err.isCore = true) :
    ∃ reported j err', i.Opens call reported j ∧ err = .engine err' ∧
      (j.engine.drain j.run).1 = .error err' := by
  cases hm with
  | @start _ k hstart =>
    simp only [Instance.start] at hstart
    split at hstart
    · cases hstart
      cases hcore
    · cases hstart
      cases hcore
    · rename_i hs
      split at hstart
      · cases hstart
        cases hcore
      · rename_i hc
        obtain ⟨err', rfl, hd⟩ := drain_error (acceptCall_error hstart) hcore
        exact ⟨_, _, err', .start hs (by simpa using hc), rfl, hd⟩
  | startUnhosted hstart =>
    cases hstart
    cases hcore
  | @send event _ k hsend =>
    simp only [Instance.send] at hsend
    split at hsend
    · cases hsend
      cases hcore
    · cases hsend
      cases hcore
    · rename_i hs
      obtain ⟨err', rfl, hd⟩ := drain_error (acceptCall_error hsend) hcore
      exact ⟨_, _, err', .send event hs, rfl, hd⟩
  | @deliver r activities _ k hs hf haccept =>
    obtain ⟨hmem, rfl⟩ := Activities.finish?_eq_some hf
    obtain ⟨err', rfl, hd⟩ := drain_error haccept hcore
    exact ⟨_, _, err', .deliver r ⟨hs, hmem⟩, rfl, hd⟩

/-- What the drain of a call fails with, the call meets. -/
theorem Opens.meets (ho : i.Opens call reported j) {err : EngineError}
    (hd : (j.engine.drain j.run).1 = .error err) : i.Meets call (.engine err) := by
  obtain ⟨k, hk⟩ : ∃ k, j.drain = (.error (.engine err), k) := by
    simp only [drain, hd]
    exact ⟨_, rfl⟩
  cases ho with
  | start hs hc =>
    refine .start (j := k) ?_
    have hgo : ¬ i.cancelRequested = true := by simp [hc]
    have haccept : Instance.accept { i with
        status := .active, activities := i.activities.attach } .start =
          (.error (.engine err), k) := hk
    simp only [Instance.start, hs, if_neg hgo, acceptCall, haccept]
  | send event hs =>
    refine .send (j := k) ?_
    have haccept : i.accept event = (.error (.engine err), k) := hk
    simp only [Instance.send, hs, acceptCall, haccept]
  | deliver r ha => exact .deliver ha.1 (finish?_of_accepts ha) hk

theorem Sound.rooted (hi : i.Sound e h)
    (hroot : i.status = .active → e.tree.root.id ∈ i.run.configuration)
    (ho : i.Opens call reported j) : e.tree.Rooted j.run := by
  cases ho with
  | start hs hc =>
    refine .inr ⟨?_, .nextMacrostep, .empty, ?_⟩
    · have hconfiguration := hi.configuration
      rw [hi.unstarted hs] at hconfiguration
      exact hconfiguration.symm
    · show (i.run.queue.enqueue .start .nextMacrostep).dequeue? = _
      rw [hi.queue]
      rfl
  | send event hs => exact .inl (hroot hs)
  | deliver r ha => exact .inl (hroot ha.1)

theorem drain_configuration (j : Instance C) :
    j.drain.2.run.configuration = (j.engine.drain j.run).2.configuration := by
  rcases j.drain_cases with ⟨hd, -⟩ | ⟨termination, hd⟩
  · rw [hd]
    rfl
  · rw [hd]
    rfl

/-- The root is never left. It is entered once, and is active from then on. -/
theorem Reached.root (hw : e.tree.WellFormed) (hr : Reached e context h i) :
    .exited e.tree.root.id ∉ h ∧
      h.count (.entered e.tree.root.id) =
        (if e.tree.root.id ∈ i.run.configuration then 1 else 0) ∧
      (i.status = .active → e.tree.root.id ∈ i.run.configuration) ∧
      (i.run.configuration = .empty ∨ e.tree.root.id ∈ i.run.configuration) := by
  induction hr with
  | new =>
    refine ⟨List.not_mem_nil, ?_, fun hs => (by cases hs), .inl rfl⟩
    exact (if_neg (Configuration.not_mem_empty _)).symm
  | @opened h i j call reported hr ho ih =>
    obtain ⟨hstay, hcount, hactive, -⟩ := ih
    have hi := hr.sound hw
    obtain ⟨rfl, hsignals, hc, -, -⟩ := hi.opens ho
    obtain ⟨rounds, hdrain⟩ := j.engine.drain_rounds j.run
    have hroot := (hdrain.rooted hw (hi.rooted hactive ho)).1
    obtain ⟨signals, hs, hl⟩ := Engine.drain_recorded hw j.run
    rw [hsignals, List.append_nil] at hs
    have hnone : .exited j.engine.tree.root.id ∉ signals := by
      have hcalls := hdrain.root_stays hw (by simp [Run.calls, hsignals])
      simpa [Run.calls, hs, Signal.isMessage] using hcalls
    have hentered := hl.count_entered hnone
    rw [ho.perform, drain_configuration, if_pos hroot]
    rw [if_pos hroot, hc] at hentered
    refine ⟨?_, ?_, fun _ => hroot, .inr hroot⟩
    · rw [hs, History.exited_mem_extend, List.mem_reverse, List.mem_append]
      rintro (hsignal | hreport | hbefore)
      · exact hnone hsignal
      · simp at hreport
      · exact hstay hbefore
    · have hreports :
          (reported.map Happening.reported).count (.entered j.engine.tree.root.id) = 0 :=
        List.count_eq_zero.2 (by simp)
      rw [hs, History.count_extend, List.count_reverse, List.count_append, hreports, hcount]
      omega
  | @other h i call hr ho ih =>
    rcases perform_of_not_opens ho with hu | ⟨i', hu, hp⟩
    · rw [hu.run, hu.status]
      exact ih
    · obtain ⟨hstay, hcount, -, hsides⟩ := ih
      rw [← hu.run] at hcount hsides
      rw [hp]
      exact ⟨hstay, hcount, fun hs => (by cases hs), hsides⟩

/-- Whatever calls and reports an instance meets, the engine fails with the limit on microsteps
only. Every transition of the chart can be planned wherever it stands, no event leaves the root, and
the start alone enters it, once. -/
theorem never_refused {d : NodeDef C} {t : Tree C} (hb : Tree.build d = .ok t) {limits : Limits}
    (hr : Reached ⟨t, limits⟩ context h i) :
    (∀ call err, i.Meets call err → err.isCore = true →
        err = .engine (.microstepLimit limits.maxMicrosteps)) ∧
      (∀ n ∈ t.nodes, ∀ tr ∈ n.transitions, ∀ target ∈ tr.targets, ∀ c : Configuration,
        c.isInitialized = true → ∃ p, t.plan c n.id target = .ok p) ∧
      (∀ event run report run', t.process event run = (.ok report, run') →
        ∀ m ∈ report.microsteps, t.root.id ∉ m.exited ∧ (t.root.id ∈ m.entered →
          m.kind = .initialization ∧ event = .start ∧ run.configuration = .empty)) ∧
      .exited t.root.id ∉ h ∧
      h.count (.entered t.root.id) = (if i.run.configuration.isInitialized then 1 else 0) ∧
      (i.status = .active → i.run.configuration.isInitialized = true) := by
  have hw : (⟨t, limits⟩ : Engine C).tree.WellFormed := Tree.build_wellFormed hb
  obtain ⟨hstay, hcount, hactive, hsides⟩ := hr.root hw
  have hinit : i.run.configuration.isInitialized = true ↔ t.root.id ∈ i.run.configuration := by
    refine ⟨fun hinit => hsides.resolve_left fun hempty => ?_,
      fun hroot => Configuration.isInitialized_iff.2 ⟨_, hroot⟩⟩
    rw [hempty] at hinit
    cases hinit
  refine ⟨?_, ?_, fun event run report run' hp => Tree.process_root hw hp, hstay, ?_, ?_⟩
  · intro call err hmeets hcore
    obtain ⟨reported, j, err', ho, rfl, hfails⟩ := hmeets.drains hcore
    have hi := hr.sound hw
    obtain ⟨he, -⟩ := hi.opens ho
    have hrooted := hi.rooted hactive ho
    rw [he] at hfails
    obtain ⟨rounds, hdrain⟩ := Engine.drain_rounds ⟨t, limits⟩ j.run
    exact congrArg _ ((hdrain.rooted hw hrooted).2 err' hfails)
  · intro n hn tr htr target htarget c _
    obtain ⟨hmem, hne⟩ := hw.targets n hn tr htr target htarget
    exact Tree.exists_plan hw c (Tree.id_mem_ids hn) hmem hne
  · simp only [hcount, hinit]
  · exact fun hs => hinit.2 (hactive hs)

end Instance

/-- The instance of the chart with two regions, after `split` has entered both. -/
def forkingInstance : Instance Nat where
  engine := ⟨forkingTree, {}⟩
  run := { context := 0, configuration := forkingSplit.configuration }
  activities := { attached := true }
  status := .active

/-- The root is entered once. When the step to the other region has left the source, the step to the
second target can still be planned. An instance that may take no microstep fails with the limit. -/
theorem forking_unrefused :
    Tree.build forking = .ok forkingTree ∧
      (∃ h, Instance.Reached ⟨forkingTree, {}⟩ 0 h forkingInstance ∧ .exited ⟨["m"]⟩ ∉ h ∧
        h.count (.entered ⟨["m"]⟩) = 1) ∧
      (∃ p, forkingTree.plan (.ofList [⟨["m"]⟩, ⟨["m", "pair"]⟩, ⟨["m", "pair", "r"]⟩])
        ⟨["m", "pair", "l", "work", "a"]⟩ ⟨["m", "pair", "l", "work", "b"]⟩ = .ok p) ∧
      ∃ err, (Instance.new ⟨forkingTree, { maxMicrosteps := 0 }⟩ 0).Meets .start err ∧
        err = .engine (.microstepLimit 0) := by
  have hbuild : Tree.build forking = .ok forkingTree := rfl
  have hstart : Instance.Reached ⟨forkingTree, {}⟩ 0 _
      { forkingInstance with run := {
        context := 0, configuration := forkingStarted.configuration } } :=
    Instance.Reached.new.opened_rounds (.start rfl rfl) (.next .none rfl rfl rfl) rfl
  have hsplit : Instance.Reached ⟨forkingTree, {}⟩ 0 _ forkingInstance :=
    hstart.opened_rounds (.send (.named "split" .null) rfl) (.next .none rfl rfl rfl) rfl
  obtain ⟨-, hplan, -, hstay, hcount, -⟩ := Instance.never_refused hbuild hsplit
  have hopens : (Instance.new ⟨forkingTree, { maxMicrosteps := 0 }⟩ 0).Opens .start [] _ :=
    .start rfl rfl
  have hnone : Engine.Rounds ⟨forkingTree, { maxMicrosteps := 0 }⟩
      { Run.new 0 with queue := ⟨[], [], [.start]⟩ } [] _ := .none
  have hdrain := hnone.drain_stopped rfl rfl rfl
  have hmeets := hopens.meets (congrArg Prod.fst hdrain)
  refine ⟨hbuild, ⟨_, hsplit, hstay, hcount⟩, ?_, _, hmeets, ?_⟩
  · exact hplan _ (.tail _ (.tail _ (.tail _ (.tail _ (.tail _ (.tail _ (.head _))))))) _
      (.head _) _ (.tail _ (.head _)) _ rfl
  · exact (Instance.never_refused hbuild .new).1 _ _ hmeets rfl

end Statechart
