import Statechart.Engine.Process
import Statechart.Proofs.Planning
import Statechart.Proofs.Selection

/-!
# Statechart.Proofs.Microsteps

What processing an event can do. `Tree.Planned` lists the ways in which a microstep comes about,
and `Tree.Steps` is a run of microsteps. `Tree.process_cases` says that processing an event in a
well-formed chart either does nothing or is such a run followed by stabilization; invariants of
single microsteps are carried over to events by induction on `Tree.Steps`.

* `Tree.apply_configuration`: a microstep changes the configuration as it was planned.
* `Tree.unstable_stabilize`: no active state lacks children after stabilization.
-/

namespace Statechart

variable {C : Type}

namespace Tree

/-- The ways in which a step is planned in a configuration. A transition with several targets is
planned for each of them in turn, and the first step may have left its source. -/
inductive Planned (t : Tree C) (c : Configuration) : Plan → Prop where
  | initialization : c = .empty → Planned t c { entered := [t.root.id] }
  | targetless : Planned t c {}
  | transition {n : Node C} {tr : Transition C} {target : StateId} {p : Plan} :
      n ∈ t.nodes → tr ∈ n.transitions → target ∈ tr.targets →
      (tr.targets.length ≤ 1 → n.id ∈ c) → t.plan c n.id target = .ok p → Planned t c p
  | stabilization {n : Node C} {p : Plan} :
      t.planStabilization c = some (n, p) → Planned t c p

/-- A run of microsteps. -/
inductive Steps (t : Tree C) : Run C → List Microstep → Run C → Prop where
  | nil {run : Run C} : Steps t run [] run
  | cons {run run' : Run C} {p : Plan} {actions : List (Action C)} {cause : Cause}
      {ms : List Microstep} :
      Planned t run.configuration p → Steps t (t.apply p actions cause run).2 ms run' →
      Steps t run ((t.apply p actions cause run).1 :: ms) run'

theorem Steps.single {t : Tree C} {run : Run C} {p : Plan} (actions : List (Action C))
    (cause : Cause) (h : t.Planned run.configuration p) :
    t.Steps run [(t.apply p actions cause run).1] (t.apply p actions cause run).2 := .cons h .nil

theorem Steps.trans {t : Tree C} {run run' run'' : Run C} {ms ms' : List Microstep}
    (h : t.Steps run ms run') (h' : t.Steps run' ms' run'') : t.Steps run (ms ++ ms') run'' := by
  induction h with
  | nil => exact h'
  | cons hp _ ih => exact .cons hp (ih h')

variable {t : Tree C} {run : Run C}

/-! ## One microstep -/

theorem foldl_leave_configuration (data : Json) (ids : List StateId) (run : Run C) :
    (ids.foldl (t.leave data) run).configuration = run.configuration := by
  induction ids generalizing run with
  | nil => rfl
  | cons id rest ih => exact ih _

theorem foldl_enter_configuration (data : Json) (ids : List StateId) (run : Run C) :
    (ids.foldl (t.enter data) run).configuration = run.configuration.insertAll ids := by
  induction ids generalizing run with
  | nil => rfl
  | cons id rest ih => exact ih _

/-- A microstep changes the configuration as it was planned. -/
theorem apply_configuration (p : Plan) (actions : List (Action C)) (cause : Cause) (run : Run C) :
    (t.apply p actions cause run).2.configuration = p.applyTo run.configuration := by
  simp only [apply, foldl_enter_configuration, foldl_leave_configuration, Plan.applyTo]

/-- The plans of a well-formed chart fit. -/
theorem Planned.fits (h : t.WellFormed) {c : Configuration} {p : Plan} (hp : t.Planned c p) :
    p.Fits t.ids c := by
  cases hp with
  | initialization hc =>
    subst hc
    refine ⟨.nil, fun id hid => (List.not_mem_nil hid).elim, List.nodup_singleton _, ?_,
      fun id _ => Configuration.not_mem_empty id⟩
    intro id hid
    rw [List.mem_singleton.1 hid]
    exact root_mem_ids
  | targetless =>
    exact ⟨.nil, fun id hid => (List.not_mem_nil hid).elim, .nil,
      fun id hid => (List.not_mem_nil hid).elim, fun id hid => (List.not_mem_nil hid).elim⟩
  | transition hn htr htarget _ hplan =>
    obtain ⟨hmem, hne⟩ := h.targets _ hn _ htr _ htarget
    exact plan_fits h (id_mem_ids hn) hmem hne hplan
  | stabilization hplan => exact planStabilization_fits h hplan

/-! ## Taking transitions -/

theorem Offers.source_mem {s : Selected C} (hs : t.Offers s) : s.ref.source ∈ t.ids := by
  obtain ⟨n, hn, hsource, -⟩ := hs
  exact hsource ▸ id_mem_ids hn

/-- The targets of a transition are states of the chart, other than the root. -/
theorem Offers.target_mem (h : t.WellFormed) {s : Selected C} (hs : t.Offers s)
    {target : StateId} (htarget : target ∈ s.transition.targets) :
    target ∈ t.ids ∧ target ≠ t.root.id := by
  obtain ⟨n, hn, -, htr⟩ := hs
  exact h.targets n hn _ htr target htarget

theorem takeTo_cons (source : StateId) (cause : Cause) (actions : List (Action C))
    (target : StateId) (rest : List StateId) (run : Run C) :
    t.takeTo source cause actions (target :: rest) run =
      match t.plan run.configuration source target with
      | .error e => (.error e, run)
      | .ok p =>
        let (m, mid) := t.apply p actions cause run
        let (ms, last) := t.takeTo source cause [] rest mid
        (ms.map (m :: ·), last) := by
  rw [takeTo]
  cases t.plan run.configuration source target with
  | error e => rfl
  | ok p =>
    generalize hrest : t.takeTo source cause [] rest (t.apply p actions cause run).2 = result
    obtain ⟨_ | ms, last⟩ := result <;> simp only [hrest, Except.map]

theorem takeAll_cons (event : Event) (s : Selected C) (rest : List (Selected C)) (run : Run C) :
    t.takeAll event (s :: rest) run =
      if s.transition.isForbidden || !run.configuration.contains s.ref.source then
        t.takeAll event rest run
      else
        match t.take event s run with
        | (.error e, mid) => (.error e, mid)
        | (.ok ms, mid) =>
          let (ms', last) := t.takeAll event rest mid
          (ms'.map (ms ++ ·), last) := by
  rw [takeAll]
  split
  · rfl
  · obtain ⟨_ | ms, mid⟩ := t.take event s run
    · rfl
    · generalize hrest : t.takeAll event rest mid = result
      obtain ⟨_ | ms', last⟩ := result <;> simp only [hrest, Except.map]

theorem takeTo_steps (h : t.WellFormed) {n : Node C} (hn : n ∈ t.nodes) {tr : Transition C}
    (htr : tr ∈ n.transitions) (cause : Cause) {targets : List StateId}
    (htargets : ∀ target ∈ targets, target ∈ tr.targets) {actions : List (Action C)} {run : Run C}
    (hactive : tr.targets.length ≤ 1 → targets.length ≤ 1 ∧ n.id ∈ run.configuration) :
    ∃ ms run', t.takeTo n.id cause actions targets run = (.ok ms, run') ∧ t.Steps run ms run' := by
  induction targets generalizing actions run with
  | nil => exact ⟨[], run, rfl, .nil⟩
  | cons target rest ih =>
    have htarget := htargets target List.mem_cons_self
    obtain ⟨hmem, hne⟩ := h.targets n hn tr htr target htarget
    obtain ⟨p, hp⟩ := exists_plan h run.configuration (id_mem_ids hn) hmem hne
    have hplanned : t.Planned run.configuration p :=
      .transition hn htr htarget (fun hle => (hactive hle).2) hp
    simp only [takeTo, hp]
    cases rest with
    | nil => exact ⟨_, _, rfl, .single _ _ hplanned⟩
    | cons target' rest =>
      have hmany : ¬ tr.targets.length ≤ 1 := by
        intro hle
        have := (hactive hle).1
        simp at this
      obtain ⟨ms, run', htake, hsteps⟩ :=
        @ih (fun x hx => htargets x (List.mem_cons_of_mem _ hx)) [] (t.apply p actions cause run).2
          (fun hle => absurd hle hmany)
      rw [htake]
      exact ⟨_, run', rfl, .cons hplanned hsteps⟩

theorem take_steps (h : t.WellFormed) (event : Event) {s : Selected C} (hs : t.Offers s)
    (hactive : s.ref.source ∈ run.configuration) :
    ∃ ms run', t.take event s run = (.ok ms, run') ∧ t.Steps run ms run' := by
  obtain ⟨n, hn, hsource, htr⟩ := hs
  simp only [take]
  split
  · exact ⟨_, _, rfl, .single _ _ .targetless⟩
  · rw [hsource] at hactive ⊢
    exact takeTo_steps h hn htr _ (fun target htarget => htarget) (fun hle => ⟨hle, hactive⟩)

/-- Taking the transitions of a well-formed chart succeeds. -/
theorem takeAll_steps (h : t.WellFormed) (event : Event) {selected : List (Selected C)}
    (hs : ∀ s ∈ selected, t.Offers s) (run : Run C) :
    ∃ ms run', t.takeAll event selected run = (.ok ms, run') ∧ t.Steps run ms run' := by
  induction selected generalizing run with
  | nil => exact ⟨[], run, rfl, .nil⟩
  | cons s rest ih =>
    have hrest := fun x hx => hs x (List.mem_cons_of_mem _ hx)
    simp only [takeAll]
    split
    · exact ih hrest run
    · rename_i hgo
      have hactive : s.ref.source ∈ run.configuration := by
        simp only [Bool.or_eq_true, Bool.not_eq_true', not_or, Configuration.contains_eq_false,
          not_not] at hgo
        exact hgo.2
      obtain ⟨ms, run₁, htake, hsteps⟩ := take_steps h event (hs s List.mem_cons_self) hactive
      obtain ⟨ms', run₂, htakeAll, hsteps'⟩ := ih hrest run₁
      rw [htake]
      simp only [htakeAll]
      exact ⟨_, _, rfl, hsteps.trans hsteps'⟩

/-! ## Stabilization -/

theorem stabilizeFor_steps (data : Json) (fuel : Nat) (run : Run C) :
    t.Steps run (t.stabilizeFor data fuel run).1 (t.stabilizeFor data fuel run).2 := by
  induction fuel generalizing run with
  | zero => exact .nil
  | succ fuel ih =>
    simp only [stabilizeFor]
    split
    · exact .nil
    · rename_i n p hp
      exact .cons (.stabilization hp) (ih _)

theorem stabilize_steps (data : Json) (run : Run C) :
    t.Steps run (t.stabilize data run).1 (t.stabilize data run).2 :=
  stabilizeFor_steps data t.size run

/-- The states that are not active. Every stabilization step makes them fewer. -/
def inactive (t : Tree C) (c : Configuration) : List StateId :=
  t.ids.filter (!c.contains ·)

theorem inactive_insertAll_lt (h : t.WellFormed) {c : Configuration} {n : Node C}
    (hn : n ∈ t.unstable c) :
    (t.inactive (c.insertAll (missingChildren n.kind c))).length < (t.inactive c).length := by
  obtain ⟨⟨hmem, -⟩, hlacks⟩ := mem_unstable.1 hn
  have hless : t.inactive (c.insertAll (missingChildren n.kind c)) =
      (t.inactive c).filter (· ∉ missingChildren n.kind c) := by
    rw [inactive, inactive, List.filter_filter]
    refine List.filter_congr fun id _ => ?_
    rw [Bool.eq_iff_iff]
    simp [Configuration.mem_insertAll]
  obtain ⟨x, hx⟩ := List.exists_mem_of_ne_nil _ (missingChildren_ne_nil hn)
  obtain ⟨hchild, hout⟩ := mem_missingChildren h hmem hlacks hx
  have hinactive : x ∈ t.inactive c :=
    List.mem_filter.2 ⟨(h.child_mem hmem hchild).1, by simpa using hout⟩
  rw [hless]
  exact List.length_filter_lt_length_iff_exists.2 ⟨x, hinactive, by simpa using hx⟩

theorem inactive_lt (h : t.WellFormed) {c : Configuration} {n : Node C} {p : Plan}
    (hp : t.planStabilization c = some (n, p)) :
    (t.inactive (p.applyTo c)).length < (t.inactive c).length := by
  obtain ⟨hn, rfl⟩ := planStabilization_eq_some hp
  exact inactive_insertAll_lt h hn

/-- Enough stabilization steps give every active state its children. -/
theorem unstable_stabilizeFor (h : t.WellFormed) (data : Json) {fuel : Nat} {run : Run C}
    (hfuel : (t.inactive run.configuration).length ≤ fuel) :
    t.unstable (t.stabilizeFor data fuel run).2.configuration = [] := by
  induction fuel generalizing run with
  | zero =>
    simp only [stabilizeFor]
    rw [← planStabilization_eq_none]
    cases hp : t.planStabilization run.configuration with
    | none => rfl
    | some np => have := inactive_lt h hp; omega
  | succ fuel ih =>
    simp only [stabilizeFor]
    split
    · rename_i hp; exact planStabilization_eq_none.1 hp
    · rename_i n p hp
      refine ih ?_
      have := inactive_lt h hp
      rw [apply_configuration]
      omega

theorem unstable_stabilize (h : t.WellFormed) (data : Json) (run : Run C) :
    t.unstable (t.stabilize data run).2.configuration = [] := by
  refine unstable_stabilizeFor h data ?_
  have hle := List.length_filter_le (fun id => !run.configuration.contains id) t.ids
  simpa [inactive, size, ids] using hle

/-- Where no active state lacks children, stabilization does nothing. -/
theorem stabilize_settled (data : Json) (hc : t.unstable run.configuration = []) :
    t.stabilize data run = ([], run) := by
  rw [stabilize]
  cases t.size with
  | zero => rfl
  | succ fuel => rw [stabilizeFor, planStabilization_eq_none.2 hc]

/-! ## Processing an event -/

theorem process_eq {event : Event} (he : event ≠ .start) (run : Run C) :
    t.process event run =
      if run.configuration.isInitialized then
        match t.takeAll event (t.select run.configuration run.context event) run with
        | (.error e, run') => (.error e, run')
        | (.ok taken, run') =>
          let settled := t.settle event.data
            (!(t.select run.configuration run.context event).isEmpty) taken run'
          (.ok settled.1, settled.2)
      else (.error (.notInitialized event.name), run) := by
  cases hinit : run.configuration.isInitialized with
  | false =>
    cases event with
    | start => exact absurd rfl he
    | _ => simp only [process, hinit]; rfl
  | true =>
    cases event with
    | start => exact absurd rfl he
    | _ => simp only [process, hinit]; rfl

/-- What processing an event can do: nothing, as the chart is started already; nothing, as it is
not started yet; or take some transitions, and settle. -/
theorem process_cases (h : t.WellFormed) (event : Event) (run : Run C) :
    (event = .start ∧ run.configuration.isInitialized = true ∧
        t.process event run = (.ok { handled := true }, run)) ∨
      (event ≠ .start ∧ run.configuration.isInitialized = false ∧
        t.process event run = (.error (.notInitialized event.name), run)) ∨
      ∃ data handled taken mid, t.Steps run taken mid ∧
        (run.configuration.isInitialized = false → event = .start ∧ taken ≠ [] ∧
          mid.configuration = Configuration.empty.insert t.root.id) ∧
        t.process event run =
          (.ok (t.settle data handled taken mid).1, (t.settle data handled taken mid).2) := by
  cases hinit : run.configuration.isInitialized with
  | true =>
    by_cases he : event = .start
    · exact .inl ⟨he, rfl, by simp [he, process, hinit]⟩
    · let selected := t.select run.configuration run.context event
      have hoffers : ∀ s ∈ selected, t.Offers s := fun s hs => (mem_select hs).1
      obtain ⟨taken, mid, htake, hsteps⟩ := takeAll_steps h event hoffers run
      refine .inr (.inr ⟨event.data, !selected.isEmpty, taken, mid, hsteps, ?_, ?_⟩)
      · intro hnot; cases hnot
      · rw [process_eq he, hinit, if_pos rfl, htake]
  | false =>
    by_cases he : event = .start
    · have hc : run.configuration = .empty :=
        Configuration.eq_empty_of_not_initialized (by simp [hinit])
      have hstart := Steps.single [] ⟨"initialize", .null, .initialization⟩
        (Planned.initialization (t := t) hc)
      refine .inr (.inr ⟨.null, true, _, _, hstart, fun _ => ⟨he, List.cons_ne_nil _ _, ?_⟩, ?_⟩)
      · rw [apply_configuration, hc]; rfl
      · simp [he, process, hinit]
    · refine .inr (.inl ⟨he, rfl, ?_⟩)
      rw [process_eq he, hinit, if_neg (by simp)]

/-- The microsteps that are reported lead from the run before an event to the run after it, the
waiting events aside. -/
theorem process_steps (h : t.WellFormed) {event : Event} {run run' : Run C} {report : StepReport}
    (hp : t.process event run = (.ok report, run')) :
    ∃ mid, t.Steps run report.microsteps mid ∧ run' = { mid with queue := run'.queue } := by
  rcases process_cases h event run with ⟨-, -, hok⟩ | ⟨-, -, herr⟩ |
    ⟨data, handled, taken, mid, hsteps, -, hok⟩
  · rw [hok] at hp
    cases hp
    exact ⟨run, .nil, rfl⟩
  · rw [herr] at hp
    cases hp
  · rw [hok] at hp
    cases hp
    exact ⟨_, hsteps.trans (stabilize_steps data mid), rfl⟩

/-- No event is refused once the chart is started. -/
theorem exists_process (h : t.WellFormed) (event : Event)
    (hinit : run.configuration.isInitialized = true) :
    ∃ report run', t.process event run = (.ok report, run') := by
  rcases process_cases h event run with ⟨-, -, hp⟩ | ⟨-, hnot, -⟩ | ⟨_, _, _, _, -, -, hp⟩
  · exact ⟨_, _, hp⟩
  · rw [hinit] at hnot; cases hnot
  · exact ⟨_, _, hp⟩

/-- An event that is refused changes nothing. -/
theorem process_refused (h : t.WellFormed) {event : Event} {run run' : Run C} {err : EngineError}
    (hp : t.process event run = (.error err, run')) : run' = run := by
  rcases process_cases h event run with ⟨-, -, hok⟩ | ⟨-, -, herr⟩ | ⟨_, _, _, _, -, -, hok⟩
  · rw [hok] at hp; cases hp
  · rw [herr] at hp; cases hp; rfl
  · rw [hok] at hp; cases hp

end Tree

end Statechart
