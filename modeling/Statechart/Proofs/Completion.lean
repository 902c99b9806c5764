import Statechart.Proofs.Coordination

/-!
# Statechart.Proofs.Completion

Completion is exact: an instance that goes on has a root that is not complete, and one that has
completed has a root that is. The engine looks at the root only after events that entered a state.
That is enough, since leaving states completes nothing.

* `Tree.isDone_mono`, `Tree.isDone_of_within`: a state that is complete stays so as more states
  become active, and as long as what is active within it stays active.
* `Tree.process_completed`: what an event reports of the root is what becomes of it.
* `Engine.drain_completed`: so does the outcome of a drain.
* `Instance.completion_exact`: after any calls.
-/

namespace Statechart

variable {C : Type}

namespace Tree

variable {t : Tree C} {c c' : Configuration} {run run' : Run C} {event : Event}
  {report : StepReport}

/-! ## Complete states -/

theorem isComplete_mono {done done' : List StateId} {kind : NodeKind C}
    (hc : ∀ id ∈ kind.children, id ∈ c → id ∈ c')
    (hdone : ∀ id ∈ kind.children, id ∈ done → id ∈ done')
    (h : t.isComplete c done kind = true) : t.isComplete c' done' kind = true := by
  cases kind with
  | atomic => cases h
  | final => rfl
  | compound children initial actions =>
    obtain ⟨x, hx, hfinal⟩ := List.any_eq_true.1 h
    rw [Bool.and_eq_true, Configuration.contains_iff] at hfinal
    refine List.any_eq_true.2 ⟨x, hx, ?_⟩
    rw [Bool.and_eq_true, Configuration.contains_iff]
    exact ⟨hfinal.1, hc x hx hfinal.2⟩
  | orthogonal children =>
    refine List.all_eq_true.2 fun x hx => ?_
    have hin := List.all_eq_true.1 h x hx
    rw [List.contains_iff_mem] at hin ⊢
    exact hdone x hx hin

/-- In a part of the chart that contains the children of its states, complete states stay complete
as more states of the part become active. -/
theorem doneStates_mono {P : StateId → Prop}
    (hpart : ∀ n ∈ t.nodes, P n.id → ∀ x ∈ n.kind.children, P x)
    (hc : ∀ id ∈ c, P id → id ∈ c') : ∀ id ∈ t.doneStates c, P id → id ∈ t.doneStates c' := by
  rw [doneStates, doneStates]
  generalize t.nodes = nodes at hpart
  induction nodes with
  | nil => exact fun id hid => by cases hid
  | cons n rest ih =>
    rw [List.forall_mem_cons] at hpart
    have ih := ih hpart.2
    rw [List.foldr_cons, List.foldr_cons]
    intro id hid hin
    split at hid
    · rename_i hn
      rw [Bool.and_eq_true, Configuration.contains_iff] at hn
      rcases List.mem_cons.1 hid with rfl | hid
      · have hcomplete := isComplete_mono (fun x hx hxc => hc x hxc (hpart.1 hin x hx))
          (fun x hx hxd => ih x hxd (hpart.1 hin x hx)) hn.2
        rw [Configuration.contains_iff.2 (hc _ hn.1 hin), hcomplete]
        exact List.mem_cons_self
      · split
        · exact List.mem_cons_of_mem _ (ih id hid hin)
        · exact ih id hid hin
    · split
      · exact List.mem_cons_of_mem _ (ih id hid hin)
      · exact ih id hid hin

/-- A state that is complete stays so as more states become active. -/
theorem isDone_mono (hc : ∀ id ∈ c, id ∈ c') {id : StateId} (h : t.isDone id c = true) :
    t.isDone id c' = true := by
  rw [isDone, List.contains_iff_mem] at h ⊢
  exact doneStates_mono (P := fun _ => True) (fun _ _ _ _ _ => trivial)
    (fun x hx _ => hc x hx) id h trivial

/-- A complete state stays so as long as what is active within it stays active. -/
theorem isDone_of_within (h : t.WellFormed) {id : StateId}
    (hc : ∀ x ∈ c, x.Within id → x ∈ c') (hdone : t.isDone id c = true) :
    t.isDone id c' = true := by
  rw [isDone, List.contains_iff_mem] at hdone ⊢
  refine doneStates_mono (P := fun x => x.Within id) ?_ hc id hdone (.refl id)
  intro n hn hin x hx
  have habove := StateId.isAncestorOf_of_parent? (h.child_mem hn hx).2
  exact (StateId.within_of_isAncestorOf habove).trans hin

/-- Only active states are complete. -/
theorem mem_of_isDone {id : StateId} (h : t.isDone id c = true) : id ∈ c := by
  rw [isDone, List.contains_iff_mem, doneStates] at h
  generalize t.nodes = nodes at h
  induction nodes with
  | nil => cases h
  | cons n rest ih =>
    rw [List.foldr_cons] at h
    split at h
    · rename_i hn
      rw [Bool.and_eq_true, Configuration.contains_iff] at hn
      rcases List.mem_cons.1 h with rfl | h
      · exact hn.1
      · exact ih h
    · exact ih h

/-- The complete ones among these states, in front of those that are known to be complete. -/
def doneAmong (t : Tree C) (c : Configuration) (known : List StateId) (ns : List (Node C)) :
    List StateId :=
  ns.foldr (fun n done =>
    if c.contains n.id && t.isComplete c done n.kind then n.id :: done else done) known

theorem mem_doneAmong (known : List StateId) {ns : List (Node C)} {id : StateId}
    (hid : id ∉ ns.map Node.id) : id ∈ t.doneAmong c known ns ↔ id ∈ known := by
  induction ns with
  | nil => rfl
  | cons n rest ih =>
    rw [List.map_cons, List.mem_cons, not_or] at hid
    rw [← ih hid.2, doneAmong, List.foldr_cons]
    split
    · exact ⟨fun h => (List.mem_cons.1 h).resolve_left hid.1, List.mem_cons_of_mem _⟩
    · rfl

/-- The states in front of a state do not count for its completion. -/
theorem mem_doneStates (h : t.WellFormed) {before rest : List (Node C)}
    (hsplit : t.nodes = before ++ rest) {id : StateId} (hid : id ∈ rest.map Node.id) :
    id ∈ t.doneStates c ↔ id ∈ t.doneAmong c [] rest := by
  have hnodup : (t.nodes.map Node.id).Nodup := h.ids_nodup
  rw [hsplit, List.map_append] at hnodup
  have hout : id ∉ before.map Node.id :=
    fun hbefore => (List.nodup_append.1 hnodup).2.2 id hbefore id hid rfl
  rw [← mem_doneAmong (t.doneAmong c [] rest) hout, doneStates, hsplit, List.foldr_append]
  rfl

/-- A state is complete if it is active and its children make it complete. -/
theorem isDone_iff (h : t.WellFormed) {n : Node C} (hn : n ∈ t.nodes) :
    t.isDone n.id c = true ↔ n.id ∈ c ∧ t.isComplete c (t.doneStates c) n.kind = true := by
  obtain ⟨before, rest, hsplit⟩ := List.append_of_mem hn
  have hbehind : t.nodes = (before ++ [n]) ++ rest := by rw [hsplit, List.append_assoc]; rfl
  have hchildren : ∀ x ∈ n.kind.children, x ∈ t.doneStates c ↔ x ∈ t.doneAmong c [] rest := by
    intro x hx
    obtain ⟨m, hm, rfl⟩ := h.child_behind hsplit hx
    exact mem_doneStates h hbehind (List.mem_map_of_mem hm)
  have hcomplete : t.isComplete c (t.doneStates c) n.kind =
      t.isComplete c (t.doneAmong c [] rest) n.kind :=
    Bool.eq_iff_iff.2 ⟨isComplete_mono (fun _ _ hc => hc) fun x hx => (hchildren x hx).1,
      isComplete_mono (fun _ _ hc => hc) fun x hx => (hchildren x hx).2⟩
  have hnot : n.id ∉ t.doneAmong c [] rest := by
    have hnodup : (t.nodes.map Node.id).Nodup := h.ids_nodup
    rw [hsplit, List.map_append, List.map_cons] at hnodup
    have hrest := (List.nodup_cons.1 (List.nodup_append.1 hnodup).2.1).1
    exact fun hin => List.not_mem_nil ((mem_doneAmong [] hrest).1 hin)
  rw [isDone, List.contains_iff_mem, mem_doneStates h hsplit List.mem_cons_self, hcomplete,
    ← Configuration.contains_iff, ← Bool.and_eq_true, doneAmong, List.foldr_cons]
  split
  · rename_i hboth
    exact iff_of_true List.mem_cons_self hboth
  · rename_i hboth
    exact iff_of_false hnot hboth

/-! ## Events -/

/-- Microsteps that enter no state leave fewer states active. -/
theorem Steps.subset {ms : List Microstep} (hsteps : t.Steps run ms run')
    (hnone : ms.flatMap Microstep.entered = []) :
    ∀ id ∈ run'.configuration, id ∈ run.configuration := by
  induction hsteps with
  | nil => exact fun id hid => hid
  | @cons run run' p actions cause ms _ _ ih =>
    rw [List.flatMap_cons, List.append_eq_nil_iff] at hnone
    have hentered : p.entered = [] := hnone.1
    intro id hid
    have hmid := ih hnone.2 id hid
    rw [apply_configuration, Plan.mem_applyTo, hentered] at hmid
    exact (hmid.resolve_left List.not_mem_nil).1

/-- The root is reported complete if a state was entered and the root is complete at the end. -/
theorem process_completed_eq (h : t.WellFormed)
    (hp : t.process event run = (.ok report, run')) :
    report.completed = (!(report.microsteps.flatMap Microstep.entered).isEmpty &&
      t.isCompleted run'.configuration) := by
  rcases process_cases h event run with ⟨-, -, hok⟩ | ⟨-, -, herr⟩ |
    ⟨data, handled, taken, mid, -, -, hok⟩
  · rw [hok] at hp
    cases hp
    rfl
  · rw [herr] at hp
    cases hp
  · rw [hok] at hp
    cases hp
    rfl

/-- If the root is not complete before an event, it is reported complete exactly if it is complete
after it. -/
theorem process_completed (h : t.WellFormed) (hnot : t.isCompleted run.configuration = false)
    (hp : t.process event run = (.ok report, run')) :
    report.completed = t.isCompleted run'.configuration := by
  rw [process_completed_eq h hp]
  cases hentered : (report.microsteps.flatMap Microstep.entered).isEmpty with
  | false => rfl
  | true =>
    obtain ⟨mid, hsteps, hrun⟩ := process_steps h hp
    have hsubset := hsteps.subset (List.isEmpty_iff.1 hentered)
    have hmid : run'.configuration = mid.configuration := by rw [hrun]
    cases hdone : t.isCompleted run'.configuration with
    | false => rfl
    | true =>
      rw [hmid] at hdone
      have hbefore : t.isCompleted run.configuration = true := isDone_mono hsubset hdone
      rw [hnot] at hbefore
      cases hbefore

end Tree

/-! ## Drains -/

namespace Engine

variable {e : Engine C} {run run' : Run C} {past : List Round}

theorem Rounds.not_completed (h : e.tree.WellFormed) (hrounds : e.Rounds run past run')
    (hnot : e.tree.isCompleted run.configuration = false) :
    e.tree.isCompleted run'.configuration = false := by
  induction hrounds with
  | none => exact hnot
  | @next past mid run' event band queue report _ _ hp hs ih =>
    have hbefore : e.tree.isCompleted ({ mid with queue } : Run C).configuration = false := ih
    rw [← Tree.process_completed h hbefore hp]
    exact (stop?_eq_none.1 hs).2.1

/-- If the root is not complete before a drain, the outcome is completion exactly if the root is
complete after it. -/
theorem drain_completed (h : e.tree.WellFormed) {report : DrainReport}
    (hnot : e.tree.isCompleted run.configuration = false)
    (hd : e.drain run = (.ok report, run')) :
    report.outcome = .completed ↔ e.tree.isCompleted run'.configuration = true := by
  obtain ⟨rounds, past, mid, hrounds, hends⟩ := e.drain_rounds run
  have hmid := hrounds.not_completed h hnot
  rw [hd] at hends
  generalize hresult : ((Except.ok report : Except EngineError DrainReport), run') = result at hends
  cases hends with
  | quiescent _ =>
    cases hresult
    simp [hmid]
  | failed _ _ => cases hresult
  | @stopped _ _ queue step last stop _ hp hs =>
    have hbefore : e.tree.isCompleted ({ mid with queue } : Run C).configuration = false := hmid
    have hlast := Tree.process_completed h hbefore hp
    cases stop with
    | limit => cases hresult
    | completed =>
      cases hresult
      have hdone := (stop?_eq_completed.1 hs).2
      rw [hlast] at hdone
      exact iff_of_true rfl hdone
    | faulted fault =>
      cases hresult
      have hdone := (stop?_eq_faulted.1 hs).2.1
      rw [hlast] at hdone
      refine iff_of_false (fun hout => by cases hout) ?_
      rw [Bool.not_eq_true]
      exact hdone

end Engine

/-! ## Instances -/

namespace Instance

variable {e : Engine C} {context : C} {h : History} {i j : Instance C} {call : Call}
  {reported : List Activity}

/-- The status tells whether the root is complete, unless the instance was ended before. -/
structure Exact (i : Instance C) : Prop where
  unfinished : i.status.isTerminal = false →
    i.engine.tree.isCompleted i.run.configuration = false
  completed : i.status = .ended .completed →
    i.engine.tree.isCompleted i.run.configuration = true

theorem Exact.undisturbed (hi : i.Exact) (hu : i.Undisturbed j) : j.Exact := by
  obtain ⟨hunfinished, hcompleted⟩ := hi
  constructor
  · rw [hu.status, hu.engine, hu.run]
    exact hunfinished
  · rw [hu.status, hu.engine, hu.run]
    exact hcompleted

theorem exact_finish {termination : Termination}
    (hdone : termination = .completed → i.engine.tree.isCompleted i.run.configuration = true) :
    (i.finish termination).Exact := by
  constructor
  · intro hs
    cases hs
  · intro hs
    exact hdone (Status.ended.inj hs)

/-- A call that has an event processed starts from the configuration of an unfinished instance. -/
theorem Exact.opens (hi : i.Exact) (ho : i.Opens call reported j) :
    j.engine = i.engine ∧ j.engine.tree.isCompleted j.run.configuration = false := by
  cases ho with
  | start hs _ => exact ⟨rfl, hi.unfinished (by rw [hs]; rfl)⟩
  | send event hs => exact ⟨rfl, hi.unfinished (by rw [hs]; rfl)⟩
  | deliver r ha => exact ⟨rfl, hi.unfinished (by rw [ha.1]; rfl)⟩

theorem drain_exact (hw : j.engine.tree.WellFormed) (hs : j.status = .active)
    (hnot : j.engine.tree.isCompleted j.run.configuration = false) : j.drain.2.Exact := by
  simp only [drain]
  generalize hd : j.engine.drain j.run = result
  obtain ⟨result, run⟩ := result
  cases result with
  | error err =>
    refine exact_finish fun hfault => ?_
    cases hfault
  | ok report =>
    have hcompleted := Engine.drain_completed hw hnot hd
    cases ho : report.outcome with
    | quiescent =>
      simp only [ho]
      rw [ho] at hcompleted
      have hrests : j.engine.tree.isCompleted run.configuration = false := by
        simpa using hcompleted
      have hadopt : (j.adopt run).status = .active := hs
      refine ⟨fun _ => hrests, fun hended => ?_⟩
      rw [hadopt] at hended
      cases hended
    | completed =>
      simp only [ho]
      exact exact_finish fun _ => hcompleted.1 ho
    | faulted fault =>
      simp only [ho]
      refine exact_finish fun hfault => ?_
      cases hfault

theorem Reached.exact (hw : e.tree.WellFormed) (hr : Reached e context h i) :
    i.engine = e ∧ i.Exact := by
  induction hr with
  | new =>
    refine ⟨rfl, fun _ => ?_, fun hs => Status.noConfusion hs⟩
    rw [← Bool.not_eq_true]
    exact fun hdone => Configuration.not_mem_empty _ (Tree.mem_of_isDone hdone)
  | @opened h i j call reported _ ho ih =>
    obtain ⟨hengine, hexact⟩ := ih
    obtain ⟨hsame, hnot⟩ := hexact.opens ho
    have he := hsame.trans hengine
    rw [ho.perform]
    refine ⟨?_, drain_exact (by rw [he]; exact hw) ho.status.1 hnot⟩
    rw [drain_engine, he]
  | other _ ho ih =>
    obtain ⟨hengine, hexact⟩ := ih
    rcases perform_of_not_opens ho with hu | ⟨i', hu, hp⟩
    · exact ⟨hu.engine.trans hengine, hexact.undisturbed hu⟩
    · rw [hp]
      refine ⟨hu.engine.trans hengine, exact_finish fun hcancelled => ?_⟩
      cases hcancelled

/-- However an instance was called, its root is not complete as long as it is active, and is
complete once it has completed. If the root is not complete before a drain, it is complete after
one that ends with completion, and not complete after one that comes to rest or faults. -/
theorem completion_exact {d : NodeDef C} {t : Tree C} (hb : Tree.build d = .ok t)
    (limits : Limits) :
    (∀ context h i, Reached ⟨t, limits⟩ context h i →
      (i.status = .active → t.isDone t.root.id i.run.configuration = false) ∧
      (i.status = .ended .completed → t.isDone t.root.id i.run.configuration = true)) ∧
    ∀ run report run', t.isDone t.root.id run.configuration = false →
      Engine.drain ⟨t, limits⟩ run = (.ok report, run') →
      (report.outcome = .completed → t.isDone t.root.id run'.configuration = true) ∧
      (report.outcome = .quiescent → t.isDone t.root.id run'.configuration = false) ∧
      ∀ fault, report.outcome = .faulted fault → t.isDone t.root.id run'.configuration = false := by
  have hw : (⟨t, limits⟩ : Engine C).tree.WellFormed := Tree.build_wellFormed hb
  refine ⟨fun context h i hr => ?_, fun run report run' hnot hd => ?_⟩
  · obtain ⟨hengine, hunfinished, hcompleted⟩ := hr.exact hw
    rw [hengine] at hunfinished hcompleted
    exact ⟨fun hs => hunfinished (by rw [hs]; rfl), hcompleted⟩
  · have hiff : report.outcome = .completed ↔ t.isDone t.root.id run'.configuration = true :=
      Engine.drain_completed hw hnot hd
    rw [← Bool.not_eq_true, ← hiff]
    refine ⟨id, fun hrest => ?_, fun fault hfault => ?_⟩
    · rw [hrest]
      exact nofun
    · rw [hfault]
      exact nofun

end Instance

/-! Two regions that come to their ends one after the other. -/

def finishing : NodeDef Nat where
  key := "m"
  kind := .orthogonal
  children := [
    { key := "l", kind := .compound "a" [], children := [
      { key := "a", kind := .atomic,
        transitions := [{ event := .named "left", targets := ["z"] }] },
      { key := "z", kind := .final }] },
    { key := "r", kind := .compound "a" [], children := [
      { key := "a", kind := .atomic,
        transitions := [{ event := .named "right", targets := ["z"] }] },
      { key := "z", kind := .final }] }]

def finishingTree : Tree Nat where
  root := ⟨⟨["m"]⟩, .orthogonal [⟨["m", "l"]⟩, ⟨["m", "r"]⟩], [], [], [], []⟩
  rest := [
    ⟨⟨["m", "l"]⟩, .compound [⟨["m", "l", "a"]⟩, ⟨["m", "l", "z"]⟩] ⟨["m", "l", "a"]⟩ [],
      [], [], [], []⟩,
    ⟨⟨["m", "l", "a"]⟩, .atomic, [], [], [.taken (.named "left") none [⟨["m", "l", "z"]⟩] []], []⟩,
    ⟨⟨["m", "l", "z"]⟩, .final, [], [], [], []⟩,
    ⟨⟨["m", "r"]⟩, .compound [⟨["m", "r", "a"]⟩, ⟨["m", "r", "z"]⟩] ⟨["m", "r", "a"]⟩ [],
      [], [], [], []⟩,
    ⟨⟨["m", "r", "a"]⟩, .atomic, [], [], [.taken (.named "right") none [⟨["m", "r", "z"]⟩] []], []⟩,
    ⟨⟨["m", "r", "z"]⟩, .final, [], [], [], []⟩]

/-- The instance with these states active, and nothing to do. -/
def finishingIn (ids : List StateId) : Instance Nat where
  engine := ⟨finishingTree, {}⟩
  run := { context := 0, configuration := .ofList ids }
  activities := { attached := true }
  status := .active

/-- The instance whose left region has come to its end. -/
def finishingHalf : Instance Nat :=
  finishingIn [⟨["m"]⟩, ⟨["m", "l"]⟩, ⟨["m", "l", "z"]⟩, ⟨["m", "r"]⟩, ⟨["m", "r", "a"]⟩]

/-- One region alone does not complete the root, both do. -/
theorem finishing_exact :
    Tree.build finishing = .ok finishingTree ∧ finishingHalf.status = .active ∧
      finishingTree.isDone ⟨["m", "l"]⟩ finishingHalf.run.configuration = true ∧
      finishingTree.isDone ⟨["m"]⟩ finishingHalf.run.configuration = false ∧
      (finishingHalf.perform (.send (.named "right" .null))).status = .ended .completed ∧
      finishingTree.isDone ⟨["m"]⟩
        (finishingHalf.perform (.send (.named "right" .null))).run.configuration = true := by
  have hbuild : Tree.build finishing = .ok finishingTree := rfl
  have hstart : Instance.Reached ⟨finishingTree, {}⟩ 0 _
      (finishingIn [⟨["m"]⟩, ⟨["m", "l"]⟩, ⟨["m", "l", "a"]⟩, ⟨["m", "r"]⟩, ⟨["m", "r", "a"]⟩]) :=
    Instance.Reached.new.opened_rounds (.start rfl rfl) (.next .none rfl rfl rfl) rfl
  have hhalf : Instance.Reached ⟨finishingTree, {}⟩ 0 _ finishingHalf :=
    hstart.opened_rounds (.send (.named "left" .null) rfl)
      ((Engine.Rounds.none.next rfl rfl rfl).next rfl rfl rfl) rfl
  have hopens : finishingHalf.Opens (.send (.named "right" .null)) []
      (finishingHalf.queueing (.named "right" .null)) := .send _ rfl
  have hnone : Engine.Rounds ⟨finishingTree, {}⟩
      (finishingHalf.queueing (.named "right" .null)).run [] _ := .none
  have hdrain := hnone.drain_stopped rfl rfl rfl
  have hended : (finishingHalf.perform (.send (.named "right" .null))).status =
      .ended .completed := by
    rw [hopens.perform, Instance.drain_status rfl]
    exact congrArg (fun result => Status.after result.1) hdrain
  obtain ⟨hinstances, -⟩ := Instance.completion_exact hbuild {}
  exact ⟨hbuild, rfl, by decide, (hinstances _ _ _ hhalf).1 rfl, hended,
    (hinstances _ _ _ (hhalf.opened hopens)).2 hended⟩

end Statechart
