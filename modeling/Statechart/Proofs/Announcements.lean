import Statechart.Proofs.Blocks
import Statechart.Proofs.Completion
import Statechart.Proofs.Trace

/-!
# Statechart.Proofs.Announcements

Completions are announced: an event puts a completion into the queue for every state that it has
completed, apart from final states, which are complete as soon as they are active and announce
nothing themselves. The engine looks only above the final states that were entered, so a completed
state must have such a state below it.

* `Tree.exists_final`: why it has one, by induction from the children to the state.
* `Tree.done_mem_closingQueue_of`, `Tree.closingQueue_nodup`: the queue after the microsteps.
* `Tree.process_announces`: every event.
-/

namespace Statechart

variable {C : Type}

theorem Configuration.isConsistent_iff {c : Configuration} :
    c.isConsistent = true ↔ ∀ id ∈ c, ∀ a ∈ id.ancestors, a ∈ c := by
  simp only [isConsistent, List.all_eq_true, contains_iff]
  rfl

namespace Tree

variable {t : Tree C} {c c' : Configuration} {run run' : Run C} {event : Event}
  {report : StepReport} {id : StateId}

/-! ## What completes a state -/

theorem isFinal_id (h : t.WellFormed) {n : Node C} (hn : n ∈ t.nodes) :
    t.isFinal n.id = n.kind.isFinal := by
  rw [isFinal, h.kind?_id hn, Option.any_some]

/-- A state that has been completed has a final state at or below it that has become active. -/
theorem exists_final (h : t.WellFormed) (hc : ∀ id ∈ c, ∀ a ∈ id.ancestors, a ∈ c) :
    ∀ n ∈ t.nodes, t.isDone n.id c' = true → t.isDone n.id c = false →
      ∃ z, t.isFinal z = true ∧ z ∈ c' ∧ z ∉ c ∧ z.Within n.id := by
  refine h.byChildren fun n hn ih hdone hnot => ?_
  rw [← Bool.not_eq_true, isDone_iff h hn, not_and] at hnot
  obtain ⟨hactive, hcomplete⟩ := (isDone_iff h hn).1 hdone
  have hbelow : ∀ x ∈ n.kind.children, n.id.isAncestorOf x = true :=
    fun x hx => StateId.isAncestorOf_of_parent? (h.child_mem hn hx).2
  have hup : ∀ x ∈ n.kind.children, x ∈ c → n.id ∈ c := fun x hx hxc =>
    hc x hxc n.id (StateId.mem_ancestors.2 ⟨h.keys_ne_nil (id_mem_ids hn), hbelow x hx⟩)
  cases hk : n.kind with
  | atomic => rw [hk] at hcomplete; cases hcomplete
  | final =>
    rw [hk] at hnot
    exact ⟨n.id, by rw [isFinal_id h hn, hk]; rfl, hactive, fun hin => hnot hin rfl, .refl _⟩
  | compound children initial actions =>
    rw [hk] at hcomplete hnot hup hbelow
    obtain ⟨x, hx, hfinal⟩ := List.any_eq_true.1 hcomplete
    rw [Bool.and_eq_true, Configuration.contains_iff] at hfinal
    refine ⟨x, hfinal.1, hfinal.2, fun hxc => hnot (hup x hx hxc) ?_,
      StateId.within_of_isAncestorOf (hbelow x hx)⟩
    exact List.any_eq_true.2 ⟨x, hx, by simp [hfinal.1, hxc]⟩
  | orthogonal children =>
    have hproper := h.proper hn
    rw [hk] at hcomplete hnot hup hbelow ih hproper
    have hregions : ∀ x ∈ children, t.isDone x c' = true := List.all_eq_true.1 hcomplete
    obtain ⟨x, hx, hunfinished⟩ : ∃ x ∈ children, t.isDone x c = false := by
      by_contra hall
      have hall : ∀ x ∈ children, t.isDone x c = true := by simpa using hall
      obtain ⟨x, hx⟩ := List.exists_mem_of_ne_nil _ hproper
      exact hnot (hup x hx (mem_of_isDone (hall x hx))) (List.all_eq_true.2 hall)
    obtain ⟨m, hm, rfl⟩ := mem_ids.1 (h.child_mem hn (by rw [hk]; exact hx)).1
    obtain ⟨z, hz, hzc', hzc, hw⟩ := ih m hm hx (hregions m.id hx) hunfinished
    exact ⟨z, hz, hzc', hzc, hw.trans (StateId.within_of_isAncestorOf (hbelow m.id hx))⟩

/-! ## The queue after the microsteps -/

theorem done_mem_doneQueue {queue : EventQueue} {ids : List StateId} (hid : id ∈ ids) :
    .done id ∈ (queue.enqueueAll (doneQueue queue ids)).band .currentMacrostep := by
  induction ids generalizing queue with
  | nil => cases hid
  | cons other rest ih =>
    rw [doneQueue]
    split
    · rename_i hwaits
      rcases List.mem_cons.1 hid with rfl | hid
      · exact EventQueue.mem_band_enqueueAll.2 (.inl (EventQueue.contains_done.1 hwaits))
      · exact ih hid
    · rcases List.mem_cons.1 hid with rfl | hid
      · exact EventQueue.mem_band_enqueueAll.2 (.inr List.mem_cons_self)
      · exact @ih (queue.enqueue (.done other) .currentMacrostep) hid

theorem done_mem_closingQueue_of {queue : EventQueue}
    (hid : id ∈ t.completedBy c (report.microsteps.flatMap Microstep.entered)) :
    .done id ∈ (queue.enqueueAll (t.closingQueue report c queue)).band .currentMacrostep := by
  simp only [closingQueue]
  split
  · rw [EventQueue.enqueueAll_append]
    exact EventQueue.mem_band_enqueueAll.2 (.inl (done_mem_doneQueue hid))
  · exact done_mem_doneQueue hid

theorem doneQueue_nodup (queue : EventQueue) (ids : List StateId) :
    ((doneQueue queue ids).map Prod.fst).Nodup := by
  induction ids generalizing queue with
  | nil => exact .nil
  | cons id rest ih =>
    rw [doneQueue]
    split
    · exact ih queue
    · refine List.nodup_cons.2 ⟨fun hin => ?_, ih _⟩
      obtain ⟨w, hw, hsame⟩ := List.mem_map.1 hin
      obtain ⟨other, -, rfl, hnot⟩ := mem_doneQueue hw
      cases hsame
      exact hnot (List.mem_append_right _ (List.mem_singleton_self _))

/-- The engine queues no event twice. -/
theorem closingQueue_nodup (report : StepReport) (c : Configuration) (queue : EventQueue) :
    ((t.closingQueue report c queue).map Prod.fst).Nodup := by
  have hdone := doneQueue_nodup queue
    (t.completedBy c (report.microsteps.flatMap Microstep.entered))
  simp only [closingQueue]
  split
  · rw [List.map_append, List.nodup_append]
    refine ⟨hdone, ?_, ?_⟩
    · rw [immediateQueue]
      split <;> simp
    · intro e he e' he' hsame
      obtain ⟨w, hw, rfl⟩ := List.mem_map.1 he
      obtain ⟨w', hw', rfl⟩ := List.mem_map.1 he'
      obtain ⟨other, -, rfl, -⟩ := mem_doneQueue hw
      rw [mem_immediateQueue hw'] at hsame
      cases hsame
  · exact hdone

/-! ## Events -/

theorem process_closing (hp : t.process event run = (.ok report, run')) :
    let acted := run.queue.enqueueAll ((t.processBlocks event run).flatMap Block.queued)
    run'.queue = acted.enqueueAll (t.closingQueue report run'.configuration acted) := by
  have hqueue := process_queue (t := t) event run
  simp only [queuedIn, hp, EventQueue.enqueueAll_append] at hqueue
  exact hqueue

/-- A complete state above a final state that was entered, and is still active, is announced. -/
theorem announced_of_entered (hp : t.process event run = (.ok report, run'))
    (hkeys : id.keys ≠ []) (hroot : id ≠ t.root.id)
    (hdone : t.isDone id run'.configuration = true) {z : StateId} (hfinal : t.isFinal z = true)
    (hactive : z ∈ run'.configuration) (hentered : ∃ m ∈ report.microsteps, z ∈ m.entered)
    (habove : id.isAncestorOf z = true) : .done id ∈ run'.queue.currentMacrostep := by
  rw [process_closing hp]
  exact done_mem_closingQueue_of (mem_completedBy.2 ⟨hroot, hdone, z,
    List.mem_flatMap.2 hentered, hfinal, hactive, StateId.mem_ancestors.2 ⟨hkeys, habove⟩⟩)

/-- After an event, the completion waits of every state, apart from the root and from final states,
that the event has completed, and of every complete one with a final state below that was entered.
Beyond what actions emit, the engine queues completions of complete states only, each once. -/
theorem process_announces {d : NodeDef C} (hb : Tree.build d = .ok t)
    (hc : run.configuration.isConsistent = true)
    (hp : t.process event run = (.ok report, run')) :
    (∀ n ∈ t.nodes, n.id ≠ t.root.id → n.kind.isFinal = false →
        t.isDone n.id run'.configuration = true → t.isDone n.id run.configuration = false →
          .done n.id ∈ run'.queue.currentMacrostep) ∧
      (∀ n ∈ t.nodes, n.id ≠ t.root.id → t.isDone n.id run'.configuration = true →
        ∀ z ∈ run'.configuration, t.isFinal z = true → (∃ m ∈ report.microsteps, z ∈ m.entered) →
          n.id.isAncestorOf z = true → .done n.id ∈ run'.queue.currentMacrostep) ∧
      ∃ own : List (Event × Priority),
        run'.queue = run.queue.enqueueAll
          ((t.processBlocks event run).flatMap Block.queued ++ own) ∧
        (∀ w ∈ own, w = (.immediate, .stabilization) ∨
          ∃ id ≠ t.root.id, t.isDone id run'.configuration = true ∧
            w = (.done id, .currentMacrostep)) ∧
        (own.map Prod.fst).Nodup := by
  have h := build_wellFormed hb
  let acted := run.queue.enqueueAll ((t.processBlocks event run).flatMap Block.queued)
  refine ⟨?_, ?_, t.closingQueue report run'.configuration acted, ?_, fun w => mem_closingQueue,
    closingQueue_nodup report run'.configuration acted⟩
  · intro n hn hroot hkind hdone hnot
    obtain ⟨z, hfinal, hactive, hbefore, hw⟩ :=
      exists_final h (Configuration.isConsistent_iff.1 hc) n hn hdone hnot
    have hentered := ((process_traced h hp).replays.mem_iff.1 hactive).1.resolve_left hbefore
    have hne : z ≠ n.id := by
      rintro rfl
      rw [isFinal_id h hn, hkind] at hfinal
      cases hfinal
    exact announced_of_entered hp (h.keys_ne_nil (id_mem_ids hn)) hroot hdone hfinal hactive
      hentered ((StateId.within_iff.1 hw).resolve_left hne)
  · intro n hn hroot hdone z hactive hfinal hentered habove
    exact announced_of_entered hp (h.keys_ne_nil (id_mem_ids hn)) hroot hdone hfinal hactive
      hentered habove
  · rw [EventQueue.enqueueAll_append]
    exact process_closing hp

end Tree

def finishingStarted : Run Nat :=
  (finishingTree.process .start (.new 0)).2

def finishingLeft : Run Nat :=
  (finishingTree.process (.named "left" .null) finishingStarted).2

/-- The event completes the left region of `finishing`, whose completion then waits. -/
theorem finishing_announced :
    Tree.build finishing = .ok finishingTree ∧
      finishingStarted.configuration.isConsistent = true ∧
      (∃ report, finishingTree.process (.named "left" .null) finishingStarted =
        (.ok report, finishingLeft)) ∧
      finishingTree.isDone ⟨["m", "l"]⟩ finishingStarted.configuration = false ∧
      finishingTree.isDone ⟨["m", "l"]⟩ finishingLeft.configuration = true ∧
      .done ⟨["m", "l"]⟩ ∈ finishingLeft.queue.currentMacrostep := by
  have hbuild : Tree.build finishing = .ok finishingTree := rfl
  have hc : finishingStarted.configuration.isConsistent = true := by decide
  have hp : finishingTree.process (.named "left" .null) finishingStarted =
      (.ok _, finishingLeft) := rfl
  have hbefore : finishingTree.isDone ⟨["m", "l"]⟩ finishingStarted.configuration = false := by
    decide
  have hafter : finishingTree.isDone ⟨["m", "l"]⟩ finishingLeft.configuration = true := by decide
  obtain ⟨hannounced, -⟩ := Tree.process_announces hbuild hc hp
  exact ⟨hbuild, hc, ⟨_, hp⟩, hbefore, hafter,
    hannounced _ (List.mem_cons_of_mem _ List.mem_cons_self) (by decide) rfl hafter hbefore⟩

/-- The final state itself, which the event has completed as well, is not announced. -/
theorem finishing_silent :
    Tree.build finishing = .ok finishingTree ∧ finishingTree.SingleTarget ∧
      finishingStarted.configuration.isConsistent = true ∧
      (∃ report, finishingTree.process (.named "left" .null) finishingStarted =
        (.ok report, finishingLeft)) ∧
      ⟨["m", "l", "z"]⟩ ∈ finishingTree.ids ∧ ⟨["m", "l", "z"]⟩ ≠ finishingTree.root.id ∧
      finishingTree.isDone ⟨["m", "l", "z"]⟩ finishingStarted.configuration = false ∧
      finishingTree.isDone ⟨["m", "l", "z"]⟩ finishingLeft.configuration = true ∧
      .done ⟨["m", "l", "z"]⟩ ∉ finishingLeft.queue.currentMacrostep := by
  have hqueue : finishingLeft.queue.currentMacrostep = [.done ⟨["m", "l"]⟩] := rfl
  refine ⟨rfl, by decide, by decide, ⟨_, rfl⟩, by decide, by decide, by decide, by decide, ?_⟩
  rw [hqueue]
  simp

end Statechart
