import Statechart.Activity
import Statechart.Proofs.Lifecycle

/-!
# Statechart.Proofs.Register

The register of activities beside the history of an instance: the entries and exits of states and
the reports that were taken in, the latest first. Entering a state gives out the next tickets, so
the history determines which entry a ticket comes from.

* `Activities.Accounted`: every activity so far runs, has reported, or was cancelled, and those
  that run were started by an entry whose state has not been left since.
* `Activities.Serving`: every active state has exactly the activities it asks for, apart from those
  that have reported since it was entered.
* `Activities.follow_serving`: the signals of a run keep both.
-/

namespace Statechart

variable {C : Type}

/-- Is this the activity of the state with this ticket? -/
def Activity.hasTicket (x : Activity) (owner : StateId) (ticket : Nat) : Bool :=
  x.owner = owner && x.ticket = ticket

/-- What happens to the states and activities of an instance. -/
inductive Happening where
  | entered (id : StateId)
  | exited (id : StateId)
  | reported (activity : Activity)
  deriving DecidableEq

/-- The change of the configuration that a signal stands for. -/
def Signal.happening? : Signal → Option Happening
  | .entered id => some (.entered id)
  | .exited id => some (.exited id)
  | .logged _ => none

/-- The activities that a state asks for: a service for each it declares, and a timer for each
delay that its transitions listen for. -/
def Node.activityKinds (n : Node C) : List ActivityKind :=
  n.services.map (.service ·.id) ++ n.delays.map .timer

theorem Node.activityKinds_nodup {t : Tree C} (hw : t.WellFormed) {n : Node C}
    (hn : n ∈ t.nodes) : n.activityKinds.Nodup := by
  have hids : n.serviceIds.Nodup := (List.nodup_flatMap.1 hw.services).1 n hn
  have hservices : (n.services.map (ActivityKind.service ·.id)).Nodup := by
    have hmap : n.services.map (ActivityKind.service ·.id) =
        n.serviceIds.map ActivityKind.service := by
      rw [serviceIds, List.map_map]
      rfl
    rw [hmap]
    exact hids.map fun _ _ => ActivityKind.service.inj
  have htimers : (n.delays.map ActivityKind.timer).Nodup :=
    (eraseDups_nodup _).map fun _ _ => ActivityKind.timer.inj
  refine List.nodup_append.2 ⟨hservices, htimers, ?_⟩
  intro x hx y hy hxy
  obtain ⟨s, -, rfl⟩ := List.mem_map.1 hx
  obtain ⟨delay, -, rfl⟩ := List.mem_map.1 hy
  cases hxy

/-- What happened so far, the latest first. -/
abbrev History := List Happening

namespace History

/-- The active states. -/
def configuration : History → Configuration
  | [] => .empty
  | .entered id :: h => (configuration h).insert id
  | .exited id :: h => (configuration h).erase id
  | .reported _ :: h => configuration h

/-- The activities that have reported. -/
def reported (h : History) : List Activity :=
  h.filterMap fun
    | .reported activity => some activity
    | _ => none

/-- The activities of a state that have reported since it was last entered. -/
def reportedSince (id : StateId) : History → List Activity
  | [] => []
  | .entered other :: h => if other = id then [] else reportedSince id h
  | .exited _ :: h => reportedSince id h
  | .reported activity :: h =>
    if activity.owner = id then activity :: reportedSince id h else reportedSince id h

/-- Number of tickets given out. -/
def issued (t : Tree C) : History → Nat
  | [] => 0
  | .entered id :: h => issued t h + ((t.node? id).elim 0 fun n => n.activityKinds.length)
  | _ :: h => issued t h

/-- A state was entered, this ticket was given out for it, and it has not been left since. -/
def Staying (t : Tree C) (h : History) (owner : StateId) (ticket : Nat) : Prop :=
  ∃ since before, h = since ++ .entered owner :: before ∧ .exited owner ∉ since ∧
    issued t before ≤ ticket ∧ ticket < issued t (.entered owner :: before)

/-- The history after these signals, the latest first. -/
def extend (h : History) (signals : List Signal) : History :=
  signals.filterMap Signal.happening? ++ h

variable {t : Tree C} {h : History}

theorem mem_configuration_append {id : StateId} {since : History} (hid : id ∈ configuration h)
    (hstay : .exited id ∉ since) : id ∈ configuration (since ++ h) := by
  induction since with
  | nil => exact hid
  | cons x rest ih =>
    rw [List.mem_cons, not_or] at hstay
    obtain ⟨hne, hrest⟩ := hstay
    have hin := ih hrest
    cases x with
    | entered other => exact Configuration.mem_insert.2 (.inr hin)
    | exited other =>
      refine Configuration.mem_erase.2 ⟨hin, ?_⟩
      rintro rfl
      exact hne rfl
    | reported activity => exact hin

theorem Staying.mem_configuration {owner : StateId} {ticket : Nat}
    (hs : Staying t h owner ticket) : owner ∈ configuration h := by
  obtain ⟨since, before, rfl, hstay, -⟩ := hs
  exact mem_configuration_append (Configuration.mem_insert.2 (.inl rfl)) hstay

theorem Staying.append {owner : StateId} {ticket : Nat} (hs : Staying t h owner ticket)
    {later : History} (hstay : .exited owner ∉ later) : Staying t (later ++ h) owner ticket := by
  obtain ⟨since, before, rfl, hsince, hticket⟩ := hs
  refine ⟨later ++ since, before, by rw [List.append_assoc], ?_, hticket⟩
  rw [List.mem_append, not_or]
  exact ⟨hstay, hsince⟩

theorem Staying.cons {owner : StateId} {ticket : Nat} (hs : Staying t h owner ticket)
    {x : Happening} (hstay : x ≠ .exited owner) : Staying t (x :: h) owner ticket := by
  have hnot : .exited owner ∉ [x] := by simpa using hstay.symm
  exact hs.append hnot

theorem configuration_reports (xs : List Activity) :
    configuration (xs.map .reported ++ h) = configuration h := by
  induction xs with
  | nil => rfl
  | cons x rest ih => exact ih

theorem issued_reports (xs : List Activity) :
    issued t (xs.map .reported ++ h) = issued t h := by
  induction xs with
  | nil => rfl
  | cons x rest ih => exact ih

theorem reported_reports (xs : List Activity) :
    reported (xs.map .reported ++ h) = xs ++ reported h := by
  induction xs with
  | nil => rfl
  | cons x rest ih => exact congrArg (x :: ·) ih

theorem reportedSince_reports (id : StateId) (xs : List Activity) :
    reportedSince id (xs.map .reported ++ h) =
      xs.filter (·.owner = id) ++ reportedSince id h := by
  induction xs with
  | nil => rfl
  | cons x rest ih =>
    simp only [List.map_cons, List.cons_append, reportedSince, List.filter_cons, ih]
    by_cases hx : x.owner = id
    · simp [hx]
    · simp [hx]

theorem extend_cons (x : Signal) (signals : List Signal) :
    h.extend (x :: signals).reverse =
      extend (x.happening?.toList ++ h) signals.reverse := by
  simp only [extend, List.reverse_cons, List.filterMap_append, List.append_assoc]
  cases x <;> rfl

end History

/-! ## Starting activities -/

/-- The activities of these kinds, with tickets from `first` on. -/
def registrations (owner : StateId) (first : Nat) (kinds : List ActivityKind) : List Activity :=
  (kinds.zipIdx first).map fun (kind, ticket) => ⟨owner, kind, ticket⟩

theorem mem_registrations {owner : StateId} {first : Nat} {kinds : List ActivityKind}
    {x : Activity} (hx : x ∈ registrations owner first kinds) :
    x.owner = owner ∧ first ≤ x.ticket ∧ x.ticket < first + kinds.length := by
  obtain ⟨⟨kind, ticket⟩, hmem, rfl⟩ := List.mem_map.1 hx
  exact ⟨rfl, List.le_snd_of_mem_zipIdx hmem, List.snd_lt_add_of_mem_zipIdx hmem⟩

theorem registrations_length (owner : StateId) (first : Nat) (kinds : List ActivityKind) :
    (registrations owner first kinds).length = kinds.length := by
  rw [registrations, List.length_map, List.length_zipIdx]

theorem registrations_kinds (owner : StateId) (first : Nat) (kinds : List ActivityKind) :
    (registrations owner first kinds).map Activity.kind = kinds := by
  simp [registrations, Function.comp_def]

theorem registrations_tickets (owner : StateId) (first : Nat) (kinds : List ActivityKind) :
    (registrations owner first kinds).map Activity.ticket = List.range' first kinds.length := by
  simp [registrations, Function.comp_def]

namespace Activities

/-- The register after these activities were started. -/
structure Starts (a : Activities) (new : List Activity) (a' : Activities) : Prop where
  attached : a'.attached = a.attached
  nextTicket : a'.nextTicket = a.nextTicket + new.length
  running : a'.running = a.running ++ new
  started : a'.started = new.reverse ++ a.started
  cancelled : a'.cancelled = a.cancelled

theorem foldl_start {α : Type} (owner : StateId) (kind : α → ActivityKind)
    (ending : α → Option (Nat × Event)) (xs : List α) (a : Activities) :
    a.Starts (registrations owner a.nextTicket (xs.map kind))
      (xs.foldl (fun a x => a.start owner (kind x) (ending x)) a) := by
  induction xs generalizing a with
  | nil => exact ⟨rfl, rfl, (List.append_nil _).symm, rfl, rfl⟩
  | cons x rest ih =>
    have hs := ih (a.start owner (kind x) (ending x))
    refine ⟨hs.attached, ?_, ?_, ?_, hs.cancelled⟩
    · rw [List.foldl_cons, hs.nextTicket]
      simp [registrations, start]
      omega
    · rw [List.foldl_cons, hs.running]
      simp [registrations, start]
    · rw [List.foldl_cons, hs.started]
      simp [registrations, start]

theorem enter_starts {a : Activities} (ha : a.attached = true) (n : Node C) :
    a.Starts (registrations n.id a.nextTicket n.activityKinds) (a.enter n) := by
  have hservices := foldl_start n.id (fun s : Service => .service s.id)
    (fun s => (s.body s.input).report? s.id) n.services a
  have htimers := foldl_start n.id .timer (fun delay => some (delay, .delayed n.id delay)) n.delays
    (n.services.foldl (startService n.id) a)
  have henter : a.enter n =
      n.delays.foldl (startTimer n.id) (n.services.foldl (startService n.id) a) := by
    rw [enter, if_pos ha]
  have hsplit : registrations n.id a.nextTicket n.activityKinds =
      registrations n.id a.nextTicket (n.services.map (.service ·.id)) ++
        registrations n.id (n.services.foldl (startService n.id) a).nextTicket
          (n.delays.map .timer) := by
    have hnext := hservices.nextTicket
    rw [registrations_length] at hnext
    rw [registrations, Node.activityKinds, List.zipIdx_append, List.map_append]
    exact congrArg (_ ++ registrations n.id · _) hnext.symm
  rw [henter, hsplit]
  refine ⟨htimers.attached.trans hservices.attached, ?_, ?_, ?_,
    htimers.cancelled.trans hservices.cancelled⟩
  · rw [List.length_append, ← Nat.add_assoc, ← hservices.nextTicket]
    exact htimers.nextTicket
  · rw [← List.append_assoc, ← hservices.running]
    exact htimers.running
  · rw [List.reverse_append, List.append_assoc, ← hservices.started]
    exact htimers.started

/-! ## The register and the history -/

/-- Every activity so far runs, has reported, or was cancelled, and has a ticket of its own. Those
that run belong to the present stay in their state. -/
structure Accounted (t : Tree C) (h : History) (a : Activities) : Prop where
  issued : a.nextTicket = h.issued t
  tickets : a.started.map Activity.ticket = (List.range a.nextTicket).reverse
  accounts : (a.running ++ h.reported ++ a.cancelled).Perm a.started
  staying : ∀ x ∈ a.running, h.Staying t x.owner x.ticket

/-- In addition, activities can be started, and every active state has what it asks for. -/
structure Serving (t : Tree C) (h : History) (a : Activities) : Prop extends
    Accounted t h a where
  attached : a.attached = true
  served : ∀ n ∈ t.nodes, n.id ∈ h.configuration →
    ((a.running.filter (·.owner = n.id) ++ h.reportedSince n.id).map Activity.kind).Perm
      n.activityKinds

variable {t : Tree C} {h : History} {a : Activities}

theorem Accounted.lt_nextTicket (ha : a.Accounted t h) : ∀ x ∈ a.started,
    x.ticket < a.nextTicket := by
  intro x hx
  have hmem : x.ticket ∈ a.started.map Activity.ticket := List.mem_map_of_mem hx
  rw [ha.tickets, List.mem_reverse] at hmem
  exact List.mem_range.1 hmem

theorem Accounted.tickets_nodup (ha : a.Accounted t h) :
    (a.started.map Activity.ticket).Nodup := by
  rw [ha.tickets, List.nodup_reverse]
  exact List.nodup_range

theorem Accounted.mem_started (ha : a.Accounted t h) {x : Activity} (hx : x ∈ a.running) :
    x ∈ a.started :=
  ha.accounts.mem_iff.1 (List.mem_append_left _ (List.mem_append_left _ hx))

theorem Accounted.running_nodup (ha : a.Accounted t h) :
    (a.running.map Activity.ticket).Nodup := by
  have hnodup := (ha.accounts.map Activity.ticket).nodup_iff.2 ha.tickets_nodup
  rw [List.append_assoc, List.map_append] at hnodup
  exact (List.nodup_append.1 hnodup).1

theorem issued_entered (hw : t.WellFormed) {n : Node C} (hn : n ∈ t.nodes) :
    History.issued t (.entered n.id :: h) = h.issued t + n.activityKinds.length := by
  rw [History.issued, hw.node?_id hn]
  rfl

theorem Accounted.enter (hw : t.WellFormed) (ha : a.Accounted t h) (hattached : a.attached = true)
    {n : Node C} (hn : n ∈ t.nodes) : (a.enter n).Accounted t (.entered n.id :: h) := by
  have hs := enter_starts hattached n
  have hissued := issued_entered (h := h) hw hn
  have hlength := registrations_length n.id a.nextTicket n.activityKinds
  refine ⟨?_, ?_, ?_, ?_⟩
  · rw [hs.nextTicket, ha.issued, hissued, ← ha.issued, hlength]
  · rw [hs.started, hs.nextTicket, List.map_append, List.map_reverse, ha.tickets,
      registrations_tickets, hlength, ← List.reverse_append, List.range_eq_range',
      List.range_eq_range', ← List.range'_append_1, Nat.zero_add]
  · rw [hs.running, hs.started, hs.cancelled]
    have hold := ha.accounts
    have hrev := List.reverse_perm (registrations n.id a.nextTicket n.activityKinds)
    have hreported : History.reported (.entered n.id :: h) = h.reported := rfl
    rw [List.perm_iff_count] at hold hrev ⊢
    intro x
    have hold := hold x
    have hrev := hrev x
    simp only [List.count_append, hreported] at hold ⊢
    omega
  · intro x hx
    rw [hs.running] at hx
    rcases List.mem_append.1 hx with hx | hx
    · exact (ha.staying x hx).cons (by simp)
    · obtain ⟨howner, hlow, hhigh⟩ := mem_registrations hx
      refine ⟨[], h, by rw [howner]; rfl, List.not_mem_nil, ?_, ?_⟩
      · rw [← ha.issued]; exact hlow
      · rw [howner, hissued, ← ha.issued]; exact hhigh

theorem Serving.enter (hw : t.WellFormed) (ha : a.Serving t h) {n : Node C} (hn : n ∈ t.nodes)
    (hout : n.id ∉ h.configuration) : (a.enter n).Serving t (.entered n.id :: h) := by
  have hs := enter_starts ha.attached n
  refine ⟨ha.toAccounted.enter hw ha.attached hn, hs.attached.trans ha.attached, ?_⟩
  intro m hm hactive
  rw [hs.running, List.filter_append]
  by_cases hsame : m.id = n.id
  · -- No activity of the state runs yet, for it was not active.
    obtain rfl := hw.eq_of_id hm hn hsame
    have hnone : a.running.filter (·.owner = m.id) = [] := by
      refine List.filter_eq_nil_iff.2 fun x hx hown => hout ?_
      have hin := (ha.staying x hx).mem_configuration
      rwa [of_decide_eq_true hown] at hin
    have hall : (registrations m.id a.nextTicket m.activityKinds).filter (·.owner = m.id) =
        registrations m.id a.nextTicket m.activityKinds :=
      List.filter_eq_self.2 fun x hx => decide_eq_true (mem_registrations hx).1
    rw [hnone, hall, History.reportedSince, if_pos rfl, List.append_nil, List.nil_append,
      registrations_kinds]
  · have hnone :
        (registrations n.id a.nextTicket n.activityKinds).filter (·.owner = m.id) = [] := by
      refine List.filter_eq_nil_iff.2 fun x hx hown => hsame ?_
      rw [← of_decide_eq_true hown]
      exact (mem_registrations hx).1
    rw [hnone, List.append_nil, History.reportedSince, if_neg (Ne.symm hsame)]
    exact ha.served m hm ((Configuration.mem_insert.1 hactive).resolve_left hsame)

theorem cancelBy_running (a : Activities) (test : Activity → Bool) :
    (a.cancelBy test).running = a.running.filter (!test ·) := by
  simp [cancelBy, List.partition_eq_filter_filter, Function.comp_def]

theorem cancelBy_cancelled (a : Activities) (test : Activity → Bool) :
    (a.cancelBy test).cancelled = (a.running.filter test).reverse ++ a.cancelled := by
  simp [cancelBy, List.partition_eq_filter_filter]

theorem Accounted.cancelBy (ha : a.Accounted t h) (test : Activity → Bool) :
    (a.cancelBy test).Accounted t h := by
  refine ⟨ha.issued, ha.tickets, ?_, ?_⟩
  · rw [cancelBy_running, cancelBy_cancelled]
    have hold := ha.accounts
    have hsplit := List.filter_append_perm test a.running
    have hrev := List.reverse_perm (a.running.filter test)
    have hstarted : (a.cancelBy test).started = a.started := rfl
    rw [List.perm_iff_count] at hold hsplit hrev ⊢
    intro x
    have hold := hold x
    have hsplit := hsplit x
    have hrev := hrev x
    simp only [List.count_append, hstarted] at hold hsplit ⊢
    omega
  · intro x hx
    rw [cancelBy_running] at hx
    exact ha.staying x (List.mem_filter.1 hx).1

theorem exit_running (a : Activities) (id : StateId) :
    (a.exit id).running = a.running.filter (fun x => !decide (x.owner = id)) :=
  cancelBy_running a _

theorem Accounted.exit (ha : a.Accounted t h) (id : StateId) :
    (a.exit id).Accounted t (.exited id :: h) := by
  have hcancel := ha.cancelBy (·.owner = id)
  refine ⟨hcancel.issued, hcancel.tickets, hcancel.accounts, ?_⟩
  intro x hx
  have howner : x.owner ≠ id := by
    rw [exit_running] at hx
    simpa using (List.mem_filter.1 hx).2
  exact (hcancel.staying x hx).cons (by simpa using howner.symm)

theorem Serving.exit (ha : a.Serving t h) (id : StateId) :
    (a.exit id).Serving t (.exited id :: h) := by
  refine ⟨ha.toAccounted.exit id, ha.attached, ?_⟩
  intro n hn hactive
  obtain ⟨hactive, hne⟩ := Configuration.mem_erase.1 hactive
  have hsame : (a.exit id).running.filter (·.owner = n.id) =
      a.running.filter (·.owner = n.id) := by
    rw [exit_running, List.filter_filter]
    refine List.filter_congr fun x _ => ?_
    by_cases hx : x.owner = n.id
    · simp [hx, hne]
    · simp [hx]
  rw [hsame]
  exact ha.served n hn hactive

theorem Accounted.report (ha : a.Accounted t h) (test : Activity → Bool) :
    Accounted t ((a.running.filter test).map .reported ++ h)
      { a with running := a.running.filter (!test ·) } := by
  refine ⟨?_, ha.tickets, ?_, ?_⟩
  · rw [History.issued_reports]
    exact ha.issued
  · rw [History.reported_reports]
    have hold := ha.accounts
    have hsplit := List.filter_append_perm test a.running
    rw [List.perm_iff_count] at hold hsplit ⊢
    intro x
    have hold := hold x
    have hsplit := hsplit x
    simp only [List.count_append] at hold hsplit ⊢
    omega
  · intro x hx
    exact (ha.staying x (List.mem_filter.1 hx).1).append (by simp)

theorem Serving.report (ha : a.Serving t h) (test : Activity → Bool) :
    Serving t ((a.running.filter test).map .reported ++ h)
      { a with running := a.running.filter (!test ·) } := by
  refine ⟨ha.toAccounted.report test, ha.attached, ?_⟩
  intro n hn hactive
  rw [History.configuration_reports] at hactive
  refine List.Perm.trans (List.Perm.map _ ?_) (ha.served n hn hactive)
  rw [History.reportedSince_reports, ← List.append_assoc]
  refine List.Perm.append_right _ ?_
  -- What has reported and what runs on are the activities of the state that ran.
  rw [← List.filter_append]
  exact (List.perm_append_comm.trans (List.filter_append_perm test a.running)).filter _

theorem finish?_eq_some {owner : StateId} {ticket : Nat} {a' : Activities}
    (hf : a.finish? owner ticket = some a') :
    (∃ x ∈ a.running, x.owner = owner ∧ x.ticket = ticket) ∧
      a' = { a with running := a.running.filter (!·.hasTicket owner ticket) } := by
  simp only [finish?] at hf
  split at hf
  · rename_i hany
    cases hf
    exact ⟨by simpa using hany, rfl⟩
  · cases hf

theorem finish?_eq_none {owner : StateId} {ticket : Nat} :
    a.finish? owner ticket = none ↔
      ∀ x ∈ a.running, x.owner = owner → x.ticket ≠ ticket := by
  simp [finish?]

/-! ## Following the signals of a run -/

/-- The signals of a run keep the register in step with the history. -/
theorem follow_serving (hw : t.WellFormed) {c c' : Configuration} {signals : List Signal}
    (hl : t.Lifecycle c signals c') (ha : a.Serving t h) (hc : h.configuration = c) :
    (a.follow t signals).Serving t (h.extend signals.reverse) ∧
      (h.extend signals.reverse).configuration = c' := by
  induction hl generalizing a h with
  | nil => exact ⟨ha, hc⟩
  | @entered c c' id signals hid hout _ ih =>
    obtain ⟨n, hn, rfl⟩ := Tree.mem_ids.1 hid
    subst hc
    have hstep := ih (ha.enter hw hn hout) rfl
    have hfollow : a.follow t (.entered n.id :: signals) = (a.enter n).follow t signals := by
      rw [follow, hw.node?_id hn]
    rw [hfollow, History.extend_cons]
    exact hstep
  | @exited c c' id signals hin _ ih =>
    subst hc
    have hstep := ih (ha.exit id) rfl
    rw [follow, History.extend_cons]
    exact hstep
  | @logged c c' signals message _ ih =>
    rw [follow, History.extend_cons]
    exact ih ha hc

end Activities

end Statechart
