import Mathlib.Data.List.Find
import Statechart.Proofs.Stabilization

/-!
# Statechart.Proofs.Forks

Transitions to several targets. The targets are gone to in turn, each from the source, even if the
step to an earlier one has left the source and states above it. A later target may then be entered
without the states above it, and stabilization, which enters children of active states only, makes
up for them only if they are the very children that it would choose.

* `Tree.Completable`, `Tree.stabilize_legal_iff`: the configurations that stabilization makes legal.
* `Tree.Forks`: the targets lie in different regions of an orthogonal state around them, but not
  around the source.
* `Tree.Forking.step`: what the steps to such targets keep.
* `Tree.fork_legal`: events that select one transition with several targets.
* `forking_illegal`: a transition that leaves an illegal configuration behind.
-/

namespace Statechart

variable {C : Type}

namespace Tree

variable {t : Tree C} {c c' : Configuration}

/-! ## What stabilization makes legal -/

/-- No compound state has two active children, and what is missing above an active state is what
stabilization would enter there. -/
structure Completable (t : Tree C) (c : Configuration) : Prop where
  exclusive : ∀ n ∈ t.nodes, ∀ children initial actions,
    n.kind = .compound children initial actions →
      ∀ x ∈ children, ∀ y ∈ children, x ∈ c → y ∈ c → x = y
  filled : ∀ id ∈ c, ∀ a ∈ id.ancestors, a ∈ c ∨ t.Awaited c a

theorem Coherent.completable (hc : t.Coherent c) : t.Completable c :=
  ⟨hc.exclusive, fun id hid a ha => .inl (hc.closed id hid a ha)⟩

theorem Fills.closed (h : t.WellFormed) (hf : t.Fills c c') (hstable : t.unstable c' = [])
    (hknown : ∀ id ∈ c, id ∈ t.ids) (hc : t.Completable c) :
    ∀ id ∈ c', ∀ a ∈ id.ancestors, a ∈ c' := by
  -- Above a state that was active from the start, from the root downwards.
  have above : ∀ id ∈ c, ∀ a (_ : a.keys ≠ []), a ∈ id.ancestors → a ∈ c' := by
    intro id hid a hne
    induction a, hne using StateId.byParent with
    | root k =>
      intro ha
      rcases hc.filled id hid _ ha with hac | ⟨n, hn, hlacks, hmissing⟩
      · exact hf.kept _ hac
      · have hparent := (h.child_mem hn (mem_missingChildren h hn hlacks hmissing).1).2
        rw [StateId.parent?_root] at hparent
        cases hparent
    | child p k hp ih =>
      intro ha
      have hparent := StateId.parent?_child (k := k) hp
      have hpc : p ∈ c' := ih (StateId.mem_ancestors.2 ⟨hp, StateId.isAncestorOf_of_within
        (StateId.isAncestorOf_of_parent? hparent)
        (StateId.within_of_isAncestorOf (StateId.mem_ancestors.1 ha).2)⟩)
      rcases hc.filled id hid _ ha with hac | hawaited
      · exact hf.kept _ hac
      · exact hawaited.active h hf hstable hparent hpc
  intro id hid
  have hne : id.keys ≠ [] := by
    rcases hf.added id hid with hidc | ⟨-, p, -, hparent⟩
    · exact h.keys_ne_nil (hknown id hidc)
    · obtain ⟨-, k, rfl⟩ := StateId.parent?_eq_some.1 hparent
      exact StateId.child_ne_nil p k
  induction id, hne using StateId.byParent with
  | root k =>
    intro a ha
    rw [StateId.ancestors_root] at ha
    cases ha
  | child p k hp ih =>
    intro a ha
    rcases hf.added _ hid with hidc | ⟨-, p', hpc, hparent⟩
    · exact above _ hidc a (StateId.mem_ancestors.1 ha).1 ha
    · rw [StateId.parent?_child hp] at hparent
      cases hparent
      rw [StateId.ancestors_child hp] at ha
      rcases List.mem_cons.1 ha with rfl | ha
      · exact hpc
      · exact ih hpc a ha

theorem Fills.coherent (h : t.WellFormed) (hf : t.Fills c c') (hstable : t.unstable c' = [])
    (hknown : ∀ id ∈ c, id ∈ t.ids) (hroot : t.root.id ∈ c) (hc : t.Completable c) :
    t.Coherent c' := by
  refine ⟨?_, hf.kept _ hroot, hf.closed h hstable hknown hc, ?_⟩
  · intro id hid
    rcases hf.added id hid with hidc | ⟨⟨n, hn, hlacks, hmissing⟩, -⟩
    · exact hknown id hidc
    · exact (h.child_mem hn (mem_missingChildren h hn hlacks hmissing).1).1
  · intro n hn children initial actions hk x hx y hy hxc hyc
    rcases hf.added x hxc with hxold | ⟨hxnew, -⟩
    · rcases hf.added y hyc with hyold | ⟨hynew, -⟩
      · exact hc.exclusive n hn children initial actions hk x hx y hy hxold hyold
      · exact absurd hxold ((hynew.compound h hn hk hy).2 x hx)
    · obtain ⟨hxi, hnone⟩ := hxnew.compound h hn hk hx
      rcases hf.added y hyc with hyold | ⟨hynew, -⟩
      · exact absurd hyold (hnone y hy)
      · rw [hxi, (hynew.compound h hn hk hy).1]

/-- Stabilization makes exactly the completable configurations legal. -/
theorem stabilize_legal_iff (h : t.WellFormed) (data : Json) {run : Run C}
    (hknown : ∀ id ∈ run.configuration, id ∈ t.ids) (hroot : t.root.id ∈ run.configuration) :
    t.Legal (t.stabilize data run).2.configuration ↔ t.Completable run.configuration := by
  have hf : t.Fills run.configuration (t.stabilize data run).2.configuration :=
    (stabilize_stabilizes data run).fills h (.refl t run.configuration)
  have hstable := unstable_stabilize h data run
  constructor
  · intro hlegal
    refine ⟨?_, ?_⟩
    · intro n hn children initial actions hk x hx y hy hxc hyc
      exact (hlegal.coherent h).exclusive n hn children initial actions hk x hx y hy
        (hf.kept x hxc) (hf.kept y hyc)
    · intro id hid a ha
      rcases hf.added a (hlegal.closed id (hf.kept id hid) a ha) with hac | ⟨hawaited, -⟩
      · exact .inl hac
      · exact .inr hawaited
  · intro hc
    exact legal_of_stable (hf.coherent h hstable hknown hroot hc) hstable

/-! ## Targets in different regions -/

/-- The states lie in different regions of an orthogonal state that does not hold the source. -/
def Apart (t : Tree C) (source x y : StateId) : Prop :=
  ∃ n ∈ t.nodes, ∃ regions, n.kind = .orthogonal regions ∧ ¬ source.Within n.id ∧
    ∃ r ∈ regions, ∃ r' ∈ regions, r ≠ r' ∧ x.Within r ∧ y.Within r'

/-- Each two of the targets lie in different regions of an orthogonal state that does not hold the
source. -/
def Forks (t : Tree C) (source : StateId) (targets : List StateId) : Prop :=
  targets.Pairwise (t.Apart source)

variable {source x y : StateId}

/-- What is above the source and one of the states is above the orthogonal state, hence above the
other one, too. -/
theorem Apart.lca_eq (h : t.WellFormed) (ha : t.Apart source x y) :
    source.lca y = source.lca x := by
  obtain ⟨n, hn, regions, hk, hsource, r, hr, r', hr', -, hx, hy⟩ := ha
  have hbelow : ∀ {z s : StateId}, s ∈ regions → z.Within s → n.id.isAncestorOf z = true := by
    intro z s hs hz
    have hparent := (h.child_mem hn (by rw [hk]; exact hs)).2
    exact StateId.isAncestorOf_of_within (StateId.isAncestorOf_of_parent? hparent) hz
  have habove : ∀ {z : StateId}, n.id.isAncestorOf z = true → ∀ a ∈ source.ancestors,
      (a ∈ z.ancestors ↔ a.isAncestorOf n.id = true) := by
    intro z hz a ha
    obtain ⟨hne, hanc⟩ := StateId.mem_ancestors.1 ha
    rw [StateId.mem_ancestors]
    constructor
    · rintro ⟨-, haz⟩
      have htotal := (StateId.within_of_isAncestorOf haz).total (StateId.within_of_isAncestorOf hz)
      rcases htotal with hw | hw
      · exact absurd ((StateId.within_of_isAncestorOf hanc).trans hw) hsource
      · refine StateId.isAncestorOf_iff.2 ⟨hw, ?_⟩
        rintro rfl
        exact hsource (StateId.within_of_isAncestorOf hanc)
    · intro han
      exact ⟨hne, StateId.isAncestorOf_of_within han (StateId.within_of_isAncestorOf hz)⟩
  refine List.find?_congr fun a ha => ?_
  rw [Bool.eq_iff_iff, List.contains_iff_mem, List.contains_iff_mem,
    habove (hbelow hr' hy) a ha, habove (hbelow hr hx) a ha]

/-- The ways to the states do not part in a compound state. -/
theorem Apart.eq_of_within (h : t.WellFormed) (ha : t.Apart source x y) {n : Node C}
    (hn : n ∈ t.nodes) {children : List StateId} {initial : StateId} {actions : List (Action C)}
    (hk : n.kind = .compound children initial actions) {u v : StateId} (hu : u ∈ children)
    (hv : v ∈ children) (hxu : x.Within u) (hyv : y.Within v) : u = v := by
  obtain ⟨m, hm, regions, hkm, -, r, hr, r', hr', hne, hxr, hyr'⟩ := ha
  have hchild : ∀ {z : StateId}, z ∈ children → z.parent? = some n.id :=
    fun hz => (h.child_mem hn (by rw [hk]; exact hz)).2
  have hregion : ∀ {z : StateId}, z ∈ regions → z.parent? = some m.id :=
    fun hz => (h.child_mem hm (by rw [hkm]; exact hz)).2
  have hdiffer : u ≠ r := by
    rintro rfl
    have hnm := h.eq_of_id hn hm (Option.some.inj ((hchild hu).symm.trans (hregion hr)))
    subst hnm
    rw [hk] at hkm
    cases hkm
  have hin : ∀ {z p : StateId}, z.parent? = some p → z.Within p :=
    fun hz => StateId.within_of_isAncestorOf (StateId.isAncestorOf_of_parent? hz)
  rcases hxu.total hxr with hw | hw
  · -- The compound state lies in one region, and holds a state of the other.
    have hanc := (StateId.within_iff.1 hw).resolve_left hdiffer
    have hyr := (hyv.trans (hin (hchild hv))).trans (StateId.within_parent (hchild hu) hanc)
    exact absurd (StateId.eq_of_within_siblings (hregion hr) (hregion hr') hyr hyr') hne
  · have hanc := (StateId.within_iff.1 hw).resolve_left hdiffer.symm
    have hyu := (hyr'.trans (hin (hregion hr'))).trans (StateId.within_parent (hregion hr) hanc)
    exact StateId.eq_of_within_siblings (hchild hu) (hchild hv) hyu hyv

/-- What holds while a transition goes to its targets, those of `past` being behind it. Inside a
compound state, the source's side is left with the first step, and only ways to targets are active
from then on. -/
structure Forking (t : Tree C) (top : Node C) (boundary : Option StateId) (past : List StateId)
    (c : Configuration) : Prop where
  coherent : t.Coherent c
  top_active : top.id ∈ c
  sides : ∀ children initial actions, top.kind = .compound children initial actions →
    (∀ b ∈ boundary, b ∈ c) ∨
      ∀ y ∈ c, top.id.isAncestorOf y = true → ∃ x ∈ past, x.Within y

section Step

variable {top : Node C} {boundary : Option StateId} {target : StateId} {past : List StateId}

/-- Leaving the source's side of a compound state leaves nothing active below it but the way to the
target. -/
theorem within_of_leaving (h : t.WellFormed) (hc : t.Coherent c)
    (hs : t.StepsInside top boundary target) {children : List StateId} {initial : StateId}
    {actions : List (Action C)} (hk : top.kind = .compound children initial actions)
    (hboundary : ∀ b ∈ boundary, b ∈ c)
    (hy : y ∈ (t.planWithin c top.id boundary target).applyTo c)
    (hbelow : top.id.isAncestorOf y = true) : target.Within y := by
  rcases (mem_applyTo_planWithin h hs).1 hy with ⟨hway, -⟩ | ⟨hyc, hstay⟩
  · exact hway
  · exact absurd ((mem_exited_compound h hc hs hboundary hk).2 ⟨hyc, hbelow⟩) hstay

/-- The way to a target that lies apart from the earlier ones fits in with the ways to these. -/
theorem coherent_of_ways (h : t.WellFormed) (hc : t.Coherent c)
    (hs : t.StepsInside top boundary target) (htop : top.id ∈ c)
    (hways : ∀ y ∈ c, top.id.isAncestorOf y = true → ∃ x ∈ past, x.Within y)
    (hapart : ∀ x ∈ past, t.Apart source x target) :
    t.Coherent ((t.planWithin c top.id boundary target).applyTo c) := by
  refine planWithin_coherent_of h hc hs htop ?_
  intro n hn children initial actions hk u hu v hv hw hbelow hvc
  have hparent : ∀ z ∈ children, z.parent? = some n.id :=
    fun z hz => (h.child_mem hn (by rw [hk]; exact hz)).2
  have hvbelow : top.id.isAncestorOf v = true := by
    obtain ⟨-, k, rfl⟩ := StateId.parent?_eq_some.1 (hparent v hv)
    exact StateId.isAncestorOf_child.2 (StateId.within_parent (hparent u hu) hbelow)
  obtain ⟨x, hx, hxv⟩ := hways v hvc hvbelow
  exact .inl ((hapart x hx).eq_of_within h hn hk hv hu hxv hw).symm

theorem Forking.step (h : t.WellFormed) (hf : t.Forking top boundary past c)
    (hs : t.StepsInside top boundary target) (hapart : ∀ x ∈ past, t.Apart source x target) :
    t.Forking top boundary (past ++ [target])
      ((t.planWithin c top.id boundary target).applyTo c) := by
  have htop : top.id ∈ (t.planWithin c top.id boundary target).applyTo c := by
    refine (mem_applyTo_planWithin h hs).2 (.inr ⟨hf.top_active, fun hexit => ?_⟩)
    exact StateId.ne_of_isAncestorOf (isAncestorOf_of_mem_exited h hs hexit) rfl
  by_cases hcompound : ∃ children initial actions, top.kind = .compound children initial actions
  · obtain ⟨children, initial, actions, hk⟩ := hcompound
    rcases hf.sides children initial actions hk with hboundary | hways
    · refine ⟨planWithin_coherent h hf.coherent hs hf.top_active fun _ _ _ _ => hboundary, htop,
        fun _ _ _ _ => .inr fun y hy hbelow => ?_⟩
      exact ⟨target, by simp, within_of_leaving h hf.coherent hs hk hboundary hy hbelow⟩
    · refine ⟨coherent_of_ways h hf.coherent hs hf.top_active hways hapart, htop,
        fun _ _ _ _ => .inr fun y hy hbelow => ?_⟩
      rcases (mem_applyTo_planWithin h hs).1 hy with ⟨hway, -⟩ | ⟨hyc, -⟩
      · exact ⟨target, by simp, hway⟩
      · obtain ⟨x, hx, hxy⟩ := hways y hyc hbelow
        exact ⟨x, List.mem_append_left _ hx, hxy⟩
  · have hnot : ∀ children initial actions, top.kind ≠ .compound children initial actions :=
      fun children initial actions hk => hcompound ⟨children, initial, actions, hk⟩
    refine ⟨planWithin_coherent h hf.coherent hs hf.top_active ?_, htop, ?_⟩
    · intro children initial actions hk
      exact absurd hk (hnot children initial actions)
    · intro children initial actions hk
      exact absurd hk (hnot children initial actions)

theorem takeTo_forking (h : t.WellFormed) {cause : Cause} {targets : List StateId}
    (hframe : ∀ target ∈ targets, t.StepsInside top boundary target ∧
      ∀ c, t.plan c source target = .ok (t.planWithin c top.id boundary target))
    (hforks : t.Forks source (past ++ targets)) {actions : List (Action C)} {run : Run C}
    (hf : t.Forking top boundary past run.configuration) :
    t.Coherent (t.takeTo source cause actions targets run).2.configuration := by
  induction targets generalizing past actions run with
  | nil => exact hf.coherent
  | cons target rest ih =>
    obtain ⟨hs, hplan⟩ := hframe target List.mem_cons_self
    have hapart : ∀ x ∈ past, t.Apart source x target :=
      fun x hx => (List.pairwise_append.1 hforks).2.2 x hx target List.mem_cons_self
    have hnext := hf.step h hs hapart
    rw [← apply_configuration _ actions cause run] at hnext
    have hrest : t.Coherent (t.takeTo source cause [] rest
        (t.apply (t.planWithin run.configuration top.id boundary target) actions cause
          run).2).2.configuration :=
      ih (fun x hx => hframe x (List.mem_cons_of_mem _ hx)) (by simpa using hforks) hnext
    simp only [takeTo, hplan]
    generalize t.takeTo source cause [] rest _ = result at hrest ⊢
    obtain ⟨_ | ms, run'⟩ := result
    · exact hrest
    · exact hrest

end Step

/-! ## Events that select one transition -/

variable {run run' : Run C}

theorem Steps.rooted (h : t.WellFormed) {ms : List Microstep} (hsteps : t.Steps run ms run')
    (hknown : ∀ id ∈ run.configuration, id ∈ t.ids) (hroot : t.root.id ∈ run.configuration) :
    (∀ id ∈ run'.configuration, id ∈ t.ids) ∧ t.root.id ∈ run'.configuration := by
  refine ⟨?_, hsteps.root_mem h hroot⟩
  clear hroot
  induction hsteps with
  | nil => exact hknown
  | cons hp _ ih =>
    refine ih fun id hid => ?_
    rw [apply_configuration, Plan.mem_applyTo] at hid
    rcases hid with hnew | ⟨hold, -⟩
    · exact (hp.fits h).entered_known id hnew
    · exact hknown id hold

/-- An event that selects one transition with targets takes it and settles. -/
theorem process_one {event : Event} {s : Selected C} {taken : List Microstep}
    (hselect : t.select run.configuration run.context event = [s])
    (htargets : s.transition.targets ≠ []) (htake : t.take event s run = (.ok taken, run')) :
    t.process event run =
      (.ok (t.settle event.data true taken run').1, (t.settle event.data true taken run').2) := by
  have hs : s ∈ t.select run.configuration run.context event := by simp [hselect]
  have hactive := (mem_select hs).2.1
  have hinit : run.configuration.isInitialized = true :=
    Configuration.isInitialized_iff.2 ⟨_, hactive⟩
  have hgo := Transition.not_forbidden_of_targets htargets
  have hall : t.takeAll event [s] run = (.ok taken, run') := by
    simp [takeAll, hgo, hactive, htake]
  rw [process_eq (ne_start_of_mem_select hs), if_pos hinit, hselect, hall]
  rfl

/-- The steps of a transition whose targets lie in different regions keep a configuration
coherent. -/
theorem take_coherent (h : t.WellFormed) (event : Event) {s : Selected C}
    (hc : t.Coherent run.configuration) (hoffers : t.Offers s)
    (hactive : s.ref.source ∈ run.configuration) (htargets : s.transition.targets ≠ [])
    (hforks : t.Forks s.ref.source s.transition.targets) :
    t.Coherent (t.take event s run).2.configuration := by
  have hknown : ∀ target ∈ s.transition.targets, target ∈ t.ids ∧ target ≠ t.root.id :=
    fun target htarget => hoffers.target_mem h htarget
  obtain ⟨first, others, hfirst⟩ := List.exists_cons_of_ne_nil htargets
  have hmem : first ∈ s.transition.targets := by simp [hfirst]
  obtain ⟨top, boundary, hframe, hsides⟩ := plan_frame h hoffers.source_mem
    (hknown first hmem).1 (hknown first hmem).2
  have hsame : ∀ target ∈ s.transition.targets,
      s.ref.source.lca target = s.ref.source.lca first := by
    intro target htarget
    rw [hfirst, List.mem_cons] at htarget
    rcases htarget with rfl | hother
    · rfl
    · rw [Forks, hfirst] at hforks
      exact ((List.pairwise_cons.1 hforks).1 target hother).lca_eq h
  have hinside := (hframe first (hknown first hmem).1 (hknown first hmem).2 rfl).1
  obtain ⟨htop, hboundary⟩ := hc.frame_active hinside hactive hsides
  simp only [take]
  refine takeTo_forking h ?_ (show t.Forks s.ref.source ([] ++ s.transition.targets) from hforks)
    ⟨hc, htop, fun _ _ _ _ => .inl hboundary⟩
  intro target htarget
  exact hframe target (hknown target htarget).1 (hknown target htarget).2 (hsame target htarget)

/-- An event that selects a single transition, one with several targets, leads from a legal
configuration to a legal one exactly if what the steps to the targets leave is completable. It is
whenever the targets lie in different regions of orthogonal states that do not hold the source. -/
theorem fork_legal {d : NodeDef C} {t : Tree C} (hb : Tree.build d = .ok t) {event : Event}
    {run : Run C} {s : Selected C} (hlegal : t.Legal run.configuration)
    (hselect : t.select run.configuration run.context event = [s])
    (hmany : 2 ≤ s.transition.targets.length) :
    ∃ taken mid report run', t.take event s run = (.ok taken, mid) ∧
      t.process event run = (.ok report, run') ∧
      (t.Legal run'.configuration ↔ t.Completable mid.configuration) ∧
      (t.Forks s.ref.source s.transition.targets → t.Legal run'.configuration) := by
  have h := Tree.build_wellFormed hb
  obtain ⟨hoffers, hactive, -⟩ :=
    mem_select (show s ∈ t.select run.configuration run.context event by simp [hselect])
  have htargets : s.transition.targets ≠ [] := by
    intro hnil
    simp [hnil] at hmany
  obtain ⟨taken, mid, htake, hsteps⟩ := take_steps h event hoffers hactive
  obtain ⟨hknown, hroot⟩ := hsteps.rooted h hlegal.known hlegal.root
  have hiff := stabilize_legal_iff h event.data hknown hroot
  refine ⟨taken, mid, _, _, htake, process_one hselect htargets htake, hiff, fun hforks => ?_⟩
  have hmid := take_coherent h event (hlegal.coherent h) hoffers hactive htargets hforks
  rw [htake] at hmid
  exact hiff.2 hmid.completable

end Tree

/-! A chart with two transitions to two targets. The first leads from outside into both regions; the
second leads from within one region to the other region and, within its own, to a sibling. -/

def forking : NodeDef Nat where
  key := "m"
  kind := .compound "idle" []
  children := [
    { key := "idle", kind := .atomic,
      transitions := [{ event := .named "split", targets := ["pair.l.work", "pair.r"] }] },
    { key := "pair", kind := .orthogonal, children := [
      { key := "l", kind := .compound "off" [], children := [
        { key := "off", kind := .atomic },
        { key := "work", kind := .compound "a" [], children := [
          { key := "a", kind := .atomic,
            transitions := [{ event := .named "go", targets := ["#m.pair.r", "b"] }] },
          { key := "b", kind := .atomic }] }] },
      { key := "r", kind := .atomic }] }]

def forkingTree : Tree Nat where
  root := ⟨⟨["m"]⟩, .compound [⟨["m", "idle"]⟩, ⟨["m", "pair"]⟩] ⟨["m", "idle"]⟩ [], [], [], [], []⟩
  rest := [
    ⟨⟨["m", "idle"]⟩, .atomic, [], [],
      [.taken (.named "split") none [⟨["m", "pair", "l", "work"]⟩, ⟨["m", "pair", "r"]⟩] []], []⟩,
    ⟨⟨["m", "pair"]⟩, .orthogonal [⟨["m", "pair", "l"]⟩, ⟨["m", "pair", "r"]⟩], [], [], [], []⟩,
    ⟨⟨["m", "pair", "l"]⟩,
      .compound [⟨["m", "pair", "l", "off"]⟩, ⟨["m", "pair", "l", "work"]⟩]
        ⟨["m", "pair", "l", "off"]⟩ [], [], [], [], []⟩,
    ⟨⟨["m", "pair", "l", "off"]⟩, .atomic, [], [], [], []⟩,
    ⟨⟨["m", "pair", "l", "work"]⟩,
      .compound [⟨["m", "pair", "l", "work", "a"]⟩, ⟨["m", "pair", "l", "work", "b"]⟩]
        ⟨["m", "pair", "l", "work", "a"]⟩ [], [], [], [], []⟩,
    ⟨⟨["m", "pair", "l", "work", "a"]⟩, .atomic, [], [],
      [.taken (.named "go") none [⟨["m", "pair", "r"]⟩, ⟨["m", "pair", "l", "work", "b"]⟩] []], []⟩,
    ⟨⟨["m", "pair", "l", "work", "b"]⟩, .atomic, [], [], [], []⟩,
    ⟨⟨["m", "pair", "r"]⟩, .atomic, [], [], [], []⟩]

def forkingStarted : Run Nat :=
  (forkingTree.process .start (.new 0)).2

def forkingSplit : Run Nat :=
  (forkingTree.process (.named "split" .null) forkingStarted).2

/-- From outside, both regions are entered. -/
theorem forking_legal :
    Tree.build forking = .ok forkingTree ∧ forkingTree.Legal forkingStarted.configuration ∧
      (∃ s, forkingTree.select forkingStarted.configuration forkingStarted.context
          (.named "split" .null) = [s] ∧ s.transition.targets.length = 2 ∧
        forkingTree.Forks s.ref.source s.transition.targets) ∧
      forkingTree.Legal forkingSplit.configuration := by
  have hbuild : Tree.build forking = .ok forkingTree := rfl
  have hlegal : forkingTree.Legal forkingStarted.configuration := by decide
  let s : Selected Nat := ⟨⟨⟨["m", "idle"]⟩, 0⟩,
    .taken (.named "split") none [⟨["m", "pair", "l", "work"]⟩, ⟨["m", "pair", "r"]⟩] []⟩
  have hselect : forkingTree.select forkingStarted.configuration forkingStarted.context
      (.named "split" .null) = [s] := rfl
  have hforks : forkingTree.Forks s.ref.source s.transition.targets :=
    List.pairwise_pair.2 ⟨_, .tail _ (.tail _ (.head _)), _, rfl, by decide,
      ⟨["m", "pair", "l"]⟩, by simp, ⟨["m", "pair", "r"]⟩, by simp, by decide, by decide, by decide⟩
  obtain ⟨taken, mid, report, run', -, hprocess, -, hafter⟩ :=
    Tree.fork_legal hbuild hlegal hselect (Nat.le_refl 2)
  have hsplit : forkingSplit = run' := congrArg Prod.snd hprocess
  refine ⟨hbuild, hlegal, ⟨s, hselect, rfl, hforks⟩, ?_⟩
  rw [hsplit]
  exact hafter hforks

/-- From within a region, the step to the other region leaves both, and the second step enters the
sibling without the state around it. Stabilization then gives the region its initial child. -/
theorem forking_illegal :
    Tree.build forking = .ok forkingTree ∧ forkingTree.Legal forkingSplit.configuration ∧
      (∃ s, forkingTree.select forkingSplit.configuration forkingSplit.context
          (.named "go" .null) = [s] ∧ s.transition.targets.length = 2) ∧
      ∃ report run', forkingTree.process (.named "go" .null) forkingSplit = (.ok report, run') ∧
        run'.configuration.ids = [⟨["m"]⟩, ⟨["m", "pair"]⟩, ⟨["m", "pair", "l"]⟩,
          ⟨["m", "pair", "l", "off"]⟩, ⟨["m", "pair", "l", "work", "b"]⟩, ⟨["m", "pair", "r"]⟩] ∧
        ¬ forkingTree.Legal run'.configuration := by
  refine ⟨rfl, by decide, ⟨_, rfl, rfl⟩, _, _, rfl, rfl, by decide⟩

end Statechart
