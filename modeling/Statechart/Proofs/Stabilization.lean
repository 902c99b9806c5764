import Mathlib.Data.List.Sort
import Mathlib.Order.Bounds.Basic
import Statechart.Proofs.Legality

/-!
# Statechart.Proofs.Stabilization

Stabilization computes a closure. Active states that lack children are given them until none lacks
any, and it does not matter which of them is taken first: what is active in the end is the least set
that holds the configuration, the initial child of every compound state in the set that had no
active child, and all children of every orthogonal state in the set.

* `Tree.Closes`: the sets that hold all this.
* `Tree.Fills`: the larger configuration holds nothing that stabilization would not enter.
* `Tree.Stabilizes`: stabilization in any order. `Tree.Stabilizes.inOrder` says how states are
  entered, `Tree.Stabilizes.length_le` how many steps there can be, and `Tree.Stabilizes.least` what
  comes of them.
* `Tree.stabilize_closure`: the loop of the engine, and every other order.
-/

namespace Statechart

variable {C : Type}

instance : Std.Irrefl (α := StateId) (· < ·) := ⟨StateId.lt_irrefl⟩

instance : Std.Antisymm (α := StateId) (· < ·) :=
  ⟨fun a _ hab hba => absurd (StateId.lt_trans hab hba) (StateId.lt_irrefl a)⟩

/-- Configurations with the same members are equal. -/
theorem Configuration.eq_of_mem_iff {c d : Configuration} (h : ∀ id, id ∈ c ↔ id ∈ d) : c = d := by
  obtain ⟨ids, hc⟩ := c
  obtain ⟨ids', hd⟩ := d
  have hids : ids = ids' := hc.eq_of_mem_iff hd h
  subst hids
  rfl

namespace Tree

variable {t : Tree C} {c c' : Configuration} {n : Node C}

/-! ## What stabilization may enter -/

/-- Does the set hold the configuration, the initial child of each of its compound states that has
no child in the configuration, and all children of its orthogonal states? -/
structure Closes (t : Tree C) (c : Configuration) (r : Set StateId) : Prop where
  kept : ∀ id ∈ c, id ∈ r
  initial : ∀ n ∈ t.nodes, n.id ∈ r → ∀ children initial actions,
    n.kind = .compound children initial actions → (∀ x ∈ children, x ∉ c) → initial ∈ r
  regions : ∀ n ∈ t.nodes, n.id ∈ r → ∀ children, n.kind = .orthogonal children →
    ∀ x ∈ children, x ∈ r

/-- The second configuration has grown from the first by children that were lacking, each entered
below an active state. -/
structure Fills (t : Tree C) (c c' : Configuration) : Prop where
  kept : ∀ id ∈ c, id ∈ c'
  added : ∀ id ∈ c', id ∈ c ∨ t.Awaited c id ∧ ∃ p ∈ c', id.parent? = some p

theorem Fills.refl (t : Tree C) (c : Configuration) : t.Fills c c :=
  ⟨fun _ hid => hid, fun _ hid => .inl hid⟩

/-- What lacks children in the larger configuration lacks these children in the smaller one. -/
theorem Awaited.mono (hsub : ∀ id ∈ c, id ∈ c') {id : StateId} (ha : t.Awaited c' id) :
    t.Awaited c id := by
  obtain ⟨n, hn, hlacks, hid⟩ := ha
  refine ⟨n, hn, ?_⟩
  cases hk : n.kind with
  | atomic => rw [hk] at hid; cases hid
  | final => rw [hk] at hid; cases hid
  | compound children initial actions =>
    rw [hk] at hlacks hid
    have hnone : ∀ x ∈ children, x ∉ c' := by simpa [lacksChildren] using hlacks
    refine ⟨?_, hid⟩
    simpa [lacksChildren] using fun x hx hxc => hnone x hx (hsub x hxc)
  | orthogonal children =>
    rw [hk] at hid
    obtain ⟨hchild, hout⟩ := List.mem_filter.1 hid
    have hout : id ∉ c := fun hidc => (by simpa using hout : id ∉ c') (hsub id hidc)
    refine ⟨?_, List.mem_filter.2 ⟨hchild, by simpa using hout⟩⟩
    simpa [lacksChildren] using ⟨id, hchild, hout⟩

/-- Giving an active state the children it lacks is a way to grow. -/
theorem Fills.give (h : t.WellFormed) (hf : t.Fills c c') (hn : n ∈ t.unstable c') :
    t.Fills c (c'.insertAll (missingChildren n.kind c')) := by
  obtain ⟨⟨hmem, hactive⟩, hlacks⟩ := mem_unstable.1 hn
  refine ⟨fun id hid => Configuration.mem_insertAll.2 (.inr (hf.kept id hid)), fun id hid => ?_⟩
  rcases Configuration.mem_insertAll.1 hid with hnew | hold
  · have hparent := (h.child_mem hmem (mem_missingChildren h hmem hlacks hnew).1).2
    exact .inr ⟨Awaited.mono hf.kept ⟨n, hmem, hlacks, hnew⟩, n.id,
      Configuration.mem_insertAll.2 (.inr hactive), hparent⟩
  · rcases hf.added id hold with hidc | ⟨hawaited, p, hpc, hparent⟩
    · exact .inl hidc
    · exact .inr ⟨hawaited, p, Configuration.mem_insertAll.2 (.inr hpc), hparent⟩

/-- Nothing lacks children any more, so what the children were awaited for is there. -/
theorem Awaited.active (h : t.WellFormed) (hf : t.Fills c c') (hstable : t.unstable c' = [])
    {id p : StateId} (ha : t.Awaited c id) (hparent : id.parent? = some p) (hp : p ∈ c') :
    id ∈ c' := by
  obtain ⟨n, hn, hlacks, hid⟩ := ha
  have hchild := mem_missingChildren h hn hlacks hid
  have hnp : n.id = p := Option.some.inj ((h.child_mem hn hchild.1).2.symm.trans hparent)
  have hfull := lacksChildren_of_stable hstable hn (hnp ▸ hp)
  cases hk : n.kind with
  | atomic => rw [hk] at hid; cases hid
  | final => rw [hk] at hid; cases hid
  | compound children initial actions =>
    rw [hk] at hid hlacks hfull
    obtain ⟨x, hx, hxc⟩ : ∃ x ∈ children, x ∈ c' := by simpa [lacksChildren] using hfull
    have hnone : ∀ x ∈ children, x ∉ c := by simpa [lacksChildren] using hlacks
    -- The active child was entered as the initial one, which is the one that was awaited.
    have hawaited := ((hf.added x hxc).resolve_left (hnone x hx)).1
    rw [List.mem_singleton.1 hid, ← (hawaited.compound h hn hk hx).1]
    exact hxc
  | orthogonal children =>
    rw [hk] at hchild hfull
    have hall : ∀ x ∈ children, x ∈ c' := by simpa [lacksChildren] using hfull
    exact hall id hchild.1

/-- Once nothing lacks children, what has grown is closed. -/
theorem Fills.closes (h : t.WellFormed) (hf : t.Fills c c') (hstable : t.unstable c' = []) :
    t.Closes c {id | id ∈ c'} := by
  refine ⟨hf.kept, ?_, ?_⟩
  · intro n hn hactive children initial actions hk hnone
    have hproper : initial ∈ children := by
      have hproper := h.proper hn
      rwa [hk] at hproper
    have hawaited : t.Awaited c initial := by
      refine ⟨n, hn, ?_, ?_⟩
      · rw [hk]
        simpa [lacksChildren] using hnone
      · rw [hk]
        exact List.mem_singleton_self initial
    have hparent := (h.child_mem hn (by rw [hk]; exact hproper)).2
    exact hawaited.active h hf hstable hparent hactive
  · intro n hn hactive children hk
    have hfull := lacksChildren_of_stable hstable hn hactive
    rw [hk] at hfull
    simpa [lacksChildren] using hfull

/-! ## Stabilization in any order -/

/-- Stabilization in any order. Each step takes some active state that lacks children, and enters
those that it lacks; these are listed step by step. -/
inductive Stabilizes (t : Tree C) : Configuration → List (List StateId) → Configuration → Prop where
  | nil {c : Configuration} : Stabilizes t c [] c
  | cons {c c' : Configuration} {n : Node C} {entered : List (List StateId)} :
      n ∈ t.unstable c → Stabilizes t (c.insertAll (missingChildren n.kind c)) entered c' →
      Stabilizes t c (missingChildren n.kind c :: entered) c'

/-- States that are entered one after the other: each once, none that was active, and each after its
parent, unless that was active. -/
structure InOrder (c : Configuration) (entered : List StateId) : Prop where
  once : entered.Nodup
  inactive : ∀ id ∈ entered, id ∉ c
  below : ∀ before id after, entered = before ++ id :: after →
    ∃ p, id.parent? = some p ∧ (p ∈ c ∨ p ∈ before)

/-- The children of an active state may be entered first. -/
theorem InOrder.children (h : t.WellFormed) (hn : n ∈ t.unstable c) {rest : List StateId}
    (hrest : InOrder (c.insertAll (missingChildren n.kind c)) rest) :
    InOrder c (missingChildren n.kind c ++ rest) := by
  obtain ⟨⟨hmem, hactive⟩, hlacks⟩ := mem_unstable.1 hn
  have hmissing : ∀ id ∈ missingChildren n.kind c, id ∈ n.kind.children ∧ id ∉ c :=
    fun id hid => mem_missingChildren h hmem hlacks hid
  have hlater : ∀ id ∈ rest, id ∉ missingChildren n.kind c ∧ id ∉ c := by
    intro id hid
    have hout := hrest.inactive id hid
    rwa [Configuration.mem_insertAll, not_or] at hout
  refine ⟨?_, ?_, ?_⟩
  · refine List.nodup_append.2 ⟨missingChildren_nodup h hmem, hrest.once, ?_⟩
    rintro id hid other hother rfl
    exact (hlater id hother).1 hid
  · intro id hid
    rcases List.mem_append.1 hid with hid | hid
    · exact (hmissing id hid).2
    · exact (hlater id hid).2
  · intro before id after hsplit
    -- The state is one of the children, or it is entered behind all of them.
    have hplace : id ∈ missingChildren n.kind c ∨
        ∃ own, before = missingChildren n.kind c ++ own ∧ rest = own ++ id :: after := by
      rcases List.append_eq_append_iff.1 hsplit with hbehind | ⟨own, hown, hafter⟩
      · exact .inr hbehind
      · cases own with
        | nil => exact .inr ⟨[], by simpa using hown.symm, hafter.symm⟩
        | cons first own =>
          obtain ⟨rfl, -⟩ := List.cons_eq_cons.1 hafter
          exact .inl (by simp [hown])
    rcases hplace with hid | ⟨own, rfl, hrest'⟩
    · exact ⟨n.id, (h.child_mem hmem (hmissing id hid).1).2, .inl hactive⟩
    · obtain ⟨p, hparent, hp⟩ := hrest.below own id after hrest'
      refine ⟨p, hparent, ?_⟩
      rw [Configuration.mem_insertAll] at hp
      rw [List.mem_append]
      tauto

namespace Stabilizes

variable {entered : List (List StateId)}

theorem fills (h : t.WellFormed) {first : Configuration} (hf : t.Fills first c)
    (hs : t.Stabilizes c entered c') : t.Fills first c' := by
  induction hs with
  | nil => exact hf
  | cons hn _ ih => exact ih (hf.give h hn)

theorem inOrder (h : t.WellFormed) (hs : t.Stabilizes c entered c') :
    InOrder c entered.flatten := by
  induction hs with
  | nil =>
    refine ⟨.nil, fun id hid => (List.not_mem_nil hid).elim, ?_⟩
    intro before id after hsplit
    exact absurd hsplit.symm (by simp)
  | cons hn _ ih => exact ih.children h hn

theorem mem_iff (hs : t.Stabilizes c entered c') {id : StateId} :
    id ∈ c' ↔ id ∈ entered.flatten ∨ id ∈ c := by
  induction hs with
  | nil => simp
  | cons _ _ ih =>
    rw [ih, Configuration.mem_insertAll, List.flatten_cons, List.mem_append]
    tauto

/-- Every step makes the inactive states fewer. -/
theorem length_le (h : t.WellFormed) (hs : t.Stabilizes c entered c') :
    entered.length ≤ (t.inactive c).length := by
  induction hs with
  | nil => exact Nat.zero_le _
  | cons hn _ ih =>
    have hless := inactive_insertAll_lt h hn
    rw [List.length_cons]
    omega

/-- No order enters anything outside a closed set. -/
theorem subset (hs : t.Stabilizes c entered c') {first : Configuration}
    {r : Set StateId} (hr : t.Closes first r) (hsub : ∀ id ∈ first, id ∈ c)
    (hin : ∀ id ∈ c, id ∈ r) : ∀ id ∈ c', id ∈ r := by
  induction hs with
  | nil => exact hin
  | @cons c c' n entered hn _ ih =>
    obtain ⟨⟨hmem, hactive⟩, hlacks⟩ := mem_unstable.1 hn
    have hnr : n.id ∈ r := hin n.id hactive
    have hmissing : ∀ id ∈ missingChildren n.kind c, id ∈ r := by
      intro id hid
      cases hk : n.kind with
      | atomic => rw [hk] at hid; cases hid
      | final => rw [hk] at hid; cases hid
      | compound children initial actions =>
        rw [hk] at hid hlacks
        have hnone : ∀ x ∈ children, x ∉ c := by simpa [lacksChildren] using hlacks
        rw [List.mem_singleton.1 hid]
        exact hr.initial n hmem hnr children initial actions hk
          fun x hx hxfirst => hnone x hx (hsub x hxfirst)
      | orthogonal children =>
        rw [hk] at hid
        exact hr.regions n hmem hnr children hk id (List.mem_filter.1 hid).1
    refine ih (fun id hid => Configuration.mem_insertAll.2 (.inr (hsub id hid))) ?_
    intro id hid
    rcases Configuration.mem_insertAll.1 hid with hnew | hold
    · exact hmissing id hnew
    · exact hin id hold

/-- Whatever the order, once nothing lacks children the least closed set is active. -/
theorem least (h : t.WellFormed) (hs : t.Stabilizes c entered c') (hstable : t.unstable c' = []) :
    IsLeast {r | t.Closes c r} {id | id ∈ c'} := by
  refine ⟨(hs.fills h (.refl t c)).closes h hstable, ?_⟩
  intro r hr
  exact hs.subset hr (fun _ hid => hid) hr.kept

/-- All orders come to the same. -/
theorem unique (h : t.WellFormed) {entered' : List (List StateId)} {c'' : Configuration}
    (hs : t.Stabilizes c entered c') (hstable : t.unstable c' = [])
    (hs' : t.Stabilizes c entered' c'') (hstable' : t.unstable c'' = []) : c' = c'' := by
  have hsame := (hs.least h hstable).unique (hs'.least h hstable')
  exact Configuration.eq_of_mem_iff fun id => Set.ext_iff.1 hsame id

end Stabilizes

/-! ## The order of the engine -/

theorem stabilizeFor_stabilizes (data : Json) (fuel : Nat) (run : Run C) :
    t.Stabilizes run.configuration ((t.stabilizeFor data fuel run).1.map Microstep.entered)
        (t.stabilizeFor data fuel run).2.configuration ∧
      ∀ m ∈ (t.stabilizeFor data fuel run).1, m.exited = [] := by
  induction fuel generalizing run with
  | zero => exact ⟨.nil, fun m hm => by cases hm⟩
  | succ fuel ih =>
    simp only [stabilizeFor]
    split
    · exact ⟨.nil, fun m hm => by cases hm⟩
    · rename_i n p hp
      obtain ⟨hn, rfl⟩ := planStabilization_eq_some hp
      let cause : Cause := ⟨"initial " ++ n.id.text, data, .stabilization⟩
      let step := t.apply { entered := missingChildren n.kind run.configuration }
        n.kind.initialActions cause run
      have hstep : step.2.configuration =
          run.configuration.insertAll (missingChildren n.kind run.configuration) :=
        apply_configuration _ _ _ _
      obtain ⟨hrest, hexited⟩ := ih step.2
      rw [hstep] at hrest
      exact ⟨.cons hn hrest, List.forall_mem_cons.2 ⟨rfl, hexited⟩⟩

theorem stabilize_stabilizes (data : Json) (run : Run C) :
    t.Stabilizes run.configuration ((t.stabilize data run).1.map Microstep.entered)
      (t.stabilize data run).2.configuration :=
  (stabilizeFor_stabilizes data t.size run).1

theorem stabilizeFor_succ (h : t.WellFormed) (data : Json) {fuel : Nat} {run : Run C}
    (hfuel : (t.inactive run.configuration).length ≤ fuel) :
    t.stabilizeFor data (fuel + 1) run = t.stabilizeFor data fuel run := by
  induction fuel generalizing run with
  | zero =>
    have hnone : t.planStabilization run.configuration = none := by
      cases hp : t.planStabilization run.configuration with
      | none => rfl
      | some np => have := inactive_lt h hp; omega
    simp only [stabilizeFor, hnone]
  | succ fuel ih =>
    rw [stabilizeFor, stabilizeFor]
    cases hp : t.planStabilization run.configuration with
    | none => rfl
    | some np =>
      obtain ⟨n, p⟩ := np
      have hless := inactive_lt h hp
      simp only
      rw [ih (by rw [apply_configuration]; omega)]

/-- The loop ends by itself: given more steps than there are inactive states, it takes no more. -/
theorem stabilizeFor_eq (h : t.WellFormed) (data : Json) {fuel : Nat} {run : Run C}
    (hfuel : (t.inactive run.configuration).length ≤ fuel) :
    t.stabilizeFor data fuel run = t.stabilize data run := by
  have enough : ∀ fuel, (t.inactive run.configuration).length ≤ fuel →
      t.stabilizeFor data fuel run =
        t.stabilizeFor data (t.inactive run.configuration).length run := by
    intro fuel hfuel
    induction fuel, hfuel using Nat.le_induction with
    | base => rfl
    | succ fuel hfuel ih => rw [stabilizeFor_succ h data hfuel, ih]
  have hsize : (t.inactive run.configuration).length ≤ t.size := by
    have hle := List.length_filter_le (fun id => !run.configuration.contains id) t.ids
    simpa [inactive, size, ids] using hle
  rw [stabilize, enough fuel hfuel, enough t.size hsize]

/-- Stabilization ends, in whichever order states are given the children that they lack, and in all
orders with the same states active: those of the least closed set. The steps leave no state, enter
each new one once, after its parent, and are no more than there were inactive states. A second
stabilization does nothing. -/
theorem stabilize_closure {d : NodeDef C} (hb : Tree.build d = .ok t) (data : Json) (run : Run C) :
    ∃ ms run', t.stabilize data run = (ms, run') ∧
      (∀ fuel, (t.inactive run.configuration).length ≤ fuel →
        t.stabilizeFor data fuel run = (ms, run')) ∧
      IsLeast {r | t.Closes run.configuration r} {id | id ∈ run'.configuration} ∧
      (∀ m ∈ ms, m.exited = []) ∧
      InOrder run.configuration (ms.flatMap Microstep.entered) ∧
      (∀ id, id ∈ ms.flatMap Microstep.entered ↔
        id ∈ run'.configuration ∧ id ∉ run.configuration) ∧
      ms.length ≤ (t.inactive run.configuration).length ∧
      t.unstable run'.configuration = [] ∧
      (∀ data', t.stabilize data' run' = ([], run')) ∧
      ∀ entered c', t.Stabilizes run.configuration entered c' →
        entered.length ≤ (t.inactive run.configuration).length ∧
          (t.unstable c' = [] → c' = run'.configuration) := by
  have h := build_wellFormed hb
  have hstable := unstable_stabilize h data run
  have hs := stabilize_stabilizes (t := t) data run
  have hflat : ((t.stabilize data run).1.map Microstep.entered).flatten =
      (t.stabilize data run).1.flatMap Microstep.entered := List.flatMap_def.symm
  have horder := hs.inOrder h
  have hlength := hs.length_le h
  rw [List.length_map] at hlength
  refine ⟨(t.stabilize data run).1, (t.stabilize data run).2, rfl,
    fun fuel hfuel => stabilizeFor_eq h data hfuel, hs.least h hstable,
    (stabilizeFor_stabilizes data t.size run).2, hflat ▸ horder, fun id => ?entered, hlength,
    hstable, fun data' => stabilize_settled data' hstable, fun entered c' hs' => ?orders⟩
  case entered =>
    rw [← hflat, hs.mem_iff]
    have hout := horder.inactive id
    tauto
  case orders =>
    exact ⟨hs'.length_le h, fun hstable' => hs'.unique h hstable' hs hstable⟩

end Tree

/-- The two regions of `crossing` with nothing between the root and a state of the second one. -/
def crossingTorn : Run Nat :=
  { Run.new 0 with configuration := .ofList [⟨["m"]⟩, ⟨["m", "r", "y"]⟩] }

/-- Both regions are entered. The second one has an active child already, so its initial child stays
outside. -/
theorem crossing_closure :
    Tree.build crossing = .ok crossingTree ∧ ¬ crossingTree.Legal crossingTorn.configuration ∧
      ∃ ms run', crossingTree.stabilize .null crossingTorn = (ms, run') ∧
        ms.map Microstep.entered = [[⟨["m", "l"]⟩, ⟨["m", "r"]⟩], [⟨["m", "l", "a"]⟩]] ∧
        run'.configuration.ids =
          [⟨["m"]⟩, ⟨["m", "l"]⟩, ⟨["m", "l", "a"]⟩, ⟨["m", "r"]⟩, ⟨["m", "r", "y"]⟩] ∧
        IsLeast {r | crossingTree.Closes crossingTorn.configuration r}
          {id | id ∈ run'.configuration} ∧
        crossingTree.unstable run'.configuration = [] := by
  have hbuild : Tree.build crossing = .ok crossingTree := rfl
  obtain ⟨ms, run', hresult, -, hleast, -, -, -, -, hstable, -⟩ :=
    Tree.stabilize_closure hbuild .null crossingTorn
  obtain rfl : _ = ms := congrArg Prod.fst hresult
  obtain rfl : _ = run' := congrArg Prod.snd hresult
  exact ⟨hbuild, by decide, _, _, rfl, rfl, rfl, hleast, hstable⟩

end Statechart
