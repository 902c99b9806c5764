import Mathlib.Data.List.DropRight
import Statechart.Proofs.Atomicity
import Statechart.Proofs.Rounds

/-!
# Statechart.Proofs.Bands

The queue as a single list of entries, the oldest first. Whatever is done to a queue, and in
whichever order, its bands are the entries of such a list sorted by band, so it answers as the list
does, which gives away the oldest entry of the lowest band.

* `Serves`, `Records`: operations on a list of entries, one at a time and in a row.
* `EventQueue.Sorts`: the bands are those of the entries of a list.
* `Records.balance`: nothing is lost or made up between two clearings.
* `EventQueue.performAll_records`: the queue and the list give the same answers.
-/

namespace Statechart

/-- The number of a band. What waits in the lowest band is taken first. -/
def Priority.number : Priority → Nat
  | .stabilization => 1
  | .currentMacrostep => 2
  | .nextMacrostep => 3

theorem Priority.number_inj {a b : Priority} (h : a.number = b.number) : a = b := by
  cases a <;> cases b <;> first | rfl | cases h

/-- A waiting event with its band. -/
abbrev Entry :=
  Event × Priority

/-- What is done to a queue. -/
inductive QueueOperation where
  | enqueue (event : Event) (band : Priority)
  | dequeue
  | clear

/-- Operations in the order in which they were carried out, each with its answer. Only taking an
entry answers something. -/
abbrev QueueHistory :=
  List (QueueOperation × Option Entry)

namespace QueueHistory

/-- What was done since the queue was cleared the last time. -/
def sinceClear (h : QueueHistory) : QueueHistory :=
  h.rtakeWhile fun step =>
    match step.1 with
    | .clear => false
    | _ => true

def enqueued (h : QueueHistory) : List Entry :=
  h.filterMap fun step =>
    match step.1 with
    | .enqueue event band => some (event, band)
    | _ => none

def dequeued (h : QueueHistory) : List Entry :=
  h.filterMap Prod.snd

theorem sinceClear_concat (h : QueueHistory) {op : QueueOperation} (answer : Option Entry)
    (hop : op ≠ .clear) : sinceClear (h ++ [(op, answer)]) = h.sinceClear ++ [(op, answer)] := by
  cases op with
  | clear => exact absurd rfl hop
  | _ => simp [sinceClear]

theorem sinceClear_clear (h : QueueHistory) (answer : Option Entry) :
    sinceClear (h ++ [(.clear, answer)]) = [] := by
  simp [sinceClear]

end QueueHistory

/-! ## The list -/

/-- What an operation answers and leaves of a list of entries, the oldest first. An entry is taken
if no older one is in its band or a lower one, and no younger one in a lower band. -/
inductive Serves : List Entry → QueueOperation → Option Entry → List Entry → Prop where
  | enqueue {waiting : List Entry} (event : Event) (band : Priority) :
      Serves waiting (.enqueue event band) none (waiting ++ [(event, band)])
  | dequeue {before after : List Entry} {entry : Entry} :
      (∀ w ∈ before, entry.2.number < w.2.number) → (∀ w ∈ after, entry.2.number ≤ w.2.number) →
      Serves (before ++ entry :: after) .dequeue (some entry) (before ++ after)
  | exhausted : Serves [] .dequeue none []
  | clear {waiting : List Entry} : Serves waiting .clear none []

/-- A history of an empty list, with the entries that wait at its end. -/
inductive Records : QueueHistory → List Entry → Prop where
  | nil : Records [] []
  | concat {h : QueueHistory} {waiting waiting' : List Entry} {op : QueueOperation}
      {answer : Option Entry} :
      Records h waiting → Serves waiting op answer waiting' →
      Records (h ++ [(op, answer)]) waiting'

/-- Only one entry of a list can be taken. -/
theorem Serves.dequeue_unique {before after before' after' : List Entry} {entry entry' : Entry}
    (hsame : before ++ entry :: after = before' ++ entry' :: after')
    (hbefore : ∀ w ∈ before, entry.2.number < w.2.number)
    (hafter : ∀ w ∈ after, entry.2.number ≤ w.2.number)
    (hbefore' : ∀ w ∈ before', entry'.2.number < w.2.number)
    (hafter' : ∀ w ∈ after', entry'.2.number ≤ w.2.number) :
    before = before' ∧ entry = entry' ∧ after = after' := by
  rcases List.append_eq_append_iff.1 hsame with ⟨own, rfl, hrest⟩ | ⟨own, rfl, hrest⟩
  · cases own with
    | nil =>
      obtain ⟨rfl, rfl⟩ := List.cons_eq_cons.1 hrest
      exact ⟨(List.append_nil before).symm, rfl, rfl⟩
    | cons first own =>
      obtain ⟨rfl, rfl⟩ := List.cons_eq_cons.1 hrest
      have hlower := hbefore' entry (by simp)
      have hleast := hafter entry' (by simp)
      omega
  · cases own with
    | nil =>
      obtain ⟨rfl, rfl⟩ := List.cons_eq_cons.1 hrest
      exact ⟨List.append_nil before', rfl, rfl⟩
    | cons first own =>
      obtain ⟨rfl, rfl⟩ := List.cons_eq_cons.1 hrest
      have hlower := hbefore entry' (by simp)
      have hleast := hafter' entry (by simp)
      omega

theorem Serves.unique {waiting left left' : List Entry} {op : QueueOperation}
    {answer answer' : Option Entry} (h : Serves waiting op answer left)
    (h' : Serves waiting op answer' left') : answer = answer' ∧ left = left' := by
  cases h with
  | enqueue event band => cases h'; exact ⟨rfl, rfl⟩
  | @dequeue before after entry hbefore hafter =>
    generalize hw : before ++ entry :: after = all at h'
    cases h' with
    | dequeue hbefore' hafter' =>
      obtain ⟨rfl, rfl, rfl⟩ := Serves.dequeue_unique hw hbefore hafter hbefore' hafter'
      exact ⟨rfl, rfl⟩
    | exhausted => simp at hw
  | exhausted =>
    generalize hw : ([] : List Entry) = all at h'
    cases h' with
    | dequeue _ _ => simp at hw
    | exhausted => exact ⟨rfl, rfl⟩
  | clear => cases h'; exact ⟨rfl, rfl⟩

namespace Records

variable {h h' : QueueHistory} {waiting waiting' : List Entry}

/-- The operations alone decide the answers. -/
theorem unique (hr : Records h waiting) (hr' : Records h' waiting')
    (hops : h.map Prod.fst = h'.map Prod.fst) : h = h' ∧ waiting = waiting' := by
  induction hr generalizing h' waiting' with
  | nil =>
    cases hr' with
    | nil => exact ⟨rfl, rfl⟩
    | concat _ _ => simp at hops
  | concat _ hserves ih =>
    cases hr' with
    | nil => simp at hops
    | concat hr' hserves' =>
      simp only [List.map_append, List.map_cons, List.map_nil] at hops
      obtain ⟨hearlier, hop⟩ := List.append_inj' hops rfl
      obtain rfl := List.singleton_inj.1 hop
      obtain ⟨rfl, rfl⟩ := ih hr' hearlier
      obtain ⟨rfl, rfl⟩ := hserves.unique hserves'
      exact ⟨rfl, rfl⟩

/-- What was put in since the last clearing has been taken out or waits. -/
theorem balance (hr : Records h waiting) :
    (h.sinceClear.dequeued ++ waiting).Perm h.sinceClear.enqueued := by
  induction hr with
  | nil => exact .refl _
  | @concat h waiting waiting' op answer _ hserves ih =>
    cases hserves with
    | enqueue event band =>
      rw [QueueHistory.sinceClear_concat h none (by simp)]
      simpa [QueueHistory.dequeued, QueueHistory.enqueued] using ih.append_right [(event, band)]
    | @dequeue before after entry _ _ =>
      rw [QueueHistory.sinceClear_concat h (some entry) (by simp)]
      have hfront : (h.sinceClear.dequeued ++ entry :: (before ++ after)).Perm
          (h.sinceClear.dequeued ++ (before ++ entry :: after)) :=
        List.perm_middle.symm.append_left _
      simpa [QueueHistory.dequeued, QueueHistory.enqueued] using hfront.trans ih
    | exhausted =>
      rw [QueueHistory.sinceClear_concat h none (by simp)]
      simpa [QueueHistory.dequeued, QueueHistory.enqueued] using ih
    | clear =>
      rw [QueueHistory.sinceClear_clear]
      exact .refl _

end Records

/-! ## The queue -/

namespace EventQueue

variable {q : EventQueue} {waiting : List Entry}

/-- Carries out an operation: its answer, and the queue after it. -/
def perform (q : EventQueue) : QueueOperation → Option Entry × EventQueue
  | .enqueue event band => (none, q.enqueue event band)
  | .dequeue =>
    match q.dequeue? with
    | some (entry, q) => (some entry, q)
    | none => (none, q)
  | .clear => (none, q.clear)

/-- Carries out operations on a queue that is empty at first. -/
def performAll (ops : List QueueOperation) : QueueHistory × EventQueue :=
  ops.foldl (fun (h, q) op => (h ++ [(op, (q.perform op).1)], (q.perform op).2)) ([], empty)

theorem performAll_concat (ops : List QueueOperation) (op : QueueOperation) :
    performAll (ops ++ [op]) =
      ((performAll ops).1 ++ [(op, ((performAll ops).2.perform op).1)],
        ((performAll ops).2.perform op).2) := by
  rw [performAll, List.foldl_append]
  rfl

/-- Do the bands of the queue hold the entries of the list, each band in their order? -/
def Sorts (q : EventQueue) (waiting : List Entry) : Prop :=
  ∀ band, q.band band = (waiting.filter (·.2 = band)).map Prod.fst

/-- The event that is taken is the first of its band, and the lower bands are empty. -/
theorem band_of_dequeue? {event : Event} {taken : Priority} {r : EventQueue}
    (h : q.dequeue? = some ((event, taken), r)) :
    q.band taken = event :: r.band taken ∧
      (∀ band, band.number < taken.number → q.band band = []) ∧
      ∀ band, band ≠ taken → r.band band = q.band band := by
  rcases q with ⟨_ | ⟨e, es⟩, _ | ⟨f, fs⟩, _ | ⟨g, gs⟩⟩ <;> cases h <;>
    refine ⟨rfl, fun band hlower => ?_, fun band hne => ?_⟩ <;> cases band <;>
    first
      | rfl
      | exact absurd rfl hne
      | exact absurd hlower (by decide)

theorem Sorts.enqueue (hs : q.Sorts waiting) (event : Event) (band : Priority) :
    (q.enqueue event band).Sorts (waiting ++ [(event, band)]) := by
  intro p
  rw [band_enqueue, hs p, List.filter_append, List.map_append]
  by_cases hp : band = p <;> simp [hp]

/-- Nothing waits in a band that is empty. -/
theorem Sorts.band_eq_nil (hs : q.Sorts waiting) {band : Priority} (h : q.band band = []) :
    ∀ w ∈ waiting, w.2 ≠ band := by
  rw [hs band, List.map_eq_nil_iff, List.filter_eq_nil_iff] at h
  simpa using h

theorem Sorts.dequeue (hs : q.Sorts waiting) {event : Event} {taken : Priority} {r : EventQueue}
    (h : q.dequeue? = some ((event, taken), r)) :
    ∃ left, Serves waiting .dequeue (some (event, taken)) left ∧ r.Sorts left := by
  obtain ⟨hfirst, hlower, hothers⟩ := band_of_dequeue? h
  have hleast : ∀ w ∈ waiting, taken.number ≤ w.2.number := fun w hw =>
    Nat.le_of_not_lt fun hlt => hs.band_eq_nil (hlower w.2 hlt) w hw rfl
  rw [hs taken] at hfirst
  obtain ⟨⟨event', taken'⟩, rest, hfilter, rfl, hrest⟩ := List.map_eq_cons_iff.1 hfirst
  obtain ⟨before, after, rfl, hbefore, htaken, rfl⟩ := List.filter_eq_cons_iff.1 hfilter
  obtain rfl : taken' = taken := by simpa using htaken
  have hnone : ∀ w ∈ before, w.2 ≠ taken' := fun w hw => by simpa using hbefore w hw
  refine ⟨before ++ after, .dequeue (fun w hw => ?_) fun w hw => hleast w (by simp [hw]), ?_⟩
  · have hle := hleast w (List.mem_append_left _ hw)
    exact Nat.lt_of_le_of_ne hle fun hsame => hnone w hw (Priority.number_inj hsame).symm
  · intro band
    by_cases hband : band = taken'
    · subst hband
      rw [← hrest, List.filter_append, List.filter_eq_nil_iff.2 hbefore, List.nil_append]
    · have hne : ¬ taken' = band := fun hsame => hband hsame.symm
      rw [hothers band hband, hs band]
      simp [hne]

theorem sorts_empty : empty.Sorts [] := by
  intro band
  cases band <;> rfl

/-- Whatever is done to the queue, the list answers the same. -/
theorem Sorts.perform (hs : q.Sorts waiting) (op : QueueOperation) :
    ∃ left, Serves waiting op (q.perform op).1 left ∧ (q.perform op).2.Sorts left := by
  cases op with
  | enqueue event band => exact ⟨_, .enqueue event band, hs.enqueue event band⟩
  | dequeue =>
    cases h : q.dequeue? with
    | none =>
      have hnil : waiting = [] := by
        refine List.eq_nil_iff_forall_not_mem.2 fun w hw => ?_
        refine hs.band_eq_nil ?_ w hw rfl
        rw [eq_empty_of_dequeue? h]
        cases w.2 <;> rfl
      subst hnil
      simp only [EventQueue.perform, h]
      exact ⟨[], .exhausted, hs⟩
    | some found =>
      obtain ⟨⟨event, taken⟩, r⟩ := found
      simp only [EventQueue.perform, h]
      exact hs.dequeue h
  | clear => exact ⟨[], .clear, sorts_empty⟩

theorem exists_records (ops : List QueueOperation) :
    ∃ waiting, Records (performAll ops).1 waiting ∧ (performAll ops).2.Sorts waiting := by
  induction ops using List.reverseRecOn with
  | nil => exact ⟨[], .nil, sorts_empty⟩
  | append_singleton ops op ih =>
    obtain ⟨waiting, hrecords, hsorts⟩ := ih
    obtain ⟨left, hserves, hleft⟩ := hsorts.perform op
    rw [performAll_concat]
    exact ⟨left, hrecords.concat hserves, hleft⟩

theorem performAll_operations (ops : List QueueOperation) :
    (performAll ops).1.map Prod.fst = ops := by
  induction ops using List.reverseRecOn with
  | nil => rfl
  | append_singleton ops op ih => simp [performAll_concat, ih]

theorem Sorts.size (hs : q.Sorts waiting) : q.size = waiting.length := by
  have hbands : q.size = (q.band .stabilization).length + (q.band .currentMacrostep).length +
      (q.band .nextMacrostep).length := rfl
  rw [hbands]
  simp only [hs _, List.length_map]
  clear hs hbands
  induction waiting with
  | nil => rfl
  | cons w rest ih =>
    obtain ⟨event, band⟩ := w
    cases band <;> simp <;> omega

theorem Sorts.contains (hs : q.Sorts waiting) (event : Event) (band : Priority) :
    q.contains event band = waiting.any fun w => w.2 = band && event == w.1 := by
  rw [EventQueue.contains, hs band, List.contains_eq_any_beq, List.any_map, List.any_filter]
  rfl

/-- A queue answers any operations, in any order, as a list of entries does that gives away the
oldest entry of the lowest band, and no list answers them otherwise. Since the last clearing, what
was taken and what waits are what was put in. The sizes and `contains` tell of what waits. -/
theorem performAll_records (ops : List QueueOperation) :
    (performAll ops).1.map Prod.fst = ops ∧
      ∃ waiting, Records (performAll ops).1 waiting ∧
        (∀ h waiting', Records h waiting' → h.map Prod.fst = ops →
          h = (performAll ops).1 ∧ waiting' = waiting) ∧
        ((performAll ops).1.sinceClear.dequeued ++ waiting).Perm
          (performAll ops).1.sinceClear.enqueued ∧
        (performAll ops).2.size = waiting.length ∧
        (performAll ops).2.isEmpty = waiting.isEmpty ∧
        (∀ band, (performAll ops).2.bandSize band = (waiting.filter (·.2 = band)).length) ∧
        ∀ event band, (performAll ops).2.contains event band =
          waiting.any fun w => w.2 = band && event == w.1 := by
  obtain ⟨waiting, hrecords, hsorts⟩ := exists_records ops
  have hops := performAll_operations ops
  refine ⟨hops, waiting, hrecords, fun h waiting' hr hops' => ?unique, hrecords.balance,
    hsorts.size, ?empty, fun band => ?bands, hsorts.contains⟩
  case unique => exact hr.unique hrecords (hops'.trans hops.symm)
  case empty =>
    have hsize := hsorts.size
    rw [Bool.eq_iff_iff, List.isEmpty_iff_length_eq_zero, ← hsize]
    simp [EventQueue.isEmpty, EventQueue.size, and_assoc]
  case bands => rw [bandSize, hsorts band, List.length_map]

end EventQueue

end Statechart
