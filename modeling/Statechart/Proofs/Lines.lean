import Statechart.Proofs.Calls
import Statechart.Proofs.Squeezing
import Statechart.Session

/-!
# Statechart.Proofs.Lines

The line of a session that sends an event with data. It is cut into words, and the data are put
together from them again, so that they are read with single spaces.

* `Text.dropBlank_of_trim`: texts without white space around them.
* `SessionCommand.ofLine?_send`: the command that such a line gives.
* `Session.answer_send`: what a session does with it.
* `Session.answer_send_exactly`: which data are sent, and when they are those that were written.
-/

namespace Statechart

open Text

namespace Text

/-- A text without white space around it begins with a word, if it is not empty. -/
theorem dropBlank_of_trim {text : String} (h : trim text = text) :
    dropBlank text.toList = text.toList := by
  have hchars : trimChars text.toList = text.toList := by
    rw [trim] at h
    have hlist := congrArg String.toList h
    rwa [String.toList_ofList] at hlist
  have hfirst : (trimChars text.toList).length ≤ (dropBlank text.toList).length := by
    rw [trimChars, List.length_reverse]
    exact (List.dropWhile_suffix isBlank).length_le.trans (Nat.le_of_eq (List.length_reverse ..))
  rw [hchars] at hfirst
  exact (List.dropWhile_suffix isBlank).eq_of_length_le hfirst

end Text

section Words

variable {event text : String}

theorem words_send (hne : event ≠ "") (hsolid : ∀ c ∈ event.toList, isBlank c = false)
    (text : String) : words ("send " ++ event ++ " " ++ text) = "send" :: event :: words text := by
  have hchars : ("send " ++ event ++ " " ++ text).toList =
      ['s', 'e', 'n', 'd'] ++ ' ' :: (event.toList ++ ' ' :: text.toList) := by
    simp
  have hevent : event.toList ≠ [] := by simpa using hne
  rw [words, hchars, wordsOfChars_append (by decide) (solid_of_all (by decide +kernel)),
    wordsOfChars_append hevent hsolid, List.map_cons, List.map_cons, String.ofList_toList]
  rfl

theorem exists_words (hne : text ≠ "") (htrim : trim text = text) :
    ∃ first others, words text = first :: others := by
  have hdrop := dropBlank_of_trim htrim
  have hchars : dropBlank text.toList ≠ [] := by
    rw [hdrop]
    simpa using hne
  obtain ⟨first, others, hwords⟩ := exists_wordsOfChars (startsWord_dropBlank hchars)
  rw [wordsOfChars_dropBlank] at hwords
  exact ⟨_, _, by rw [words, hwords, List.map_cons]⟩

end Words

/-! ## Lines -/

theorem SessionCommand.ofLine?_send {event : String} (hne : event ≠ "")
    (hsolid : ∀ c ∈ event.toList, isBlank c = false) (text : String) :
    ofLine? ("send " ++ event ++ " " ++ text) = some (ofSendWords (event :: words text)) := by
  have hlower : toLower "send" = "send" := by decide +kernel
  rw [ofLine?, words_send hne hsolid]
  simp only [ofWords, hlower]

namespace Session

variable {event text : String}

/-- Without data, null is sent. -/
theorem answer_send_nothing (files : Files) (i : Instance Json) (hne : event ≠ "")
    (hsolid : ∀ c ∈ event.toList, isBlank c = false) :
    answer files i ("send " ++ event ++ " " ++ "") = sendEvent i event .null := by
  rw [answer, SessionCommand.ofLine?_send hne hsolid]
  rfl

theorem sendEvent_snd (i : Instance Json) (event : String) (data : Json) :
    (sendEvent i event data).2 = (i.send (.named event data)).2 := by
  rw [sendEvent]
  rcases i.send (.named event data) with ⟨_ | _, j⟩ <;> rfl

theorem value_inline (files : Files) (text : String) :
    (Argument.inline text).value files =
      match Json.parse? text with
      | some v => .ok v.dedup
      | none => .error .notJson := by
  rw [Argument.value, Argument.text]
  cases htext : Json.parse? text <;> simp [bind, Except.bind, pure, Except.pure, htext]

/-- The words of a text begin as the text does. -/
theorem head?_words (hdrop : dropBlank text.toList = text.toList)
    (hmark : text.toList.head? ≠ some Argument.fileMark) :
    (" ".intercalate (words text)).toList.head? ≠ some Argument.fileMark := by
  rw [intercalate_words, String.toList_ofList, hdrop]
  intro hhead
  obtain ⟨tail, htail⟩ := List.head?_eq_some_iff.1 hhead
  obtain ⟨rest, hrest, -⟩ := (squeeze_eq_cons rfl).1 htail
  exact hmark (by rw [hrest]; rfl)

/-- What is sent is read from the words, with single spaces between them. -/
theorem answer_send (files : Files) (i : Instance Json) (hne : event ≠ "")
    (hsolid : ∀ c ∈ event.toList, isBlank c = false) (htext : text ≠ "")
    (htrim : trim text = text) (hmark : text.toList.head? ≠ some Argument.fileMark) :
    answer files i ("send " ++ event ++ " " ++ text) =
      match Json.parse? (" ".intercalate (words text)) with
      | some v => sendEvent i event v.dedup
      | none => (.failure .notJson, i) := by
  obtain ⟨first, others, hwords⟩ := exists_words htext htrim
  have hinline := Argument.ofText_eq_inline (head?_words (dropBlank_of_trim htrim) hmark)
  rw [answer, SessionCommand.ofLine?_send hne hsolid, hwords]
  dsimp only [SessionCommand.ofSendWords, perform, send, sentData]
  rw [← hwords, hinline, value_inline]
  cases Json.parse? (" ".intercalate (words text)) <;> rfl

/-- What the line `send event text` does, for a text without white space around it that is not the
path of a file. The data are read from the words of the text, with single spaces between them. They
are what the text says if single spaces keep its meaning. Every text that is read leads to data that
are sent, and these are read as the text is exactly if single spaces keep its meaning. -/
theorem answer_send_exactly (files : Files) (i : Instance Json) (hne : event ≠ "")
    (hsolid : ∀ c ∈ event.toList, isBlank c = false) (htrim : trim text = text)
    (hmark : text.toList.head? ≠ some Argument.fileMark) :
    let answered := answer files i ("send " ++ event ++ " " ++ text)
    let single := " ".intercalate (words text)
    (text = "" → answered = sendEvent i event .null) ∧
      (text ≠ "" → Json.Kept text →
        (∀ v, Json.parse? text = some v → answered = sendEvent i event v.dedup) ∧
        (Json.parse? text = none → answered = (.failure .notJson, i))) ∧
      (text ≠ "" →
        (∀ v, Json.parse? single = some v → answered = sendEvent i event v.dedup) ∧
        (Json.parse? single = none → answered = (.failure .notJson, i))) ∧
      ∀ v, Json.parse? text = some v →
        ∃ v', Json.parse? single = some v' ∧ (Json.Kept text ↔ v' = v) := by
  intro answered single
  have hsingle : single = String.ofList (squeeze text.toList) := by
    rw [← dropBlank_of_trim htrim]
    exact intercalate_words text
  have hanswered : text ≠ "" → answered = match Json.parse? single with
      | some v => sendEvent i event v.dedup
      | none => (.failure .notJson, i) :=
    fun htext => answer_send files i hne hsolid htext htrim hmark
  refine ⟨?_, fun htext hkept => ?_, fun htext => ?_, fun v hv => ?_⟩
  · rintro rfl
    exact answer_send_nothing files i hne hsolid
  · rw [hanswered htext, hsingle, Json.parse?_squeeze_of_kept hkept]
    exact ⟨fun v hv => by rw [hv], fun hnone => by rw [hnone]⟩
  · rw [hanswered htext]
    exact ⟨fun v hv => by rw [hv], fun hnone => by rw [hnone]⟩
  · rw [hsingle]
    exact Json.parse?_squeeze hv

end Session

/-! A desk that keeps the last note. -/

def deskTree : Tree Json where
  root := ⟨⟨["desk"]⟩, .compound [⟨["desk", "open"]⟩] ⟨["desk", "open"]⟩ [], [], [], [], []⟩
  rest := [
    ⟨⟨["desk", "open"]⟩, .atomic, [], [],
      [.taken (.named "note") none [] [(ActionSpec.assignEvent (some "text")).toAction]], []⟩]

def desk : Instance Json where
  engine := ⟨deskTree, {}⟩
  run := { context := .null, configuration := .ofList [⟨["desk"]⟩, ⟨["desk", "open"]⟩] }
  activities := { attached := true }
  status := .active

/-- The desk with a note. -/
def desk.noted (note : Json) : Instance Json :=
  { desk with run := { desk.run with context := .obj [("text", note)] } }

theorem desk_keeps (note : Json) : (Session.sendEvent desk "note" note).2 = desk.noted note := by
  have hrounds : Engine.Rounds ⟨deskTree, {}⟩
      { desk.run with queue := ⟨[], [], [.named "note" note]⟩ } _ (desk.noted note).run :=
    .next .none rfl rfl rfl
  have hdrain : (desk.queueing (.named "note" note)).engine.drain
      (desk.queueing (.named "note" note)).run = _ := hrounds.drain_quiescent rfl
  calc (Session.sendEvent desk "note" note).2
      = (desk.acceptCall (.named "note" note)).2 := Session.sendEvent_snd _ _ _
    _ = (desk.queueing (.named "note" note)).drain.2 := desk.acceptCall_snd _
    _ = desk.noted note := by rw [Instance.drain, hdrain]; rfl

/-- A text with a tab between its tokens is read as it is. -/
theorem desk_noted :
    Json.Kept "[\"a b\",\t1]" ∧
      Session.answer (fun _ => none) desk ("send " ++ "note" ++ " " ++ "[\"a b\",\t1]") =
        Session.sendEvent desk "note" (.arr [.str "a b", .int 1]) := by
  have hkept : Json.Kept "[\"a b\",\t1]" := by decide +kernel
  have hread : Json.parse? "[\"a b\",\t1]" = some (.arr [.str "a b", .int 1]) := rfl
  have hsolid : ∀ c ∈ "note".toList, isBlank c = false :=
    solid_of_all (by decide +kernel)
  have htrim : trim "[\"a b\",\t1]" = "[\"a b\",\t1]" := by decide +kernel
  obtain ⟨-, hsend, -⟩ :=
    Session.answer_send_exactly (fun _ => none) desk (by decide) hsolid htrim (by decide)
  exact ⟨hkept, (hsend (by decide) hkept).1 _ hread⟩

theorem desk_noted_inj {v w : Json} (h : desk.noted v = desk.noted w) : v = w := by
  have hcontext := congrArg (fun i => i.run.context) h
  exact (Prod.mk.inj (List.cons.inj (Json.obj.inj hcontext)).1).2

/-- Of two spaces in a string, one is lost, and a tab that no string may hold becomes a space. -/
theorem desk_spaces_lost :
    Json.parse? "\"a  b\"" = some (.str "a  b") ∧
      Session.answer (fun _ => none) desk ("send " ++ "note" ++ " " ++ "\"a  b\"") =
        Session.sendEvent desk "note" (.str "a b") ∧
      Session.answer (fun _ => none) desk ("send " ++ "note" ++ " " ++ "\"a  b\"") ≠
        Session.sendEvent desk "note" (.str "a  b") ∧
      Json.parse? "\"a\tb\"" = none ∧
      Session.answer (fun _ => none) desk ("send " ++ "note" ++ " " ++ "\"a\tb\"") =
        Session.sendEvent desk "note" (.str "a b") := by
  have hsolid : ∀ c ∈ "note".toList, isBlank c = false :=
    solid_of_all (by decide +kernel)
  have hspaces : " ".intercalate (words "\"a  b\"") = "\"a b\"" := by decide +kernel
  have htab : " ".intercalate (words "\"a\tb\"") = "\"a b\"" := by decide +kernel
  have hread : Json.parse? "\"a b\"" = some (.str "a b") := rfl
  have hsent := Session.answer_send (fun _ => none) desk (by decide) hsolid (by decide)
    (by decide +kernel : trim "\"a  b\"" = "\"a  b\"") (by decide)
  rw [hspaces, hread] at hsent
  refine ⟨rfl, hsent, fun hsame => ?_, rfl, ?_⟩
  · rw [hsent] at hsame
    have hdesks := congrArg Prod.snd hsame
    rw [desk_keeps, desk_keeps] at hdesks
    exact absurd (Json.str.inj (desk_noted_inj hdesks)) (by decide)
  · rw [Session.answer_send _ _ (by decide) hsolid (by decide) (by decide +kernel) (by decide),
      htab, hread]
    rfl

end Statechart
