import Statechart.Proofs.Spacing

/-!
# Statechart.Proofs.Squeezing

JSON texts with single spaces. A text that is read is read with single spaces too, and as the same
value exactly if it keeps its meaning; if it keeps its meaning, it is refused with single spaces if
it is refused.

* `Json.StringReads`: what strings are read as, character by character.
* `Json.Agrees`: a reader on a text, and on the text with single spaces.
* `Json.value_agrees`: values, by induction on the levels of arrays and objects.
* `Json.parse?_squeeze`: texts that hold one value.
-/

namespace Statechart.Json

open Text

/-! ## Strings -/

/-- The rest of a string behind its opening quote, the characters it is read as, and what stands
behind it. -/
inductive StringReads : List Char → List Char → List Char → Prop where
  | quote (rest : List Char) : StringReads ('"' :: rest) [] rest
  | escape {cs read rest behind : List Char} {c : Char} :
      Reader.escape cs = some (c, rest) → StringReads rest read behind →
      StringReads ('\\' :: cs) (c :: read) behind
  | char {read rest behind : List Char} {c : Char} :
      c ≠ '"' → c ≠ '\\' → 0x20 ≤ c.toNat → StringReads rest read behind →
      StringReads (c :: rest) (c :: read) behind

theorem stringBody_char {c : Char} (hquote : c ≠ '"') (hslash : c ≠ '\\') (read rest : List Char) :
    stringBody read (c :: rest) =
      if c.toNat < 0x20 then none else stringBody (c :: read) rest := by
  rw [stringBody]
  · exact hquote
  · exact fun _ _ _ _ _ h _ => hslash h
  · exact fun _ _ h _ => hslash h

namespace StringReads

variable {cs read behind : List Char}

theorem suffix (h : StringReads cs read behind) : behind <:+ cs := by
  induction h with
  | quote rest => exact List.suffix_cons _ _
  | escape hc _ ih =>
    exact ih.trans ((Reader.escape_steady.passes _ _ _ hc).1.trans (List.suffix_cons _ _))
  | char _ _ _ _ ih => exact ih.trans (List.suffix_cons _ _)

theorem stringBody_eq (h : StringReads cs read behind) (before : List Char) :
    stringBody before cs = some (String.ofList (before.reverse ++ read), behind) := by
  induction h generalizing before with
  | quote rest => rw [stringBody, List.append_nil]
  | escape hc _ ih =>
    rw [Reader.stringBody_escape, hc, Option.bind_some, ih, List.reverse_cons, List.append_assoc]
    rfl
  | char hquote hslash hlow _ ih =>
    rw [stringBody_char hquote hslash, if_neg (Nat.not_lt.2 hlow), ih, List.reverse_cons,
      List.append_assoc]
    rfl

theorem of_stringBody {before cs behind : List Char} {s : String}
    (h : stringBody before cs = some (s, behind)) :
    ∃ read, s = String.ofList (before.reverse ++ read) ∧ StringReads cs read behind := by
  match cs with
  | [] => cases h
  | c :: rest =>
    by_cases hquote : c = '"'
    · subst hquote
      cases h
      exact ⟨[], by rw [List.append_nil], .quote behind⟩
    by_cases hslash : c = '\\'
    · subst hslash
      rw [Reader.stringBody_escape] at h
      obtain ⟨⟨d, tail⟩, hd, h⟩ := Option.bind_eq_some_iff.1 h
      have hshort := (Reader.escape_steady.passes _ _ _ hd).1.length_le
      obtain ⟨read, rfl, hread⟩ := of_stringBody h
      exact ⟨d :: read, by simp, .escape hd hread⟩
    · rw [stringBody_char hquote hslash] at h
      split at h
      · cases h
      · rename_i hlow
        obtain ⟨read, rfl, hread⟩ := of_stringBody h
        exact ⟨c :: read, by simp, .char hquote hslash (Nat.le_of_not_lt hlow) hread⟩
termination_by cs.length

/-- White space in strings counts: with single spaces, the string is the same if and only if there
are only single spaces in it. -/
theorem squeezed (h : StringReads cs read behind) :
    ∃ single, StringReads (squeeze cs) single (squeeze behind) ∧ single.length ≤ read.length ∧
      (kept .inside cs = true ↔ single = read ∧ kept .outside behind = true) := by
  induction h with
  | quote rest =>
    refine ⟨[], squeeze_cons (c := '"') rfl ▸ .quote _, Nat.le_refl _, ?_⟩
    rw [kept_cons rfl]
    exact (and_iff_right rfl).symm
  | @escape cs read rest behind c hc _ ih =>
    obtain ⟨single, hsingle, hlength, hkept⟩ := ih
    have hsqueeze := Reader.escape_steady.squeezes cs
    rw [hc] at hsqueeze
    refine ⟨c :: single, ?_, Nat.succ_le_succ hlength, ?_⟩
    · rw [squeeze_cons rfl]
      exact .escape hsqueeze hsingle
    · have hnext : kept .inside ('\\' :: cs) = kept .escaped cs := rfl
      rw [hnext, (Reader.escape_steady.passes _ _ _ hc).2, hkept, List.cons.injEq,
        and_iff_right rfl]
  | @char read rest behind c hquote hslash hlow _ ih =>
    obtain ⟨single, hsingle, hlength, hkept⟩ := ih
    have hnext : Place.next .inside c = .inside := by simp [Place.next, hquote, hslash]
    cases hc : isBlank c with
    | false =>
      refine ⟨c :: single, ?_, Nat.succ_le_succ hlength, ?_⟩
      · rw [squeeze_cons hc]
        exact .char hquote hslash hlow hsingle
      · rw [kept_cons hc, hnext, hkept, List.cons.injEq, and_iff_right rfl]
    | true =>
      rw [kept_blank hc, hnext, squeeze_blank hc]
      cases hword : startsWord rest with
      | true =>
        refine ⟨' ' :: single, ?_, Nat.succ_le_succ hlength, ?_⟩
        · exact .char (by decide) (by decide) (by decide) hsingle
        · rw [Place.keeps, hword, Bool.and_true, Bool.and_eq_true, decide_eq_true_iff, hkept,
            List.cons.injEq, and_assoc, @eq_comm _ c]
      | false =>
        refine ⟨single, hsingle, Nat.le_succ_of_le hlength, ?_⟩
        refine iff_of_false (by simp [Place.keeps, hword]) ?_
        rintro ⟨rfl, -⟩
        exact Nat.not_succ_le_self _ hlength

/-- A string that keeps its meaning is a string if it is one with single spaces. -/
theorem of_squeeze {text : List Char} (h : StringReads text read behind) :
    ∀ cs, squeeze cs = text → kept .inside cs = true →
      ∃ read behind, StringReads cs read behind := by
  induction h with
  | quote rest =>
    intro cs hcs _
    obtain ⟨tail, rfl, -⟩ := (squeeze_eq_cons rfl).1 hcs
    exact ⟨[], tail, .quote tail⟩
  | @escape escaped read rest behind c hc _ ih =>
    intro cs hcs hkept
    obtain ⟨tail, rfl, rfl⟩ := (squeeze_eq_cons rfl).1 hcs
    rw [Reader.escape_steady.squeezes] at hc
    obtain ⟨⟨d, after⟩, hd, hafter⟩ := Option.map_eq_some_iff.1 hc
    cases hafter
    have hrest : kept .inside after = true :=
      (Reader.escape_steady.passes _ _ _ hd).2.symm.trans hkept
    obtain ⟨read, behind, hread⟩ := ih after rfl hrest
    exact ⟨_, behind, .escape hd hread⟩
  | @char read rest behind c hquote hslash hlow _ ih =>
    intro cs hcs hkept
    have hnext : Place.next .inside c = .inside := by simp [Place.next, hquote, hslash]
    cases cs with
    | nil => cases hcs
    | cons b tail =>
      cases hb : isBlank b with
      | false =>
        rw [squeeze_cons hb] at hcs
        cases hcs
        rw [kept_cons hb, hnext] at hkept
        obtain ⟨read, behind, hread⟩ := ih tail rfl hkept
        exact ⟨_, behind, .char hquote hslash hlow hread⟩
      | true =>
        rw [kept_blank hb, Place.keeps] at hkept
        simp only [Bool.and_eq_true, decide_eq_true_iff] at hkept
        obtain ⟨⟨rfl, hword⟩, hkept⟩ := hkept
        rw [squeeze_blank hb, if_pos hword] at hcs
        cases hcs
        obtain ⟨read, behind, hread⟩ := ih tail rfl hkept
        exact ⟨_, behind, .char hquote hslash hlow hread⟩

end StringReads

/-! ## Readers on both texts -/

section Agrees

variable {α β γ : Type}

/-- What a reader gives for a text, and what it gives for the text with single spaces. If it reads
the one, it reads the other, and what is left is the same with single spaces. It reads the same
exactly if the text keeps its meaning, up to what is left of it. -/
structure Agrees (p : Place) (cs : List Char) (r r' : Option (α × List Char)) : Prop where
  reads : ∀ a rest, r = some (a, rest) → rest <:+ cs ∧ ∃ a', r' = some (a', squeeze rest) ∧
    (kept p cs = true ↔ a' = a ∧ kept .outside rest = true)
  fails : r = none → kept p cs = true → r' = none

/-- A reader that skips white space in front of something else. -/
structure Skips (k : Reader α) : Prop where
  skips : ∀ cs, k (skipSpace cs) = k cs
  nil : k [] = none
  blank : ∀ c rest, isBlank c = true → isSpace c = false → k (c :: rest) = none

theorem stringBody_agrees (cs : List Char) :
    Agrees .inside cs (stringBody [] cs) (stringBody [] (squeeze cs)) where
  reads s rest h := by
    obtain ⟨read, rfl, hread⟩ := StringReads.of_stringBody h
    obtain ⟨single, hsingle, -, hkept⟩ := hread.squeezed
    refine ⟨hread.suffix, _, hsingle.stringBody_eq [], hkept.trans ?_⟩
    rw [String.ofList_inj, List.reverse_nil, List.nil_append, List.nil_append]
  fails h hkept := by
    refine Option.eq_none_iff_forall_ne_some.2 fun ⟨s, rest⟩ hs => ?_
    obtain ⟨single, -, hsingle⟩ := StringReads.of_stringBody hs
    obtain ⟨read, behind, hread⟩ := hsingle.of_squeeze cs rfl hkept
    cases h.symm.trans (hread.stringBody_eq [])

namespace Agrees

variable {p q : Place} {cs : List Char} {r r' : Option (α × List Char)}

theorem none (cs : List Char) : Agrees p cs (none : Option (α × List Char)) Option.none :=
  ⟨nofun, fun _ _ => rfl⟩

theorem of_steady {r : Reader α} (hr : Reader.Steady p .outside r) (cs : List Char) :
    Agrees p cs (r cs) (r (squeeze cs)) where
  reads a rest h := by
    obtain ⟨hsuffix, hkept⟩ := hr.passes _ _ _ h
    refine ⟨hsuffix, a, ?_, ?_⟩
    · rw [hr.squeezes, h]
      rfl
    · rw [hkept]
      exact (and_iff_right rfl).symm
  fails h _ := by
    rw [hr.squeezes, h]
    rfl

/-- What is taken in front of a text before it is read. -/
theorem behind {tail : List Char} (h : Agrees q tail r r') (hsuffix : tail <:+ cs)
    (hkept : kept p cs = kept q tail) : Agrees p cs r r' where
  reads a rest ha := by
    obtain ⟨hrest, a', ha', hiff⟩ := h.reads a rest ha
    exact ⟨hrest.trans hsuffix, a', ha', hkept ▸ hiff⟩
  fails hr hcs := h.fails hr (hkept ▸ hcs)

theorem cons {c : Char} (h : Agrees q cs r r') (hc : Leads p q c) : Agrees p (c :: cs) r r' :=
  h.behind (List.suffix_cons _ _) hc.kept

theorem map (h : Agrees p cs r r') {f : α → β} (hf : Function.Injective f) :
    Agrees p cs (r.map fun x => (f x.1, x.2)) (r'.map fun x => (f x.1, x.2)) where
  reads b rest hb := by
    obtain ⟨⟨a, tail⟩, ha, hrest⟩ := Option.map_eq_some_iff.1 hb
    cases hrest
    obtain ⟨hsuffix, a', ha', hkept⟩ := h.reads a tail ha
    refine ⟨hsuffix, f a', by rw [ha']; rfl, ?_⟩
    rw [hkept, hf.eq_iff]
  fails hr hkept := by
    rw [h.fails (Option.map_eq_none_iff.1 hr) hkept]
    rfl

/-- One part, and another part behind it. -/
theorem bind (h : Agrees p cs r r') {k k' : Reader β} {f : α → β → γ}
    (hk : ∀ rest, rest <:+ cs → Agrees .outside rest (k rest) (k' (squeeze rest)))
    (hf : ∀ a b a' b', f a b = f a' b' ↔ a = a' ∧ b = b') :
    Agrees p cs (r.bind fun x => (k x.2).map fun y => (f x.1 y.1, y.2))
      (r'.bind fun x => (k' x.2).map fun y => (f x.1 y.1, y.2)) where
  reads c behind hc := by
    obtain ⟨⟨a, rest⟩, ha, hc⟩ := Option.bind_eq_some_iff.1 hc
    obtain ⟨⟨b, tail⟩, hb, hbehind⟩ := Option.map_eq_some_iff.1 hc
    cases hbehind
    obtain ⟨hsuffix, a', ha', hkept⟩ := h.reads a rest ha
    obtain ⟨hsuffix', b', hb', hkept'⟩ := (hk rest hsuffix).reads b tail hb
    refine ⟨hsuffix'.trans hsuffix, f a' b', ?_, ?_⟩
    · rw [ha', Option.bind_some, hb']
      rfl
    · rw [hkept, hkept', hf, and_assoc]
  fails hr hkept := by
    cases hra : r with
    | none =>
      rw [h.fails hra hkept]
      rfl
    | some x =>
      obtain ⟨a, rest⟩ := x
      obtain ⟨hsuffix, a', ha', hiff⟩ := h.reads a rest hra
      rw [hra, Option.bind_some] at hr
      have hnone := (hk rest hsuffix).fails (Option.map_eq_none_iff.1 hr) (hiff.1 hkept).2
      rw [ha', Option.bind_some, hnone]
      rfl

/-- Space in front makes no difference, and other white space is refused. -/
theorem skip {k k' : Reader α} (hk : Skips k) (hk' : Skips k')
    (h : ∀ c rest, c :: rest <:+ cs → isBlank c = false →
      Agrees .outside (c :: rest) (k (c :: rest)) (k' (c :: squeeze rest))) :
    Agrees .outside cs (k cs) (k' (squeeze cs)) := by
  have hsuffix : skipSpace cs <:+ cs := List.dropWhile_suffix isSpace
  rw [← hk.skips, ← hk'.skips, skipSpace_squeeze, ← dropBlank_skipSpace]
  refine behind ?_ hsuffix (kept_skipSpace cs).symm
  cases hcs : skipSpace cs with
  | nil =>
    rw [hk.nil]
    exact ⟨nofun, fun _ _ => hk'.nil⟩
  | cons c rest =>
    cases hc : isBlank c with
    | true =>
      have hspace : isSpace c = false := Reader.stops_dropWhile isSpace cs c (by
        rw [← skipSpace, hcs]
        rfl)
      rw [hk.blank c rest hc hspace]
      refine ⟨nofun, fun _ hkept => ?_⟩
      rw [kept_blank hc, Place.keeps, hspace] at hkept
      cases hkept
    | false =>
      have hword : dropBlank (c :: rest) = c :: rest :=
        dropBlank_of_startsWord (by simp [startsWord, hc])
      rw [hword, squeeze_cons hc]
      exact h c rest (hcs ▸ hsuffix) hc

end Agrees

end Agrees

/-! ## Arrays and objects -/

section Sequences

variable {α : Type}

/-- What stands behind an item: a comma and more items, or the closing bracket. -/
def more (close : Char) (next : Reader (List α)) : Reader (List α) :=
  fun cs => match skipSpace cs with
    | c :: rest => if c = ',' then next rest else if c = close then some ([], rest) else none
    | [] => none

/-- Items with commas between them, and a closing bracket. -/
def sequence (close : Char) (item : Reader α) : Nat → Reader (List α)
  | 0, _ => none
  | fuel + 1, cs => (item cs).bind fun x =>
    (more close (sequence close item fuel) x.2).map fun y => (x.1 :: y.1, y.2)

section More

variable {close : Char} {next : Reader (List α)} {cs tail : List Char}

theorem more_comma (h : skipSpace cs = ',' :: tail) : more close next cs = next tail := by
  rw [more, h]
  exact if_pos rfl

theorem more_close (hclose : close ≠ ',') (h : skipSpace cs = close :: tail) :
    more close next cs = some ([], tail) := by
  rw [more, h]
  dsimp only
  rw [if_neg hclose, if_pos rfl]

theorem more_other (hcomma : ∀ tail, skipSpace cs = ',' :: tail → False)
    (hclose : ∀ tail, skipSpace cs = close :: tail → False) : more close next cs = none := by
  rw [more]
  split
  · rename_i c tail htail
    have hc : c ≠ ',' := fun hc => hcomma tail (hc ▸ htail)
    have hc' : c ≠ close := fun hc => hclose tail (hc ▸ htail)
    rw [if_neg hc, if_neg hc']
  · rfl

end More

theorem items_eq (item : Reader Json) (read : List Json) (fuel : Nat) (cs : List Char) :
    items item read fuel cs =
      (sequence ']' item fuel cs).map fun x => (read.reverse ++ x.1, x.2) := by
  induction fuel generalizing read cs with
  | zero => rfl
  | succ fuel ih =>
    rw [items, sequence]
    cases item cs with
    | none => rfl
    | some x =>
      dsimp only [Option.bind_some]
      split
      · rename_i tail htail
        rw [ih, more_comma htail]
        simp [Function.comp_def]
      · rename_i tail htail
        rw [more_close (by decide) htail]
        simp
      · rename_i hcomma hclose
        rw [more_other hcomma hclose]
        rfl

theorem fields_eq (item : Reader Json) (read : Fields) (fuel : Nat) (cs : List Char) :
    fields item read fuel cs =
      (sequence '\x7d' (field item) fuel cs).map fun x => (read.reverse ++ x.1, x.2) := by
  induction fuel generalizing read cs with
  | zero => rfl
  | succ fuel ih =>
    rw [fields, sequence]
    cases field item cs with
    | none => rfl
    | some x =>
      dsimp only [Option.bind_some]
      split
      · rename_i tail htail
        rw [ih, more_comma htail]
        simp [Function.comp_def]
      · rename_i tail htail
        rw [more_close (by decide) htail]
        simp
      · rename_i hcomma hclose
        rw [more_other hcomma hclose]
        rfl

/-- What stands behind a mark. -/
def after (mark : Char) (r : Reader α) : Reader α :=
  fun cs => match skipSpace cs with
    | c :: rest => if c = mark then r rest else none
    | [] => none

theorem after_mark {mark : Char} {r : Reader α} {cs tail : List Char}
    (h : skipSpace cs = mark :: tail) : after mark r cs = r tail := by
  rw [after, h]
  exact if_pos rfl

theorem after_other {mark : Char} {r : Reader α} {cs : List Char}
    (h : ∀ tail, skipSpace cs = mark :: tail → False) : after mark r cs = none := by
  rw [after]
  split
  · rename_i c tail htail
    have hc : c ≠ mark := fun hc => h tail (hc ▸ htail)
    rw [if_neg hc]
  · rfl

theorem field_eq (item : Reader Json) (cs : List Char) :
    field item cs = (after '"' (stringBody []) cs).bind fun x =>
      (after ':' item x.2).map fun y => ((x.1, y.1), y.2) := by
  rw [field]
  split
  · rename_i rest hrest
    rw [after_mark hrest]
    cases stringBody [] rest with
    | none => rfl
    | some x =>
      dsimp only [Option.bind_some]
      split
      · rename_i tail htail
        rw [after_mark htail]
      · rename_i hcolon
        rw [after_other hcolon]
        rfl
  · rename_i hquote
    rw [after_other hquote]
    rfl

theorem skipSpace_cons {c : Char} {rest : List Char} (hc : isSpace c = false) :
    skipSpace (c :: rest) = c :: rest :=
  List.dropWhile_cons_of_neg (by rw [hc]; exact Bool.false_ne_true)

theorem isSpace_of_not_blank {c : Char} (hc : isBlank c = false) : isSpace c = false := by
  cases hspace : isSpace c with
  | false => rfl
  | true => exact (isBlank_of_isSpace hspace).symm.trans hc

theorem ne_of_isBlank {c d : Char} (hc : isBlank c = true) (hd : isBlank d = false) : c ≠ d := by
  rintro rfl
  cases hc.symm.trans hd

theorem after_skips {mark : Char} (hmark : isBlank mark = false) (r : Reader α) :
    Skips (after mark r) where
  skips cs := by rw [after, after, skipSpace_skipSpace]
  nil := rfl
  blank c rest hc hspace := by
    rw [after, skipSpace_cons hspace]
    exact if_neg (ne_of_isBlank hc hmark)

theorem after_agrees {mark : Char} {p : Place} (hmark : Leads .outside p mark) {r r' : Reader α}
    {cs : List Char} (h : ∀ rest, rest <:+ cs → Agrees p rest (r rest) (r' (squeeze rest))) :
    Agrees .outside cs (after mark r cs) (after mark r' (squeeze cs)) := by
  refine .skip (after_skips hmark.solid r) (after_skips hmark.solid r') fun c rest hsuffix hc => ?_
  have hspace := isSpace_of_not_blank hc
  rw [after, after, skipSpace_cons hspace, skipSpace_cons hspace]
  dsimp only
  split
  · rename_i hcm
    subst hcm
    exact (h rest ((List.suffix_cons _ _).trans hsuffix)).cons hmark
  · exact .none _

theorem more_skips {close : Char} (hclose : isBlank close = false) (next : Reader (List α)) :
    Skips (more close next) where
  skips cs := by rw [more, more, skipSpace_skipSpace]
  nil := rfl
  blank c rest hc hspace := by
    rw [more, skipSpace_cons hspace]
    dsimp only
    rw [if_neg (ne_of_isBlank hc rfl), if_neg (ne_of_isBlank hc hclose)]

theorem more_agrees {close : Char} (hclose : Leads .outside .outside close)
    {next next' : Reader (List α)} {cs : List Char}
    (h : ∀ rest, ',' :: rest <:+ cs → Agrees .outside rest (next rest) (next' (squeeze rest))) :
    Agrees .outside cs (more close next cs) (more close next' (squeeze cs)) := by
  refine .skip (more_skips hclose.solid next) (more_skips hclose.solid next')
    fun c rest hsuffix hc => ?_
  have hspace := isSpace_of_not_blank hc
  rw [more, more, skipSpace_cons hspace, skipSpace_cons hspace]
  dsimp only
  split
  · rename_i hcomma
    subst hcomma
    exact (h rest hsuffix).cons ⟨rfl, rfl⟩
  · split
    · rename_i hcm
      subst hcm
      exact (Agrees.of_steady (.give (some [])) rest).cons hclose
    · exact .none _

/-- Items with commas between them, if the fuel of both readers is enough for their texts. -/
theorem sequence_agrees {close : Char} (hclose : Leads .outside .outside close)
    {item item' : Reader α} {fuel fuel' : Nat} {cs : List Char}
    (hitem : ∀ rest, rest <:+ cs → Agrees .outside rest (item rest) (item' (squeeze rest)))
    (hfuel : cs.length < fuel) (hfuel' : (squeeze cs).length < fuel') :
    Agrees .outside cs (sequence close item fuel cs) (sequence close item' fuel' (squeeze cs)) := by
  induction fuel generalizing cs fuel' with
  | zero => exact absurd hfuel (Nat.not_lt_zero _)
  | succ fuel ih =>
    obtain ⟨fuel', rfl⟩ := Nat.exists_eq_succ_of_ne_zero (Nat.ne_zero_of_lt hfuel')
    refine (hitem cs List.suffix_rfl).bind (fun rest hrest => ?_) fun a b a' b' => ?_
    · refine more_agrees hclose fun behind hbehind => ?_
      have hsuffix := hbehind.trans hrest
      have hsqueeze := squeeze_suffix hsuffix
      rw [squeeze_cons rfl] at hsqueeze
      have hlength := hsuffix.length_le
      have hlength' := hsqueeze.length_le
      rw [List.length_cons] at hlength hlength'
      exact ih (fun tail htail => hitem tail (htail.trans ((List.suffix_cons _ _).trans hsuffix)))
        (by omega) (by omega)
    · exact List.cons.injEq .. ▸ Iff.rfl

theorem field_skips (item : Reader Json) : Skips (field item) where
  skips cs := by
    have hname : Skips (after '"' (stringBody [])) := after_skips rfl _
    rw [field_eq, field_eq, hname.skips]
  nil := rfl
  blank c rest hc hspace := by
    rw [field_eq, (after_skips rfl (stringBody [])).blank c rest hc hspace]
    rfl

theorem field_agrees {item item' : Reader Json} {cs : List Char}
    (h : ∀ rest, rest <:+ cs → Agrees .outside rest (item rest) (item' (squeeze rest))) :
    Agrees .outside cs (field item cs) (field item' (squeeze cs)) := by
  have hname : Agrees .outside cs (after '"' (stringBody []) cs)
      (after '"' (stringBody []) (squeeze cs)) :=
    after_agrees (p := .inside) ⟨rfl, rfl⟩ fun rest _ => stringBody_agrees rest
  rw [field_eq, field_eq]
  refine hname.bind (fun rest hrest => ?_) fun key v key' v' => by rw [Prod.mk.injEq]
  exact after_agrees ⟨rfl, rfl⟩ fun tail htail => h tail (htail.trans hrest)

/-- What stands behind an opening bracket. -/
def body (close : Char) (item : Reader α) (fuel : Nat) : Reader (List α) :=
  fun cs => match skipSpace cs with
    | c :: rest =>
      if c = close then some ([], rest) else sequence close item fuel (c :: rest)
    | [] => sequence close item fuel []

theorem sequence_eq_none {close : Char} {item : Reader α} {cs : List Char} (h : item cs = none)
    (fuel : Nat) : sequence close item fuel cs = none := by
  cases fuel with
  | zero => rfl
  | succ fuel =>
    rw [sequence, h]
    rfl

theorem body_skips {close : Char} (hclose : isBlank close = false) {item : Reader α}
    (hitem : Skips item) (fuel : Nat) : Skips (body close item fuel) where
  skips cs := by rw [body, body, skipSpace_skipSpace]
  nil := sequence_eq_none hitem.nil fuel
  blank c rest hc hspace := by
    rw [body, skipSpace_cons hspace]
    dsimp only
    rw [if_neg (ne_of_isBlank hc hclose)]
    exact sequence_eq_none (hitem.blank c rest hc hspace) fuel

theorem body_agrees {close : Char} (hclose : Leads .outside .outside close)
    {item item' : Reader α} (hskips : Skips item) (hskips' : Skips item') {fuel fuel' : Nat}
    {cs : List Char}
    (hitem : ∀ rest, rest <:+ cs → Agrees .outside rest (item rest) (item' (squeeze rest)))
    (hfuel : cs.length < fuel) (hfuel' : (squeeze cs).length < fuel') :
    Agrees .outside cs (body close item fuel cs) (body close item' fuel' (squeeze cs)) := by
  refine .skip (body_skips hclose.solid hskips fuel) (body_skips hclose.solid hskips' fuel')
    fun c rest hsuffix hc => ?_
  have hspace := isSpace_of_not_blank hc
  rw [body, body, skipSpace_cons hspace, skipSpace_cons hspace]
  dsimp only
  split
  · rename_i hcm
    subst hcm
    exact (Agrees.of_steady (.give (some [])) rest).cons hclose
  · have hlength := hsuffix.length_le
    have hlength' := (squeeze_suffix hsuffix).length_le
    rw [← squeeze_cons hc]
    exact sequence_agrees hclose (fun tail htail => hitem tail (htail.trans hsuffix))
      (Nat.lt_of_le_of_lt hlength hfuel) (Nat.lt_of_le_of_lt hlength' hfuel')

end Sequences

/-! ## Values -/

section Values

variable {fuel fuel' levels : Nat} {c : Char} {cs rest : List Char}

theorem value_null (fuel levels : Nat) (rest : List Char) :
    value fuel levels ('n' :: rest) = (word ['u', 'l', 'l'] rest).map (.null, ·) := by
  rw [value, skipSpace_cons rfl]
  rfl

theorem value_true (fuel levels : Nat) (rest : List Char) :
    value fuel levels ('t' :: rest) = (word ['r', 'u', 'e'] rest).map (.bool true, ·) := by
  rw [value, skipSpace_cons rfl]
  rfl

theorem value_false (fuel levels : Nat) (rest : List Char) :
    value fuel levels ('f' :: rest) = (word ['a', 'l', 's', 'e'] rest).map (.bool false, ·) := by
  rw [value, skipSpace_cons rfl]
  rfl

theorem value_string (fuel levels : Nat) (rest : List Char) :
    value fuel levels ('"' :: rest) = (stringBody [] rest).map fun x => (.str x.1, x.2) := by
  rw [value, skipSpace_cons rfl]
  rfl

theorem value_array_zero (fuel : Nat) (rest : List Char) : value fuel 0 ('[' :: rest) = none := by
  rw [value, skipSpace_cons rfl]
  rfl

theorem value_object_zero (fuel : Nat) (rest : List Char) :
    value fuel 0 ('\x7b' :: rest) = none := by
  rw [value, skipSpace_cons rfl]
  rfl

theorem value_bracket (fuel levels : Nat) (rest : List Char) :
    value fuel (levels + 1) ('[' :: rest) =
      match skipSpace rest with
      | ']' :: rest => some (.arr [], rest)
      | rest => (items (value fuel levels) [] fuel rest).map fun x => (.arr x.1, x.2) := by
  rw [value, skipSpace_cons rfl]
  rfl

theorem value_brace (fuel levels : Nat) (rest : List Char) :
    value fuel (levels + 1) ('\x7b' :: rest) =
      match skipSpace rest with
      | '\x7d' :: rest => some (.obj [], rest)
      | rest => (fields (value fuel levels) [] fuel rest).map fun x => (.obj x.1, x.2) := by
  rw [value, skipSpace_cons rfl]
  rfl

theorem value_array (fuel levels : Nat) (rest : List Char) :
    value fuel (levels + 1) ('[' :: rest) =
      (body ']' (value fuel levels) fuel rest).map fun x => (.arr x.1, x.2) := by
  rw [value_bracket, body]
  split
  · rename_i tail htail
    rw [htail]
    rfl
  · rename_i hclose
    rw [items_eq]
    split
    · rename_i c tail htail
      have hc : c ≠ ']' := fun hc => hclose tail (hc ▸ htail)
      rw [if_neg hc, htail]
      simp
    · rename_i htail
      rw [htail]
      simp

theorem value_object (fuel levels : Nat) (rest : List Char) :
    value fuel (levels + 1) ('\x7b' :: rest) =
      (body '\x7d' (field (value fuel levels)) fuel rest).map fun x => (.obj x.1, x.2) := by
  rw [value_brace, body]
  split
  · rename_i tail htail
    rw [htail]
    rfl
  · rename_i hclose
    rw [fields_eq]
    split
    · rename_i c tail htail
      have hc : c ≠ '\x7d' := fun hc => hclose tail (hc ▸ htail)
      rw [if_neg hc, htail]
      simp
    · rename_i htail
      rw [htail]
      simp

/-- The characters that values begin with, apart from numbers. -/
def openers : List Char := ['n', 't', 'f', '"', '[', '\x7b']

theorem value_number (hc : isSpace c = false) (h : c ∉ openers) :
    value fuel levels (c :: rest) = number (c :: rest) := by
  simp only [openers, List.mem_cons, List.not_mem_nil, or_false, not_or] at h
  obtain ⟨hn, ht, hf, hquote, harray, hobject⟩ := h
  rw [value, skipSpace_cons hc]
  split
  · rename_i heq
    exact absurd (List.cons.inj heq).1 hn
  · rename_i heq
    exact absurd (List.cons.inj heq).1 ht
  · rename_i heq
    exact absurd (List.cons.inj heq).1 hf
  · rename_i heq
    exact absurd (List.cons.inj heq).1 hquote
  · rename_i heq
    exact absurd (List.cons.inj heq).1 harray
  · rename_i heq
    exact absurd (List.cons.inj heq).1 hobject
  · rfl

theorem number_blank (hc : isBlank c = true) : number (c :: rest) = none := by
  have hdigit : c.isDigit = false := by
    cases hdigit : c.isDigit with
    | false => rfl
    | true => exact hc.symm.trans (leads_of_isDigit c hdigit).solid
  have hminus : decide (c = '-') = false := decide_eq_false (ne_of_isBlank hc rfl)
  rw [Reader.number_eq, Reader.ifNext, hminus, if_neg Bool.false_ne_true, Reader.unsigned,
    Reader.bind, Reader.run, Option.bind_some, List.takeWhile_cons, hdigit]
  rfl

theorem value_skips (fuel levels : Nat) : Skips (value fuel levels) where
  skips := value_skipSpace fuel levels
  nil := by
    rw [value]
    rfl
  blank c rest hc hspace := by
    have hopener : c ∉ openers := fun h => by
      cases hc.symm.trans (solid_of_all (by decide +kernel) c h)
    rw [value_number hspace hopener, number_blank hc]

theorem word_agrees {w : List Char} (hw : w.all (fun c => Leads .outside .outside c) = true)
    (v : Json) (cs : List Char) : Agrees .outside cs ((word w cs).map (v, ·))
      ((word w (squeeze cs)).map (v, ·)) :=
  .of_steady (Reader.word_steady (by simpa using hw) v) cs

section Nested

variable (hshort : rest.length < fuel) (hshort' : (squeeze rest).length < fuel')
  (hitem : ∀ tail, tail <:+ rest →
    Agrees .outside tail (value fuel levels tail) (value fuel' levels (squeeze tail)))

include hshort hshort' hitem

theorem array_agrees : Agrees .outside ('[' :: rest) (value fuel (levels + 1) ('[' :: rest))
    (value fuel' (levels + 1) ('[' :: squeeze rest)) := by
  have hbody : Agrees .outside rest (body ']' (value fuel levels) fuel rest)
      (body ']' (value fuel' levels) fuel' (squeeze rest)) :=
    body_agrees ⟨rfl, rfl⟩ (value_skips fuel levels) (value_skips fuel' levels) hitem hshort hshort'
  rw [value_array, value_array]
  exact (hbody.map fun _ _ h => Json.arr.inj h).cons ⟨rfl, rfl⟩

theorem object_agrees : Agrees .outside ('\x7b' :: rest) (value fuel (levels + 1) ('\x7b' :: rest))
    (value fuel' (levels + 1) ('\x7b' :: squeeze rest)) := by
  have hfield : ∀ tail, tail <:+ rest → Agrees .outside tail
      (field (value fuel levels) tail) (field (value fuel' levels) (squeeze tail)) :=
    fun tail htail => field_agrees fun behind hbehind => hitem behind (hbehind.trans htail)
  have hbody : Agrees .outside rest (body '\x7d' (field (value fuel levels)) fuel rest)
      (body '\x7d' (field (value fuel' levels)) fuel' (squeeze rest)) :=
    body_agrees ⟨rfl, rfl⟩ (field_skips (value fuel levels)) (field_skips (value fuel' levels))
      hfield hshort hshort'
  rw [value_object, value_object]
  exact (hbody.map fun _ _ h => Json.obj.inj h).cons ⟨rfl, rfl⟩

end Nested

/-- A value is read from both texts, if the fuel of both readers is enough. -/
theorem value_agrees {fuel fuel' levels : Nat} {cs : List Char} (hfuel : cs.length < fuel)
    (hfuel' : (squeeze cs).length < fuel') :
    Agrees .outside cs (value fuel levels cs) (value fuel' levels (squeeze cs)) := by
  refine .skip (value_skips fuel levels) (value_skips fuel' levels) fun c rest hsuffix hc => ?_
  have hrest := (List.suffix_cons c rest).trans hsuffix
  have hshort := Nat.lt_of_le_of_lt hrest.length_le hfuel
  have hshort' := Nat.lt_of_le_of_lt (squeeze_suffix hrest).length_le hfuel'
  by_cases hopener : c ∈ openers
  · simp only [openers, List.mem_cons, List.not_mem_nil, or_false] at hopener
    rcases hopener with rfl | rfl | rfl | rfl | rfl | rfl
    · rw [value_null, value_null]
      exact (word_agrees (by decide +kernel) .null rest).cons ⟨rfl, rfl⟩
    · rw [value_true, value_true]
      exact (word_agrees (by decide +kernel) (.bool true) rest).cons ⟨rfl, rfl⟩
    · rw [value_false, value_false]
      exact (word_agrees (by decide +kernel) (.bool false) rest).cons ⟨rfl, rfl⟩
    · rw [value_string, value_string]
      exact ((stringBody_agrees rest).map fun _ _ h => Json.str.inj h).cons ⟨rfl, rfl⟩
    -- Behind a bracket there is one level less, and the items are in what is left of the text.
    · cases levels with
      | zero =>
        rw [value_array_zero, value_array_zero]
        exact .none _
      | succ levels =>
        exact array_agrees hshort hshort' fun tail htail =>
          value_agrees (Nat.lt_of_le_of_lt htail.length_le hshort)
            (Nat.lt_of_le_of_lt (squeeze_suffix htail).length_le hshort')
    · cases levels with
      | zero =>
        rw [value_object_zero, value_object_zero]
        exact .none _
      | succ levels =>
        exact object_agrees hshort hshort' fun tail htail =>
          value_agrees (Nat.lt_of_le_of_lt htail.length_le hshort)
            (Nat.lt_of_le_of_lt (squeeze_suffix htail).length_le hshort')
  · rw [value_number (isSpace_of_not_blank hc) hopener,
      value_number (isSpace_of_not_blank hc) hopener, ← squeeze_cons hc]
    exact .of_steady Reader.number_steady (c :: rest)
termination_by levels

end Values

/-! ## Texts -/

/-- Does a text keep its value with single spaces? -/
def Kept (text : String) : Prop :=
  kept .outside text.toList = true

instance (text : String) : Decidable (Kept text) :=
  inferInstanceAs (Decidable (_ = _))

theorem parse?_eq_some {text : String} {v : Json} :
    parse? text = some v ↔ ∃ rest,
      value (text.toList.length + 1) levelLimit text.toList = some (v, rest) ∧
        skipSpace rest = [] := by
  rw [parse?, parseDocument?]
  cases value (text.toList.length + 1) levelLimit text.toList with
  | none => simp
  | some x =>
    obtain ⟨w, rest⟩ := x
    simp [and_comm]

theorem document_agrees (cs : List Char) :
    Agrees .outside cs (value (cs.length + 1) levelLimit cs)
      (value ((squeeze cs).length + 1) levelLimit (squeeze cs)) :=
  value_agrees (Nat.lt_succ_self _) (Nat.lt_succ_self _)

/-- Of white space alone, what keeps its meaning is space. -/
theorem skipSpace_eq_nil {cs : List Char} (hkept : kept .outside cs = true)
    (h : dropBlank cs = []) : skipSpace cs = [] := by
  cases hcs : skipSpace cs with
  | nil => rfl
  | cons c rest =>
    have hspace : isSpace c = false := Reader.stops_dropWhile isSpace cs c (by
      rw [← skipSpace, hcs]
      rfl)
    rw [← dropBlank_skipSpace, hcs] at h
    rw [← kept_skipSpace, hcs] at hkept
    cases hc : isBlank c with
    | true =>
      rw [kept_blank hc, Place.keeps, hspace] at hkept
      cases hkept
    | false =>
      rw [dropBlank_of_startsWord (by simp [startsWord, hc])] at h
      cases h

/-- A text that is read is read with single spaces too, and as the same value exactly if it keeps
its meaning. -/
theorem parse?_squeeze {text : String} {v : Json} (h : parse? text = some v) :
    ∃ v', parse? (String.ofList (squeeze text.toList)) = some v' ∧ (Kept text ↔ v' = v) := by
  obtain ⟨rest, hvalue, hrest⟩ := parse?_eq_some.1 h
  obtain ⟨-, v', hv', hkept⟩ := (document_agrees text.toList).reads v rest hvalue
  refine ⟨v', parse?_eq_some.2 ⟨squeeze rest, ?_, ?_⟩, hkept.trans (and_iff_left ?_)⟩
  · rw [String.toList_ofList]
    exact hv'
  · rw [skipSpace_squeeze, ← dropBlank_skipSpace, hrest]
    rfl
  · rw [← kept_skipSpace, hrest]
    rfl

/-- A text that keeps its meaning is refused with single spaces if it is refused. -/
theorem parse?_squeeze_eq_none {text : String} (h : parse? text = none) (hkept : Kept text) :
    parse? (String.ofList (squeeze text.toList)) = none := by
  refine Option.eq_none_iff_forall_ne_some.2 fun v' hv' => ?_
  obtain ⟨rest', hvalue', hrest'⟩ := parse?_eq_some.1 hv'
  rw [String.toList_ofList] at hvalue'
  have hagrees := document_agrees text.toList
  cases hvalue : value (text.toList.length + 1) levelLimit text.toList with
  | none => cases hvalue'.symm.trans (hagrees.fails hvalue hkept)
  | some x =>
    obtain ⟨v, rest⟩ := x
    obtain ⟨-, w, hw, hiff⟩ := hagrees.reads v rest hvalue
    cases hvalue'.symm.trans hw
    rw [skipSpace_squeeze, squeeze_eq_nil, dropBlank_dropBlank] at hrest'
    have hrest := skipSpace_eq_nil (hiff.1 hkept).2 hrest'
    cases h.symm.trans (parse?_eq_some.2 ⟨rest, hvalue, hrest⟩)

/-- With single spaces, a text that keeps its meaning is read as before. -/
theorem parse?_squeeze_of_kept {text : String} (hkept : Kept text) :
    parse? (String.ofList (squeeze text.toList)) = parse? text := by
  cases h : parse? text with
  | none => exact parse?_squeeze_eq_none h hkept
  | some v =>
    obtain ⟨v', hv', hiff⟩ := parse?_squeeze h
    rw [hv', hiff.1 hkept]

end Statechart.Json
