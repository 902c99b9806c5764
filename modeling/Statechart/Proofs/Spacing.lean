import Statechart.Json.Parser
import Statechart.Proofs.Words

/-!
# Statechart.Proofs.Spacing

Which white space matters in a JSON text, and readers to which it does not matter.

* `Json.kept`: does a text keep its meaning if every run of white space becomes one space?
* `Json.Reader.Steady`: a reader that takes no white space, and the same from the text with single
  spaces. Such readers are put together from such readers.
* `Json.Reader.number_steady`, `Json.Reader.word_steady`, `Json.Reader.escape_steady`: numbers,
  words and escapes.
-/

namespace Statechart.Json

open Text

/-! ## White space in JSON texts -/

theorem skipSpace_skipSpace (cs : List Char) : skipSpace (skipSpace cs) = skipSpace cs :=
  List.dropWhile_idempotent ..

/-- Space in front of a value makes no difference. -/
theorem value_skipSpace (fuel levels : Nat) (cs : List Char) :
    value fuel levels (skipSpace cs) = value fuel levels cs := by
  rw [value, value, skipSpace_skipSpace]

/-- A place in a text: outside of strings, in a string, or behind a backslash in one. -/
inductive Place where
  | outside
  | inside
  | escaped
  deriving DecidableEq

def Place.next : Place → Char → Place
  | .outside, c => if c = '"' then .inside else .outside
  | .inside, c => if c = '"' then .outside else if c = '\\' then .escaped else .inside
  | .escaped, _ => .inside

/-- Does white space at this place mean the same as one space in front of a word? Outside of
strings, all that JSON allows does. A string consists of its characters. -/
def Place.keeps (p : Place) (c : Char) (rest : List Char) : Bool :=
  match p with
  | .outside => isSpace c
  | .inside | .escaped => c = ' ' && startsWord rest

/-- Does a text keep its meaning if every run of white space becomes one space? -/
def kept (p : Place) : List Char → Bool
  | [] => true
  | c :: rest => (!isBlank c || p.keeps c rest) && kept (p.next c) rest

example : kept .outside "\x7b\t\"a b\" :  1\x7d".toList = true := by decide +kernel
example : kept .outside "\x7b\"a  b\": 1\x7d".toList = false := by decide +kernel

/-- A character that is no white space leads from one place to another. -/
structure Leads (p q : Place) (c : Char) : Prop where
  solid : isBlank c = false
  next : p.next c = q

instance (p q : Place) (c : Char) : Decidable (Leads p q c) :=
  decidable_of_iff (isBlank c = false ∧ p.next c = q) ⟨fun h => ⟨h.1, h.2⟩, fun h => ⟨h.1, h.2⟩⟩

section Kept

variable {p q : Place} {c : Char} {cs read rest : List Char}

theorem isBlank_of_isSpace (h : isSpace c = true) : isBlank c = true := by
  simp only [isSpace, Bool.or_eq_true, decide_eq_true_eq] at h
  rcases h with ((rfl | rfl) | rfl) | rfl <;> rfl

theorem kept_cons (hc : isBlank c = false) : kept p (c :: rest) = kept (p.next c) rest := by
  rw [kept, hc]
  rfl

theorem kept_blank (hc : isBlank c = true) :
    kept p (c :: rest) = (p.keeps c rest && kept (p.next c) rest) := by
  rw [kept, hc]
  rfl

theorem Leads.kept (h : Leads p q c) : kept p (c :: rest) = Json.kept q rest := by
  rw [kept_cons h.solid, h.next]

theorem kept_append (h : ∀ c ∈ read, Leads p p c) : kept p (read ++ rest) = kept p rest := by
  induction read with
  | nil => rfl
  | cons c read ih =>
    obtain ⟨hc, hread⟩ := List.forall_mem_cons.1 h
    rw [List.cons_append, hc.kept, ih hread]

theorem kept_skipSpace (cs : List Char) : kept .outside (skipSpace cs) = kept .outside cs := by
  induction cs with
  | nil => rfl
  | cons c rest ih =>
    rw [skipSpace, List.dropWhile_cons]
    split
    · rename_i hc
      have hquote : c ≠ '"' := by
        rintro rfl
        cases hc
      rw [kept_blank (isBlank_of_isSpace hc), Place.keeps, hc, Place.next, if_neg hquote]
      exact ih
    · rfl

theorem dropBlank_skipSpace (cs : List Char) : dropBlank (skipSpace cs) = dropBlank cs := by
  have hblank : Blank (cs.takeWhile isSpace) :=
    fun c hc => isBlank_of_isSpace (List.mem_takeWhile_imp hc)
  have hsplit : cs.takeWhile isSpace ++ skipSpace cs = cs := List.takeWhile_append_dropWhile
  rw [← dropBlank_append hblank, hsplit]

theorem skipSpace_squeeze (cs : List Char) : skipSpace (squeeze cs) = squeeze (dropBlank cs) := by
  have hword : ∀ cs, startsWord cs = true → skipSpace (squeeze cs) = squeeze cs := by
    intro cs hcs
    cases cs with
    | nil => cases hcs
    | cons c rest =>
      have hc : isBlank c = false := by simpa [startsWord] using hcs
      rw [squeeze_cons hc]
      refine List.dropWhile_cons_of_neg fun hspace => ?_
      rw [isBlank_of_isSpace hspace] at hc
      cases hc
  cases hcs : startsWord cs with
  | true => rw [dropBlank_of_startsWord hcs, hword cs hcs]
  | false =>
    rw [squeeze_of_not_startsWord hcs]
    split
    · rename_i hdrop
      rw [hdrop]
      rfl
    · rename_i hdrop
      exact hword _ (startsWord_dropBlank hdrop)

end Kept

/-! ## Steady readers -/

abbrev Reader (α : Type) := List Char → Option (α × List Char)

namespace Reader

variable {α β : Type}

def give (a : Option α) : Reader α :=
  fun cs => a.map (·, cs)

def bind (r : Reader α) (k : α → Reader β) : Reader β :=
  fun cs => (r cs).bind fun x => k x.1 x.2

/-- One character that means something. -/
def one (meaning : Char → Option α) : Reader α
  | [] => none
  | c :: rest => (meaning c).map (·, rest)

def run (next : Char → Bool) : Reader (List Char) :=
  fun cs => some (cs.takeWhile next, cs.drop (cs.takeWhile next).length)

/-- Goes on behind such a character if it is the next one. -/
def ifNext (next : Char → Bool) (r s : Reader α) : Reader α
  | [] => s []
  | c :: rest => if next c then r rest else s (c :: rest)

/-- The reader takes no white space on its way between two places. So it reads the same if runs of
white space become single spaces. -/
structure Steady (p q : Place) (r : Reader α) : Prop where
  squeezes : ∀ cs, r (squeeze cs) = (r cs).map (Prod.map id squeeze)
  passes : ∀ cs a rest, r cs = some (a, rest) → rest <:+ cs ∧ kept p cs = kept q rest

section Next

variable {p q : Place} {next : Char → Bool} {cs : List Char}

theorem stops_squeeze (h : ∀ c, next c = true → Leads p q c) (hcs : Stops next cs) :
    Stops next (squeeze cs) := by
  intro c hc
  obtain ⟨tail, htail⟩ := List.head?_eq_some_iff.1 hc
  cases hnext : next c with
  | false => rfl
  | true =>
    obtain ⟨rest, rfl, -⟩ := (squeeze_eq_cons (h c hnext).solid).1 htail
    exact hnext.symm.trans (hcs c rfl)

theorem stops_dropWhile (next : Char → Bool) (cs : List Char) :
    Stops next (cs.dropWhile next) := by
  intro c hc
  have hhead := List.head?_dropWhile_not next cs
  rw [hc] at hhead
  exact hhead

theorem stops_of_ne {d : Char} (h : ∀ rest, cs = d :: rest → False) :
    Stops (fun c => c = d) cs := by
  intro c hc
  obtain ⟨rest, hrest⟩ := List.head?_eq_some_iff.1 hc
  refine decide_eq_false ?_
  rintro rfl
  exact h rest hrest

theorem run_append {read rest : List Char} (hread : ∀ c ∈ read, next c = true)
    (hrest : Stops next rest) : run next (read ++ rest) = some (read, rest) := by
  rw [run, hrest.takeWhile hread, List.drop_left]

theorem ifNext_of_stops {r s : Reader α} (h : Stops next cs) : ifNext next r s cs = s cs := by
  cases cs with
  | nil => rfl
  | cons c rest => exact if_neg (by rw [h c rfl]; exact Bool.false_ne_true)

end Next

namespace Steady

variable {p q q' : Place}

theorem give (a : Option α) : Steady p p (give a) where
  squeezes cs := by cases a <;> rfl
  passes cs b rest h := by
    obtain ⟨b, -, hb⟩ := Option.map_eq_some_iff.1 h
    cases hb
    exact ⟨List.suffix_rfl, rfl⟩

theorem bind {r : Reader α} {k : α → Reader β} (hr : Steady p q r)
    (hk : ∀ a, Steady q q' (k a)) : Steady p q' (r.bind k) where
  squeezes cs := by
    rw [Reader.bind, Reader.bind, hr.squeezes]
    cases r cs with
    | none => rfl
    | some x => exact (hk x.1).squeezes x.2
  passes cs b rest h := by
    obtain ⟨⟨a, middle⟩, ha, hb⟩ := Option.bind_eq_some_iff.1 h
    obtain ⟨hfirst, hkept⟩ := hr.passes _ _ _ ha
    obtain ⟨hsecond, hkept'⟩ := (hk a).passes _ _ _ hb
    exact ⟨hsecond.trans hfirst, hkept.trans hkept'⟩

theorem ite {c : Prop} [Decidable c] {r s : Reader α} (hr : Steady p q r) (hs : Steady p q s) :
    Steady p q (if c then r else s) := by
  split
  · exact hr
  · exact hs

theorem ifNext {next : Char → Bool} {r s : Reader α} (h : ∀ c, next c = true → Leads p q c)
    (hr : Steady q q' r) (hs : Steady p q' s) : Steady p q' (ifNext next r s) where
  squeezes cs := by
    by_cases hcs : Stops next cs
    · rw [ifNext_of_stops hcs, ifNext_of_stops (stops_squeeze h hcs), hs.squeezes]
    · cases cs with
      | nil => exact hs.squeezes []
      | cons c rest =>
        have hc : next c = true := by
          by_contra hc
          exact hcs fun d hd => by cases hd; simpa using hc
        rw [squeeze_cons (h c hc).solid, Reader.ifNext, Reader.ifNext, if_pos hc, if_pos hc,
          hr.squeezes]
  passes cs a rest ha := by
    cases cs with
    | nil => exact hs.passes _ _ _ ha
    | cons c tail =>
      rw [Reader.ifNext] at ha
      split at ha
      · rename_i hc
        obtain ⟨hsuffix, hkept⟩ := hr.passes _ _ _ ha
        exact ⟨hsuffix.trans (List.suffix_cons _ _), (h c hc).kept.trans hkept⟩
      · exact hs.passes _ _ _ ha

theorem one {meaning : Char → Option α} (h : ∀ c a, meaning c = some a → Leads p q c) :
    Steady p q (one meaning) where
  squeezes cs := by
    have hblank : ∀ c, isBlank c = true → meaning c = none := fun c hc => by
      refine Option.eq_none_iff_forall_ne_some.2 fun a ha => ?_
      rw [(h c a ha).solid] at hc
      cases hc
    cases cs with
    | nil => rfl
    | cons c rest =>
      cases hc : isBlank c with
      | true =>
        have hnone : Reader.one meaning (c :: rest) = none := by rw [Reader.one, hblank c hc]; rfl
        rw [hnone, squeeze_of_not_startsWord (by simp [startsWord, hc])]
        split
        · rfl
        · rw [Reader.one, hblank ' ' rfl]
          rfl
      | false =>
        rw [squeeze_cons hc, Reader.one, Reader.one]
        cases meaning c <;> rfl
  passes cs a rest ha := by
    cases cs with
    | nil => cases ha
    | cons c tail =>
      obtain ⟨b, hb, hrest⟩ := Option.map_eq_some_iff.1 ha
      cases hrest
      exact ⟨List.suffix_cons _ _, (h c a hb).kept⟩

theorem run {next : Char → Bool} (h : ∀ c, next c = true → Leads p p c) :
    Steady p p (run next) where
  squeezes cs := by
    have hread : ∀ c ∈ cs.takeWhile next, next c = true := fun c hc => List.mem_takeWhile_imp hc
    have hrest := stops_dropWhile next cs
    rw [← List.takeWhile_append_dropWhile (p := next) (l := cs), run_append hread hrest,
      squeeze_append fun c hc => (h c (hread c hc)).solid,
      run_append hread (stops_squeeze h hrest)]
    rfl
  passes cs a rest ha := by
    have hread : ∀ c ∈ cs.takeWhile next, next c = true := fun c hc => List.mem_takeWhile_imp hc
    have hsplit : cs.takeWhile next ++ cs.dropWhile next = cs := List.takeWhile_append_dropWhile
    rw [← hsplit, run_append hread (stops_dropWhile next cs)] at ha
    cases ha
    have hkept : kept p (cs.takeWhile next ++ cs.dropWhile next) = kept p (cs.dropWhile next) :=
      kept_append fun c hc => h c (hread c hc)
    rw [hsplit] at hkept
    exact ⟨List.dropWhile_suffix next, hkept⟩

end Steady

end Reader

/-! ## Numbers -/

theorem leads_of_isDigit (c : Char) (h : c.isDigit = true) : Leads .outside .outside c := by
  refine ⟨GuardExpr.isBlank_of_isPathChar (GuardExpr.isPathChar_of_isNumberChar
    (GuardExpr.isNumberChar_iff.2 (.inl h))), if_neg ?_⟩
  rintro rfl
  exact absurd h (by decide)

theorem Leads.of_eq {p q : Place} {d : Char} (hd : Leads p q d) (c : Char)
    (h : decide (c = d) = true) : Leads p q c :=
  of_decide_eq_true h ▸ hd

namespace Reader

def exponentSign : Reader Bool :=
  ifNext (· = '-') (give (some true)) (ifNext (· = '+') (give (some false)) (give (some false)))

/-- The digits of an exponent behind its letter. -/
def exponentDigits : Reader (Option Int) :=
  exponentSign.bind fun negative => (run Char.isDigit).bind fun digits =>
    give (if digits.isEmpty then none
      else
        let n : Nat := digits.foldl (fun n d => 10 * n + (d.toNat - 48)) 0
        some (some (if negative then -(n : Int) else n)))

def exponent : Reader (Option Int) :=
  ifNext (fun c => c = 'e' || c = 'E') exponentDigits (give (some none))

/-- What stands behind the point of a number; `whole` is what `absorb` makes of the digits in front
of it. -/
def fractionPart (negative : Bool) (whole : Nat × Nat × Nat) : Reader Json :=
  (run Char.isDigit).bind fun fraction =>
    if fraction.isEmpty then give none
    else
      let read := absorb whole.1 0 fraction
      exponent.bind fun e =>
        give (floatOfParts negative read.1 (e.getD 0 + whole.2.2 - read.2.1))

/-- What stands behind the digits of a number without point. -/
def wholePart (negative : Bool) (whole : Nat × Nat × Nat) : Reader Json :=
  exponent.bind fun e => give <| match e with
    | some e => floatOfParts negative whole.1 (e + whole.2.2)
    | none =>
      if whole.2.2 = 0 then some (integer negative whole.1)
      else floatOfParts negative whole.1 whole.2.2

def unsigned (negative : Bool) : Reader Json :=
  (run Char.isDigit).bind fun whole =>
    if whole.isEmpty || (whole.length ≠ 1 && whole.head? = some '0') then give none
    else
      ifNext (· = '.') (fractionPart negative (absorb 0 0 whole))
        (wholePart negative (absorb 0 0 whole))

theorem exponent_steady : Steady .outside .outside exponent := by
  have hsign : Steady .outside .outside exponentSign :=
    .ifNext (.of_eq ⟨rfl, rfl⟩) (.give _) (.ifNext (.of_eq ⟨rfl, rfl⟩) (.give _) (.give _))
  refine .ifNext (fun c hc => ?_)
    (.bind hsign fun _ => .bind (.run leads_of_isDigit) fun _ => .give _) (.give _)
  rw [Bool.or_eq_true] at hc
  exact hc.elim (Leads.of_eq ⟨rfl, rfl⟩ c) (Leads.of_eq ⟨rfl, rfl⟩ c)

theorem unsigned_steady (negative : Bool) : Steady .outside .outside (unsigned negative) := by
  refine .bind (.run leads_of_isDigit) fun whole => .ite (.give _) ?_
  refine .ifNext (.of_eq ⟨rfl, rfl⟩) ?_ (.bind exponent_steady fun _ => .give _)
  exact .bind (.run leads_of_isDigit) fun _ =>
    .ite (.give _) (.bind exponent_steady fun _ => .give _)

theorem exponentSign_eq (cs : List Char) :
    exponentSign cs = some (match cs with
      | '-' :: rest => (true, rest)
      | '+' :: rest => (false, rest)
      | _ => (false, cs)) := by
  split
  · rfl
  · rfl
  · rename_i hminus hplus
    rw [exponentSign, ifNext_of_stops (stops_of_ne hminus), ifNext_of_stops (stops_of_ne hplus)]
    rfl

theorem give_ite {α : Type} (p : Prop) [Decidable p] (a : α) (cs : List Char) :
    give (if p then none else some a) cs = if p then none else some (a, cs) := by
  split <;> rfl

theorem exponentPart_eq (cs : List Char) : exponentPart cs = exponent cs := by
  unfold exponentPart exponent
  cases cs with
  | nil => rfl
  | cons c rest =>
    rw [ifNext]
    dsimp only
    split
    · rw [exponentDigits, bind, exponentSign_eq, Option.bind_some]
      exact (give_ite _ _ _).symm
    · rfl

theorem fractionPart_eq (negative : Bool) (whole : Nat × Nat × Nat) (cs : List Char) :
    fractionPart negative whole cs =
      if (cs.takeWhile Char.isDigit).isEmpty then none
      else
        let read := absorb whole.1 0 (cs.takeWhile Char.isDigit)
        match exponentPart (cs.drop (cs.takeWhile Char.isDigit).length) with
        | none => none
        | some (e, rest) =>
          (floatOfParts negative read.1 (e.getD 0 + whole.2.2 - read.2.1)).map (·, rest) := by
  rw [fractionPart, bind, run, Option.bind_some, exponentPart_eq]
  dsimp only
  split
  · rfl
  · rw [bind]
    cases exponent (cs.drop (cs.takeWhile Char.isDigit).length) <;> rfl

theorem wholePart_eq (negative : Bool) (whole : Nat × Nat × Nat) (cs : List Char) :
    wholePart negative whole cs =
      match exponentPart cs with
      | none => none
      | some (some e, rest) => (floatOfParts negative whole.1 (e + whole.2.2)).map (·, rest)
      | some (none, rest) =>
        if whole.2.2 = 0 then some (integer negative whole.1, rest)
        else (floatOfParts negative whole.1 whole.2.2).map (·, rest) := by
  rw [wholePart, bind, exponentPart_eq]
  cases exponent cs with
  | none => rfl
  | some x =>
    obtain ⟨_ | e, rest⟩ := x
    · dsimp only [Option.bind_some]
      split <;> rfl
    · rfl

theorem unsignedNumber_eq (negative : Bool) (cs : List Char) :
    unsignedNumber negative cs = unsigned negative cs := by
  unfold unsignedNumber unsigned
  rw [bind, run, Option.bind_some]
  dsimp only
  split
  · rfl
  · split
    · rename_i behind hrest
      rw [hrest]
      exact (fractionPart_eq negative _ behind).symm
    · rename_i hrest
      rw [ifNext_of_stops (stops_of_ne hrest)]
      exact (wholePart_eq negative _ _).symm

theorem number_eq : number = ifNext (· = '-') (unsigned true) (unsigned false) := by
  funext cs
  unfold number
  split
  · exact unsignedNumber_eq true _
  · rename_i hminus
    rw [ifNext_of_stops (stops_of_ne hminus), unsignedNumber_eq]

theorem number_steady : Steady .outside .outside number := by
  rw [number_eq]
  exact .ifNext (.of_eq ⟨rfl, rfl⟩) (unsigned_steady true) (unsigned_steady false)

/-! ## Words -/

theorem word_eq_some {w cs rest : List Char} : word w cs = some rest ↔ cs = w ++ rest :=
  GuardExpr.strip?_eq_some

theorem word_steady {α : Type} {w : List Char} (h : ∀ c ∈ w, Leads .outside .outside c) (a : α) :
    Steady .outside .outside fun cs => (word w cs).map (a, ·) where
  squeezes cs := by
    have hsolid : ∀ c ∈ w, isBlank c = false := fun c hc => (h c hc).solid
    cases hcs : word w cs with
    | some rest =>
      rw [word_eq_some.1 hcs, squeeze_append hsolid, word_eq_some.2 rfl]
      rfl
    | none =>
      cases hsqueezed : word w (squeeze cs) with
      | none => rfl
      | some rest =>
        obtain ⟨behind, hbehind⟩ := exists_of_squeeze_append hsolid (word_eq_some.1 hsqueezed)
        rw [word_eq_some.2 hbehind] at hcs
        cases hcs
  passes cs b rest hb := by
    obtain ⟨tail, htail, hrest⟩ := Option.map_eq_some_iff.1 hb
    cases hrest
    obtain rfl := word_eq_some.1 htail
    exact ⟨List.suffix_append _ _, kept_append h⟩

/-! ## Escapes -/

def fourDigits : Reader Nat :=
  (one hexValue).bind fun a => (one hexValue).bind fun b => (one hexValue).bind fun c =>
    (one hexValue).bind fun d => give (some ((a * 16 + b) * 256 + (c * 16 + d)))

def exactly (d : Char) : Reader Unit :=
  one fun c => if c = d then some () else none

/-- The second half of a character that is written as two. -/
def lowHalf (high : Nat) : Reader Char :=
  (exactly '\\').bind fun _ => (exactly 'u').bind fun _ => fourDigits.bind fun low =>
    give (if isLowHalf low then
      some (Char.ofNat (0x10000 + (high - 0xD800) * 0x400 + (low - 0xDC00))) else none)

def ofUnit (u : Nat) : Reader Char :=
  if isLowHalf u then give none
  else if isHighHalf u then lowHalf u
  else give (some (Char.ofNat u))

/-- What stands behind a backslash in a string. -/
def escape : Reader Char :=
  ifNext (· = 'u') (fourDigits.bind ofUnit) (one unescape)

theorem leads_of_hexValue (c : Char) (n : Nat) (h : hexValue c = some n) :
    Leads .inside .inside c := by
  have hlow : c.toNat < 128 := by
    simp only [hexValue, Bool.and_eq_true, decide_eq_true_eq, Char.le_def,
      UInt32.le_iff_toNat_le] at h
    split at h
    · rename_i hdigit
      exact Nat.lt_of_le_of_lt (Char.isDigit_iff_toNat.1 hdigit).2 (by decide)
    · split at h
      · rename_i hletter
        exact Nat.lt_of_le_of_lt hletter.2 (by decide)
      · split at h
        · rename_i hletter
          exact Nat.lt_of_le_of_lt hletter.2 (by decide)
        · cases h
  have hall : ∀ n < 128, (hexValue (Char.ofNat n)).isSome = true →
      isBlank (Char.ofNat n) = false ∧ Place.next .inside (Char.ofNat n) = .inside := by decide
  have hc := hall c.toNat hlow
  rw [Char.ofNat_toNat, h] at hc
  exact ⟨(hc rfl).1, (hc rfl).2⟩

theorem leads_of_unescape (c d : Char) (h : unescape c = some d) : Leads .escaped .inside c := by
  refine ⟨?_, rfl⟩
  unfold unescape at h
  split at h
  all_goals first | rfl | cases h

theorem fourDigits_steady : Steady .inside .inside fourDigits :=
  .bind (.one leads_of_hexValue) fun _ => .bind (.one leads_of_hexValue) fun _ =>
    .bind (.one leads_of_hexValue) fun _ => .bind (.one leads_of_hexValue) fun _ => .give _

theorem exactly_steady {p q : Place} {d : Char} (h : Leads p q d) : Steady p q (exactly d) := by
  refine .one fun c _ hc => ?_
  split at hc
  · rename_i hcd
    exact hcd ▸ h
  · cases hc

theorem escape_steady : Steady .escaped .inside escape := by
  have hlow : ∀ u, Steady .inside .inside (lowHalf u) := fun u =>
    .bind (exactly_steady (q := .escaped) ⟨rfl, rfl⟩) fun _ =>
      .bind (exactly_steady ⟨rfl, rfl⟩) fun _ => .bind fourDigits_steady fun _ => .give _
  exact .ifNext (.of_eq ⟨rfl, rfl⟩)
    (.bind fourDigits_steady fun u => .ite (.give _) (.ite (hlow u) (.give _)))
    (.one leads_of_unescape)

theorem fourDigits_cons (a b c d : Char) (rest : List Char) :
    fourDigits (a :: b :: c :: d :: rest) = (hexUnit a b c d).map (·, rest) := by
  simp only [fourDigits, hexUnit, bind, one, give, Option.bind_eq_bind, Option.bind_map,
    Option.map_bind, Option.map_some, Option.pure_def, Function.comp_def]

/-- Less than four digits are none. -/
theorem fourDigits_short {cs : List Char} (h : cs.length < 4) : fourDigits cs = none := by
  match cs with
  | [] => rfl
  | [a] => simp [fourDigits, bind, one]
  | [a, b] => simp [fourDigits, bind, one]
  | [a, b, c] => simp [fourDigits, bind, one]
  | _ :: _ :: _ :: _ :: _ => exact absurd h (by simp)

theorem exactly_cons (c d : Char) (rest : List Char) :
    exactly d (c :: rest) = if c = d then some ((), rest) else none := by
  rw [exactly, one]
  split <;> rfl

theorem exists_four {cs : List Char} (h : 4 ≤ cs.length) :
    ∃ a b c d rest, cs = a :: b :: c :: d :: rest := by
  match cs with
  | a :: b :: c :: d :: rest => exact ⟨a, b, c, d, rest, rfl⟩

theorem lowHalf_cons (high : Nat) (a b c d : Char) (rest : List Char) :
    lowHalf high ('\\' :: 'u' :: a :: b :: c :: d :: rest) =
      (hexUnit a b c d).bind fun low =>
        if isLowHalf low then
          some (Char.ofNat (0x10000 + (high - 0xD800) * 0x400 + (low - 0xDC00)), rest)
        else none := by
  rw [lowHalf, bind, exactly_cons, if_pos rfl, Option.bind_some, bind, exactly_cons, if_pos rfl,
    Option.bind_some, bind, fourDigits_cons]
  cases hexUnit a b c d with
  | none => rfl
  | some low =>
    dsimp only [Option.map_some, Option.bind_some]
    split <;> rfl

theorem lowHalf_eq_none (high : Nat) {cs : List Char}
    (h : ∀ a b c d rest, cs = '\\' :: 'u' :: a :: b :: c :: d :: rest → False) :
    lowHalf high cs = none := by
  rcases cs with _ | ⟨e, cs⟩
  · rfl
  · rw [lowHalf, bind, exactly_cons]
    split
    · rename_i he
      rcases cs with _ | ⟨f, cs⟩
      · rfl
      · rw [Option.bind_some, bind, exactly_cons]
        split
        · rename_i hf
          rw [Option.bind_some, bind, fourDigits_short, Option.bind_none]
          by_contra hlength
          obtain ⟨a, b, c, d, rest, rfl⟩ := exists_four (Nat.le_of_not_lt hlength)
          exact h a b c d rest (by rw [he, hf])
        · rfl
    · rfl

/-! ## Strings -/

theorem stringBody_escape (read cs : List Char) :
    stringBody read ('\\' :: cs) = (escape cs).bind fun x => stringBody (x.1 :: read) x.2 := by
  rcases cs with _ | ⟨e, cs⟩
  · rfl
  · by_cases he : e = 'u'
    · subst he
      have hescape : escape ('u' :: cs) = (fourDigits cs).bind fun x => ofUnit x.1 x.2 := rfl
      by_cases hlength : cs.length < 4
      · rw [hescape, fourDigits_short hlength]
        match cs with
        | [] => rfl
        | [a] => simp [stringBody, unescape]
        | [a, b] => simp [stringBody, unescape]
        | [a, b, c] => simp [stringBody, unescape]
      · obtain ⟨a, b, c, d, rest, rfl⟩ := exists_four (Nat.le_of_not_lt hlength)
        rw [hescape, fourDigits_cons, stringBody]
        cases hexUnit a b c d with
        | none => rfl
        | some u =>
          dsimp only [Option.map_some, Option.bind_some]
          rw [ofUnit]
          split
          · rfl
          · split
            · split
              · rename_i e f g h _
                rw [lowHalf_cons]
                cases hexUnit e f g h with
                | none => rfl
                | some low =>
                  cases hlow : isLowHalf low with
                  | true => simp only [Option.bind_some, hlow, if_true]
                  | false => simp [hlow]
              · rename_i hother
                rw [lowHalf_eq_none u hother]
                rfl
            · rfl
    · have hescape : escape (e :: cs) = (unescape e).map (·, cs) := if_neg (by simpa using he)
      rw [hescape, stringBody]
      · cases unescape e <;> rfl
      · exact fun _ _ _ _ _ h => absurd h he

end Reader

end Statechart.Json
