import Statechart.Guard.Cursor
import Statechart.Proofs.Reading

/-!
# Statechart.Proofs.Cursor

Reading with a cursor does what the reader of guard expressions does, on every text: no cut fails,
no loop runs out of fuel, and the cursor moves forward only, from one place between characters to
another.

* `Cursor.Stands`: the invariant of the cursor, in terms of what is left of the text.
* `Scan.Follows`: a step with the cursor keeps the invariant, and comes to what the reader comes
  to. One lemma per step, and `bind` for their sequence.
* `Scan.Tracks`: the same for the steps that read expressions, each on texts that are short enough
  for its fuel.
* `GuardExpr.exists_renders_before`: input that is left over is behind an expression.
-/

namespace Statechart

open Text

namespace Text

@[simp] theorem byteLength_nil : byteLength [] = 0 := rfl

theorem foldl_utf8Size (cs : List Char) (n : Nat) :
    cs.foldl (fun n c => n + c.utf8Size) n = n + byteLength cs := by
  induction cs generalizing n with
  | nil => rfl
  | cons c cs ih => rw [byteLength, List.foldl_cons, List.foldl_cons, ih, ih]; omega

@[simp] theorem byteLength_cons (c : Char) (cs : List Char) :
    byteLength (c :: cs) = c.utf8Size + byteLength cs := by
  rw [byteLength, List.foldl_cons, foldl_utf8Size, Nat.zero_add]

@[simp] theorem byteLength_append (cs ds : List Char) :
    byteLength (cs ++ ds) = byteLength cs + byteLength ds := by
  rw [byteLength, List.foldl_append, foldl_utf8Size, ← byteLength]

theorem byteLength_pos {cs : List Char} (h : cs ≠ []) : 0 < byteLength cs := by
  cases cs with
  | nil => exact absurd rfl h
  | cons c cs =>
    have := c.utf8Size_pos
    rw [byteLength_cons]
    omega

theorem byteLength_toList (s : String) : byteLength s.toList = s.utf8ByteSize := by
  have h : ∀ cs : List Char, byteLength cs = (String.ofList cs).utf8ByteSize := by
    intro cs
    induction cs with
    | nil => rfl
    | cons c cs ih => simp [String.ofList_cons, ih]
  simpa using h s.toList

/-! ## Cuts -/

theorem fromByte?_cons {c : Char} {cs : List Char} {n : Nat} (h : c.utf8Size ≤ n) :
    fromByte? (c :: cs) n = fromByte? cs (n - c.utf8Size) := by
  have hpos := c.utf8Size_pos
  obtain ⟨n, rfl⟩ := Nat.exists_eq_succ_of_ne_zero (by omega : n ≠ 0)
  rw [fromByte?, if_pos h]

theorem upToByte?_cons {c : Char} {cs : List Char} {n : Nat} (h : c.utf8Size ≤ n) :
    upToByte? (c :: cs) n = (upToByte? cs (n - c.utf8Size)).map (c :: ·) := by
  have hpos := c.utf8Size_pos
  obtain ⟨n, rfl⟩ := Nat.exists_eq_succ_of_ne_zero (by omega : n ≠ 0)
  rw [upToByte?, if_pos h]

theorem fromByte?_append (front rest : List Char) :
    fromByte? (front ++ rest) (byteLength front) = some rest := by
  induction front with
  | nil => cases rest <;> rfl
  | cons c front ih =>
    rw [List.cons_append, byteLength_cons, fromByte?_cons (Nat.le_add_right _ _),
      Nat.add_sub_cancel_left, ih]

theorem upToByte?_append (front rest : List Char) :
    upToByte? (front ++ rest) (byteLength front) = some front := by
  induction front with
  | nil => cases rest <;> rfl
  | cons c front ih =>
    rw [List.cons_append, byteLength_cons, upToByte?_cons (Nat.le_add_right _ _),
      Nat.add_sub_cancel_left, ih, Option.map_some]

theorem between?_append (front cs rest : List Char) :
    between? (front ++ (cs ++ rest)) (byteLength front) (byteLength front + byteLength cs) =
      some cs := by
  rw [between?, if_pos (Nat.le_add_right _ _), fromByte?_append, Option.bind_some,
    Nat.add_sub_cancel_left, upToByte?_append]

/-- The byte begins a character, or ends the text. -/
def Boundary (text : List Char) (n : Nat) : Prop :=
  ∃ front rest, text = front ++ rest ∧ byteLength front = n

end Text

/-- Reads an expression, and the white space behind it up to the end of the text. -/
def GuardExpr.toEnd (cs : List Char) : Except GuardError (GuardExpr × List Char) := do
  let (e, rest) ← expression cs
  if (dropBlank rest).isEmpty then .ok (e, dropBlank rest)
  else .error (.unexpectedInput (byteLength cs - byteLength (dropBlank rest)))

/-! ## Cursors -/

/-- The cursor stands before the rest of the text. It has come there without going back, from
places between characters. -/
structure Cursor.Stands (text rest : List Char) (c : Cursor) : Prop where
  here : ∃ front, text = front ++ rest ∧ byteLength front = c.position
  passed : ∀ n ∈ c.passed, Boundary text n
  ascending : (c.position :: c.passed).Pairwise (· ≥ ·)

namespace Scan

variable {α β : Type} {text cs rest : List Char}

/-- What comes of reading with a cursor is what comes of reading the rest of the text. -/
inductive Ends (text : List Char) :
    EStateM.Result Halt Cursor α → Except GuardError (α × List Char) → Prop where
  | read {a : α} {c : Cursor} {rest : List Char} :
      c.Stands text rest → Ends text (.ok a c) (.ok (a, rest))
  | refused {e : GuardError} {c : Cursor} {rest : List Char} :
      c.Stands text rest → Ends text (.error (.refused e) c) (.error e)

def Follows (text : List Char) (m : Scan α) (cs : List Char)
    (result : Except GuardError (α × List Char)) : Prop :=
  ∀ c : Cursor, c.Stands text cs → Ends text (m c) result

theorem Follows.bind {m : Scan α} {f : α → Scan β} {x : Except GuardError (α × List Char)}
    {g : α × List Char → Except GuardError (β × List Char)} (hm : Follows text m cs x)
    (hf : ∀ a rest, x = .ok (a, rest) → Follows text (f a) rest (g (a, rest))) :
    Follows text (m >>= f) cs (x >>= g) := by
  intro c hc
  show Ends text (EStateM.bind m f c) _
  have h := hm c hc
  unfold EStateM.bind
  generalize m c = r at h
  cases h with
  | read hread => exact hf _ _ rfl _ hread
  | refused hrefused => exact .refused hrefused

/-- A step that reads for certain. -/
theorem Follows.andThen {m : Scan α} {f : α → Scan β} {a : α}
    {x : Except GuardError (β × List Char)} (hm : Follows text m cs (.ok (a, rest)))
    (hf : Follows text (f a) rest x) : Follows text (m >>= f) cs x :=
  hm.bind (x := .ok (a, rest)) (g := fun _ => x) fun _ _ h => by cases h; exact hf

theorem follows_pure (a : α) : Follows text (pure a) cs (.ok (a, cs)) :=
  fun _ hc => .read hc

theorem follows_refuse (e : GuardError) : Follows text (refuse e : Scan α) cs (.error e) :=
  fun _ hc => .refused hc

/-- The rest of the text ends it. -/
theorem Follows.of_suffix {m : Scan α} {x : Except GuardError (α × List Char)}
    (h : cs <:+ text → Follows text m cs x) : Follows text m cs x := by
  intro c hc
  obtain ⟨front, htext, -⟩ := hc.here
  exact h ⟨front, htext.symm⟩ c hc

theorem position_follows :
    Follows text position cs (.ok (byteLength text - byteLength cs, cs)) := by
  intro c hc
  obtain ⟨front, htext, hposition⟩ := hc.here
  have hsame : byteLength text - byteLength cs = c.position := by
    rw [htext, byteLength_append, Nat.add_sub_cancel_right, hposition]
  rw [hsame]
  exact .read hc

theorem advance_follows {n : Nat} (front : List Char) (hn : byteLength front = n) :
    Follows text (advance n) (front ++ rest) (.ok ((), rest)) := by
  intro c hc
  obtain ⟨before, htext, hposition⟩ := hc.here
  refine .read ⟨⟨before ++ front, by rw [htext, List.append_assoc], ?_⟩, ?_, ?_⟩
  · rw [byteLength_append, hposition, hn]
  · exact List.forall_mem_cons.2 ⟨⟨before, _, htext, hposition⟩, hc.passed⟩
  · refine List.pairwise_cons.2 ⟨fun p hp => ?_, hc.ascending⟩
    rcases List.mem_cons.1 hp with rfl | hp
    · exact Nat.le_add_right _ _
    · exact Nat.le_trans ((List.pairwise_cons.1 hc.ascending).1 p hp) (Nat.le_add_right _ _)

theorem remaining_follows : Follows text (remaining text) cs (.ok (cs, cs)) := by
  intro c hc
  obtain ⟨front, htext, hposition⟩ := hc.here
  have hcut : fromByte? text c.position = some cs := by
    rw [htext, ← hposition, fromByte?_append]
  show Ends text (orMisplaced (fromByte? text c.position) c) _
  rw [hcut]
  exact .read hc

theorem passedFrom_follows {taken : List Char} (hs : cs <:+ text) (hcs : cs = taken ++ rest) :
    Follows text (passedFrom text (byteLength text - byteLength cs)) rest (.ok (taken, rest)) := by
  intro c hc
  obtain ⟨front, htext⟩ := hs
  obtain ⟨before, htext', hposition⟩ := hc.here
  have hstart : byteLength text - byteLength cs = byteLength front := by
    rw [← htext, byteLength_append, Nat.add_sub_cancel_right]
  have hstop : c.position = byteLength front + byteLength taken := by
    have hbefore : before = front ++ taken :=
      List.append_cancel_right (by rw [← htext', List.append_assoc, ← hcs, htext])
    rw [← hposition, hbefore, byteLength_append]
  have hcut : between? text (byteLength text - byteLength cs) c.position = some taken := by
    rw [hstart, hstop, ← htext, hcs, between?_append]
  show Ends text (orMisplaced (between? text _ c.position) c) _
  rw [hcut]
  exact .read hc

theorem peek_follows : Follows text (peek text) cs (.ok (cs.head?, cs)) :=
  remaining_follows.andThen (follows_pure _)

theorem atEnd_follows : Follows text (atEnd text) cs (.ok (cs.isEmpty, cs)) := by
  refine .of_suffix fun ⟨front, htext⟩ => position_follows.andThen ?_
  have hend : decide (byteLength text ≤ byteLength text - byteLength cs) = cs.isEmpty := by
    rw [← htext, byteLength_append, Nat.add_sub_cancel_right]
    cases cs with
    | nil => simp
    | cons c cs =>
      have hpos := byteLength_pos (List.cons_ne_nil c cs)
      rw [List.isEmpty_cons]
      exact decide_eq_false (by omega)
  rw [hend]
  exact follows_pure _

theorem eat_some {token : List Char} (h : GuardExpr.strip? token cs = some rest) :
    Follows text (eat text token) cs (.ok (true, rest)) := by
  obtain rfl := GuardExpr.strip?_eq_some.1 h
  refine remaining_follows.andThen ?_
  rw [if_pos (List.isPrefixOf_iff_prefix.2 (List.prefix_append token rest))]
  exact (advance_follows token rfl).andThen (follows_pure true)

theorem strip?_eq_none {token : List Char} (h : ∀ rest, cs ≠ token ++ rest) :
    GuardExpr.strip? token cs = none :=
  Option.eq_none_iff_forall_ne_some.2 fun rest hrest => h rest (GuardExpr.strip?_eq_some.1 hrest)

theorem eat_none {token : List Char} (h : GuardExpr.strip? token cs = none) :
    Follows text (eat text token) cs (.ok (false, cs)) := by
  refine remaining_follows.andThen ?_
  have hnot : ¬ token.isPrefixOf cs = true := by
    intro hprefix
    rw [GuardExpr.strip?, if_pos hprefix] at h
    cases h
  rw [if_neg hnot]
  exact follows_pure false

/-- Whether a token comes next decides what is read. -/
theorem Follows.ifEat {token : List Char} {yes no : Scan α}
    {y : List Char → Except GuardError (α × List Char)} {n : Except GuardError (α × List Char)}
    (hyes : ∀ rest, GuardExpr.strip? token cs = some rest → Follows text yes rest (y rest))
    (hno : GuardExpr.strip? token cs = none → Follows text no cs n) :
    Follows text (eat text token >>= fun eaten => if eaten = true then yes else no) cs
      (match GuardExpr.strip? token cs with
        | some rest => y rest
        | none => n) := by
  cases h : GuardExpr.strip? token cs with
  | some rest => exact (eat_some h).andThen (hyes rest h)
  | none => exact (eat_none h).andThen (hno h)

/-- A token that stands for a value. -/
theorem Follows.ifToken {token : List Char} {a : α} {no : Scan α}
    {n : Except GuardError (α × List Char)} (hno : Follows text no cs n) :
    Follows text (eat text token >>= fun eaten => if eaten = true then pure a else no) cs
      (match GuardExpr.strip? token cs with
        | some rest => .ok (a, rest)
        | none => n) :=
  .ifEat (fun _ _ => follows_pure a) fun _ => hno

/-! ## Tokens -/

theorem passWhile_follows {p : Char → Bool} {width : Char → Nat} {fuel : Nat}
    (hwidth : ∀ c, p c = true → c.utf8Size = width c) (hfuel : cs.length < fuel) :
    Follows text (passWhile text p width fuel) cs (.ok ((), cs.dropWhile p)) := by
  induction fuel generalizing cs with
  | zero => cases hfuel
  | succ fuel ih =>
    refine peek_follows.andThen ?_
    cases cs with
    | nil => exact follows_pure ()
    | cons c cs =>
      rw [List.dropWhile_cons]
      by_cases hp : p c = true
      · rw [if_pos hp]
        simp only [List.head?_cons, hp, if_true]
        have hone : byteLength [c] = width c := by simp [hwidth c hp]
        exact (advance_follows [c] hone).andThen (ih (Nat.lt_of_succ_lt_succ hfuel))
      · rw [if_neg hp]
        simp only [List.head?_cons, hp]
        exact follows_pure ()

theorem passBlank_follows {fuel : Nat} (hfuel : cs.length < fuel) :
    Follows text (passBlank text fuel) cs (.ok ((), dropBlank cs)) :=
  passWhile_follows (fun _ _ => rfl) hfuel

theorem utf8Size_of_isNumberChar {c : Char} (h : GuardExpr.isNumberChar c = true) :
    c.utf8Size = 1 := by
  rcases GuardExpr.isNumberChar_iff.1 h with hdigit | rfl
  · have hle : c.val ≤ 57 := by
      simp only [Char.isDigit, Bool.and_eq_true, decide_eq_true_eq] at hdigit
      exact hdigit.2
    exact Char.utf8Size_eq_one_iff.2 (UInt32.le_trans hle (by decide))
  · rfl

theorem path_follows {fuel : Nat} (scope : Scope) (hfuel : cs.length < fuel) :
    Follows text (path text fuel scope) cs (GuardExpr.path scope cs) := by
  refine .of_suffix fun hs => position_follows.andThen ?_
  refine (passWhile_follows (fun _ _ => rfl) hfuel).andThen ?_
  refine (passedFrom_follows hs List.takeWhile_append_dropWhile.symm).andThen ?_
  simp only [GuardExpr.path]
  split
  · exact follows_refuse _
  · exact follows_pure _

theorem field_follows {fuel : Nat} (hfuel : cs.length < fuel) :
    Follows text (field text fuel) cs (GuardExpr.field cs) := by
  have hscope : Follows text (scope text) cs
      (match GuardExpr.strip? ['c', 't', 'x', '.'] cs with
        | some rest => .ok (.context, rest)
        | none =>
          match GuardExpr.strip? ['e', 'v', 'e', 'n', 't', '.'] cs with
          | some rest => .ok (.event, rest)
          | none => .error .noField) :=
    .ifToken (.ifToken (follows_refuse _))
  have hshorter : ∀ {token rest}, GuardExpr.strip? token cs = some rest → rest.length < fuel := by
    intro token rest h
    obtain rfl := GuardExpr.strip?_eq_some.1 h
    rw [List.length_append] at hfuel
    omega
  unfold GuardExpr.field
  cases hcontext : GuardExpr.strip? ['c', 't', 'x', '.'] cs with
  | some rest =>
    rw [hcontext] at hscope
    exact hscope.andThen (path_follows .context (hshorter hcontext))
  | none =>
    rw [hcontext] at hscope
    cases hevent : GuardExpr.strip? ['e', 'v', 'e', 'n', 't', '.'] cs with
    | some rest =>
      rw [hevent] at hscope
      exact hscope.andThen (path_follows .event (hshorter hevent))
    | none =>
      rw [hevent] at hscope
      exact hscope.bind (g := fun _ => .error .noField) fun _ _ h => by cases h

/-- The rest of a quoted string behind a backslash. -/
def escaped (read : List Char) : List Char → Except GuardError (String × List Char)
  | [] => .error .unterminatedString
  | c :: rest => GuardExpr.quoted (c :: read) rest

theorem quoted_backslash (read cs : List Char) :
    GuardExpr.quoted read ('\\' :: cs) = escaped read cs := by
  cases cs <;> rfl

theorem quoted_follows {fuel : Nat} (read : List Char) (hfuel : cs.length < fuel) :
    Follows text (quoted text fuel false read) cs (GuardExpr.quoted read cs) ∧
      Follows text (quoted text fuel true read) cs (escaped read cs) := by
  induction fuel generalizing read cs with
  | zero => cases hfuel
  | succ fuel ih =>
    cases cs with
    | nil =>
      exact ⟨peek_follows.andThen (follows_refuse _), peek_follows.andThen (follows_refuse _)⟩
    | cons c cs =>
      have hrest : cs.length < fuel := Nat.lt_of_succ_lt_succ hfuel
      have hone : byteLength [c] = c.utf8Size := by simp
      refine ⟨peek_follows.andThen ((advance_follows [c] hone).andThen ?_),
        peek_follows.andThen ((advance_follows [c] hone).andThen (ih (c :: read) hrest).1)⟩
      by_cases hslash : c = '\\'
      · subst hslash
        rw [quoted_backslash]
        exact (ih read hrest).2
      · by_cases hquote : c = '"'
        · subst hquote
          exact follows_pure _
        · have hnext : GuardExpr.quoted read (c :: cs) = GuardExpr.quoted (c :: read) cs := by
            rw [GuardExpr.quoted]
            · exact hquote
            · exact fun h => absurd h hslash
            · exact fun _ _ h => absurd h hslash
          rw [hnext]
          simp only [hslash, hquote, if_false]
          exact (ih (c :: read) hrest).1

theorem numberOfText?_append {negative : Bool} {body : List Char}
    (hbody : ∀ c ∈ body, GuardExpr.isNumberChar c = true) :
    numberOfText? (sign negative ++ body) = GuardExpr.numberOf? negative body := by
  cases negative with
  | true => rfl
  | false =>
    cases body with
    | nil => rfl
    | cons c body =>
      have hc : c ≠ '-' := by
        rintro rfl
        cases hbody '-' List.mem_cons_self
      show numberOfText? (c :: body) = _
      rw [numberOfText?]
      rintro _ ⟨⟩
      exact hc rfl

theorem unsigned_follows {fuel : Nat} (negative : Bool) (hfuel : cs.length < fuel)
    (hs : sign negative ++ cs <:+ text) :
    Follows text (do
      passWhile text GuardExpr.isNumberChar (fun _ => 1) fuel
      let written ← passedFrom text (byteLength text - byteLength (sign negative ++ cs))
      match numberOfText? written with
      | some v => return v
      | none => refuse (.invalidNumber (String.ofList written)))
      cs (GuardExpr.unsigned negative cs) := by
  refine (passWhile_follows (fun _ hc => utf8Size_of_isNumberChar hc) hfuel).andThen ?_
  have hcs : sign negative ++ cs = (sign negative ++ cs.takeWhile GuardExpr.isNumberChar) ++
      cs.dropWhile GuardExpr.isNumberChar := by
    rw [List.append_assoc, List.takeWhile_append_dropWhile]
  refine (passedFrom_follows hs hcs).andThen ?_
  rw [numberOfText?_append fun c hc => List.mem_takeWhile_imp hc, GuardExpr.unsigned]
  have hwritten : (if negative = true then '-' :: cs.takeWhile GuardExpr.isNumberChar
      else cs.takeWhile GuardExpr.isNumberChar) =
      sign negative ++ cs.takeWhile GuardExpr.isNumberChar := by
    cases negative <;> rfl
  simp only [hwritten]
  cases GuardExpr.numberOf? negative (cs.takeWhile GuardExpr.isNumberChar) with
  | some v => exact follows_pure v
  | none => exact follows_refuse _

theorem number_follows {fuel : Nat} (hfuel : cs.length < fuel) :
    Follows text (number text fuel) cs (GuardExpr.number cs) := by
  refine .of_suffix fun hs => position_follows.andThen ?_
  by_cases hminus : ∃ tail, cs = '-' :: tail
  · obtain ⟨tail, rfl⟩ := hminus
    rw [GuardExpr.number_minus]
    have hpassed : Follows text (passMinus text) ('-' :: tail) (.ok ((), tail)) :=
      peek_follows.andThen (advance_follows ['-'] rfl)
    exact hpassed.andThen (unsigned_follows true (Nat.lt_of_succ_lt hfuel) hs)
  · rw [GuardExpr.number_of_ne_minus fun tail htail => hminus ⟨tail, htail⟩]
    have hpassed : Follows text (passMinus text) cs (.ok ((), cs)) := by
      refine peek_follows.andThen ?_
      split
      · rename_i hhead
        obtain ⟨tail, htail⟩ := List.head?_eq_some_iff.1 hhead
        exact absurd ⟨tail, htail⟩ hminus
      · exact follows_pure ()
    exact hpassed.andThen (unsigned_follows false hfuel hs)

theorem literal_follows {fuel : Nat} (hfuel : cs.length < fuel) :
    Follows text (literal text fuel) cs (GuardExpr.literal cs) := by
  unfold GuardExpr.literal
  refine .ifToken (.ifToken (.ifToken (peek_follows.andThen ?_)))
  by_cases hquote : ∃ tail, cs = '"' :: tail
  · obtain ⟨tail, rfl⟩ := hquote
    have hquoted : Follows text (quoted text fuel false []) tail (GuardExpr.quoted [] tail) :=
      (quoted_follows [] (Nat.lt_of_succ_lt hfuel)).1
    exact (advance_follows ['"'] rfl).andThen
      (hquoted.bind fun s rest _ => follows_pure (Json.str s))
  · split
    · rename_i hhead
      obtain ⟨tail, htail⟩ := List.head?_eq_some_iff.1 hhead
      exact absurd ⟨tail, htail⟩ hquote
    · split
      · rename_i tail _
        exact absurd ⟨tail, rfl⟩ hquote
      · exact number_follows hfuel

/-- Comparisons of two characters are tried before those of one. -/
theorem comparison?_eq (cs : List Char) :
    (match GuardExpr.comparison? cs with
      | some (op, rest) => Except.ok (some op, rest)
      | none => Except.ok (none, cs) : Except GuardError (Option Comparison × List Char)) =
      match GuardExpr.strip? ['=', '='] cs with
      | some rest => .ok (some .eq, rest)
      | none =>
        match GuardExpr.strip? ['!', '='] cs with
        | some rest => .ok (some .ne, rest)
        | none =>
          match GuardExpr.strip? ['>', '='] cs with
          | some rest => .ok (some .ge, rest)
          | none =>
            match GuardExpr.strip? ['<', '='] cs with
            | some rest => .ok (some .le, rest)
            | none =>
              match GuardExpr.strip? ['>'] cs with
              | some rest => .ok (some .gt, rest)
              | none =>
                match GuardExpr.strip? ['<'] cs with
                | some rest => .ok (some .lt, rest)
                | none => .ok (none, cs) := by
  by_cases hlong : ∃ c rest, cs = c :: '=' :: rest ∧ c ∈ ['=', '!', '>', '<']
  · obtain ⟨c, rest, rfl, hc⟩ := hlong
    simp only [List.mem_cons, List.not_mem_nil, or_false] at hc
    rcases hc with rfl | rfl | rfl | rfl <;> rfl
  · have hnone : ∀ c ∈ ['=', '!', '>', '<'], GuardExpr.strip? [c, '='] cs = none :=
      fun c hc => strip?_eq_none fun rest hcs => hlong ⟨c, rest, hcs, hc⟩
    rw [hnone '=' (by simp), hnone '!' (by simp), hnone '>' (by simp), hnone '<' (by simp)]
    cases hop : GuardExpr.comparison? cs with
    | some found =>
      obtain ⟨op, rest⟩ := found
      obtain rfl := GuardExpr.comparison?_eq_some hop
      cases op with
      | gt => rfl
      | lt => rfl
      | _ => exact absurd ⟨_, rest, rfl, by decide⟩ hlong
    | none =>
      have hshort : ∀ (op : Comparison) (c : Char), op.text.toList = [c] →
          c ∈ ['=', '!', '>', '<'] → GuardExpr.strip? [c] cs = none := by
        intro op c htext hc
        refine strip?_eq_none fun rest hcs => ?_
        subst hcs
        have hhead : rest.head? ≠ some '=' := by
          intro hhead
          obtain ⟨tail, rfl⟩ := List.head?_eq_some_iff.1 hhead
          exact hlong ⟨c, tail, rfl, hc⟩
        rw [← htext, GuardExpr.comparison?_append hhead] at hop
        cases hop
      rw [hshort .gt '>' rfl (by simp), hshort .lt '<' rfl (by simp)]

theorem comparison_follows (text cs : List Char) :
    Follows text (comparison text) cs
      (match GuardExpr.comparison? cs with
        | some (op, rest) => .ok (some op, rest)
        | none => .ok (none, cs)) := by
  rw [comparison?_eq]
  exact .ifToken (.ifToken (.ifToken (.ifToken (.ifToken (.ifToken (follows_pure none))))))

/-! ## Expressions -/

theorem operand_follows {fuel : Nat} (op : Comparison) (hfuel : cs.length < fuel) :
    Follows text (operand text fuel op) cs (GuardExpr.operand op cs) := by
  cases op with
  | eq => exact literal_follows hfuel
  | ne => exact literal_follows hfuel
  | _ => exact number_follows hfuel

/-- Skipping white space leaves no more than there was. -/
theorem length_dropBlank_le (cs : List Char) : (dropBlank cs).length ≤ cs.length :=
  (List.dropWhile_suffix _).length_le

theorem atom_follows {fuel : Nat} (hfuel : cs.length < fuel) :
    Follows text (atom text fuel) cs (GuardExpr.atom cs) := by
  refine (field_follows hfuel).bind fun f tail hfield => ?_
  have htail : tail.length < fuel := by
    obtain ⟨-, hcs⟩ := GuardExpr.field_eq_ok hfield
    rw [hcs, List.length_append] at hfuel
    omega
  have hblank := length_dropBlank_le tail
  refine (passBlank_follows htail).andThen ?_
  have hcomparison := comparison_follows text (dropBlank tail)
  cases hop : GuardExpr.comparison? (dropBlank tail) with
  | none =>
    rw [hop] at hcomparison
    refine hcomparison.andThen ?_
    simp only [hop]
    exact follows_pure _
  | some found =>
    obtain ⟨op, more⟩ := found
    rw [hop] at hcomparison
    have hmore : more.length < fuel := by
      have hlength := congrArg List.length (GuardExpr.comparison?_eq_some hop)
      rw [List.length_append] at hlength
      omega
    have hgap := length_dropBlank_le more
    refine hcomparison.andThen ((passBlank_follows hmore).andThen ?_)
    have hoperand : Follows text (operand text fuel op) (dropBlank more)
        (GuardExpr.operand op (dropBlank more)) := operand_follows op (by omega)
    simp only [hop]
    cases op <;> exact hoperand.bind fun v rest _ => follows_pure _

/-- With texts no longer than the bound, the cursor reads what the reader reads. -/
def Tracks (text : List Char) (bound : Nat) (m : Scan GuardExpr) (read : GuardExpr.Reader) : Prop :=
  ∀ cs, cs.length ≤ bound → Follows text m cs (read cs)

/-- A reader of expressions leaves less than there was. -/
theorem shorter_of_reads {L : GuardExpr.Level} {read : GuardExpr.Reader}
    (h : GuardExpr.Reads L read) {e : GuardExpr} (hread : read cs = .ok (e, rest)) :
    rest.length < cs.length := by
  obtain ⟨ws, body, ws', rfl, -, -, hbody⟩ := h _ _ _ hread
  obtain ⟨c, tail, rfl, -⟩ := hbody.solid.begins
  simp only [List.length_append, List.length_cons]
  omega

section Chains

variable {L : GuardExpr.Level} {m : Scan GuardExpr} {read : GuardExpr.Reader}
  {bound fuel fuel' : Nat}

theorem chain_follows {c : Char} {token : List Char}
    {connect : GuardExpr → GuardExpr → GuardExpr} {blanks : Nat} (hm : Tracks text bound m read)
    (hread : GuardExpr.Reads L read) (hblanks : bound < blanks) (left : GuardExpr)
    (hcs : cs.length ≤ bound) (hfuel : cs.length < fuel) (hfuel' : cs.length < fuel') :
    Follows text (chain text (c :: token) connect m blanks fuel left) cs
      (GuardExpr.chain (c :: token) connect read fuel' left cs) := by
  induction fuel generalizing cs left fuel' with
  | zero => cases hfuel
  | succ fuel ih =>
    obtain ⟨fuel', rfl⟩ := Nat.exists_eq_succ_of_ne_zero (Nat.ne_zero_of_lt hfuel')
    have hblank := length_dropBlank_le cs
    refine (passBlank_follows (Nat.lt_of_le_of_lt hcs hblanks)).andThen ?_
    rw [GuardExpr.chain]
    cases h : GuardExpr.strip? (c :: token) (dropBlank cs) with
    | none => exact (eat_none h).andThen (follows_pure left)
    | some tail =>
      have htail : tail.length < (dropBlank cs).length := by
        rw [GuardExpr.strip?_eq_some.1 h, List.length_append, List.length_cons]
        omega
      refine (eat_some h).andThen ((hm tail (by omega)).bind fun right rest hright => ?_)
      have hrest := shorter_of_reads hread hright
      exact ih (connect left right) (by omega) (by omega) (by omega)

theorem conjunction_tracks (hm : Tracks text bound m read) (hread : GuardExpr.Reads .unary read)
    (hfuel : bound < fuel) (hfuel' : bound < fuel') :
    Tracks text bound (conjunction text m fuel) (GuardExpr.conjunction read fuel') := by
  intro cs hcs
  refine (hm cs hcs).bind fun left rest hleft => ?_
  have hrest := shorter_of_reads hread hleft
  exact chain_follows hm hread hfuel left (by omega) (by omega) (by omega)

theorem disjunction_tracks (hm : Tracks text bound m read) (hread : GuardExpr.Reads .unary read)
    (hfuel : bound < fuel) (hfuel' : bound < fuel') :
    Tracks text bound (disjunction text m fuel) (GuardExpr.disjunction read fuel') := by
  intro cs hcs
  have hoperands := conjunction_tracks hm hread hfuel hfuel'
  have hreads := GuardExpr.conjunction_reads hread fuel'
  refine (hoperands cs hcs).bind fun left rest hleft => ?_
  have hrest := shorter_of_reads hreads hleft
  exact chain_follows hoperands hreads hfuel left (by omega) (by omega) (by omega)

theorem closing_follows (e : GuardExpr) (hfuel : cs.length < fuel) :
    Follows text (do
      passBlank text fuel
      if ← eat text [')'] then
        return e
      else
        refuse .unclosedParenthesis) cs
      (match dropBlank cs with
        | ')' :: rest => .ok (e, rest)
        | _ => .error .unclosedParenthesis) := by
  refine (passBlank_follows hfuel).andThen ?_
  cases h : GuardExpr.strip? [')'] (dropBlank cs) with
  | some rest =>
    rw [GuardExpr.strip?_eq_some.1 h]
    exact (eat_some rfl).andThen (follows_pure e)
  | none =>
    refine (eat_none h).andThen ?_
    show Follows text (refuse .unclosedParenthesis) _ _
    split
    · rename_i rest hrest
      rw [hrest] at h
      cases h
    · exact follows_refuse _

theorem unary_tracks {levels levels' : Nat} (hfuel : bound < fuel) (hfuel' : bound < fuel')
    (hlevels : bound < levels) (hlevels' : bound < levels') :
    Tracks text bound (unary text fuel levels) (GuardExpr.unary fuel' levels') := by
  induction levels generalizing bound levels' with
  | zero => cases hlevels
  | succ levels ih =>
    obtain ⟨levels', rfl⟩ := Nat.exists_eq_succ_of_ne_zero (Nat.ne_zero_of_lt hlevels')
    intro cs hcs
    have hblank := length_dropBlank_le cs
    refine (passBlank_follows (by omega)).andThen ?_
    rw [GuardExpr.unary]
    split
    · rename_i rest hrest
      have hlength := congrArg List.length hrest
      rw [List.length_cons] at hlength
      have hinner : Tracks text rest.length (unary text fuel levels)
          (GuardExpr.unary fuel' levels') :=
        ih (by omega) (by omega) (by omega) (by omega)
      refine (eat_some (GuardExpr.strip?_eq_some.2 hrest)).andThen ?_
      exact (hinner rest (Nat.le_refl _)).bind fun e tail _ => follows_pure _
    · rename_i rest hrest
      have hlength := congrArg List.length hrest
      rw [List.length_cons] at hlength
      have hinner : Tracks text rest.length (unary text fuel levels)
          (GuardExpr.unary fuel' levels') :=
        ih (by omega) (by omega) (by omega) (by omega)
      have hopen : GuardExpr.strip? ['!'] (dropBlank cs) = none := by rw [hrest]; rfl
      refine (eat_none hopen).andThen ?_
      refine (eat_some (GuardExpr.strip?_eq_some.2 hrest)).andThen ?_
      have hexpr : Tracks text rest.length (disjunction text (unary text fuel levels) fuel)
          (GuardExpr.disjunction (GuardExpr.unary fuel' levels') fuel') :=
        disjunction_tracks hinner (GuardExpr.unary_reads fuel' levels') (by omega) (by omega)
      have hreads := GuardExpr.disjunction_reads (GuardExpr.unary_reads fuel' levels') fuel'
      refine (hexpr rest (Nat.le_refl _)).bind fun e tail htail => ?_
      have hshort := shorter_of_reads hreads htail
      exact closing_follows e (by omega)
    · rename_i hnot hopen
      refine (eat_none (strip?_eq_none hnot)).andThen ?_
      refine (eat_none (strip?_eq_none hopen)).andThen ?_
      exact atom_follows (by omega)

end Chains

theorem whole_follows {fuel : Nat} (hfuel : text.length < fuel) :
    Follows text (whole text fuel) text (GuardExpr.toEnd text) := by
  have hunary : Tracks text text.length (unary text fuel fuel)
      (GuardExpr.unary (text.length + 1) (text.length + 1)) :=
    unary_tracks hfuel (Nat.lt_succ_self _) hfuel (Nat.lt_succ_self _)
  have hexpr := disjunction_tracks hunary (GuardExpr.unary_reads _ _) hfuel
    (Nat.lt_succ_self text.length)
  have hreads := GuardExpr.disjunction_reads (GuardExpr.unary_reads (text.length + 1)
    (text.length + 1)) (text.length + 1)
  refine (hexpr text (Nat.le_refl _)).bind fun e rest hrest => ?_
  have hshort := shorter_of_reads hreads hrest
  refine (passBlank_follows (by omega)).andThen (atEnd_follows.andThen ?_)
  cases hend : (dropBlank rest).isEmpty with
  | true =>
    simp only [hend, if_true]
    exact follows_pure e
  | false =>
    simp only [hend]
    exact position_follows.andThen (follows_refuse _)

end Scan

/-! ## Input that is left -/

namespace GuardExpr

/-- Nothing but reading a whole text complains about input that is left. -/
def Inner {α : Type} (x : Except GuardError α) : Prop :=
  ∀ k, x ≠ .error (.unexpectedInput k)

theorem Inner.bind {α β : Type} {x : Except GuardError α} {f : α → Except GuardError β}
    (hx : Inner x) (hf : ∀ a, Inner (f a)) : Inner (x >>= f) := by
  cases x with
  | error e => exact fun k h => hx k (by cases h; rfl)
  | ok a => exact hf a

theorem inner_ok {α : Type} (a : α) : Inner (.ok a) := by
  intro k h
  cases h

theorem inner_error {α : Type} {e : GuardError} (he : ∀ k, e ≠ .unexpectedInput k) :
    Inner (.error e : Except GuardError α) :=
  fun k h => he k (Except.error.inj h)

theorem field_inner (cs : List Char) : Inner (field cs) := by
  have hpath : ∀ scope rest, Inner (path scope rest) := by
    intro scope rest k h
    simp only [path] at h
    split at h <;> cases h
  unfold field
  split
  · exact hpath .context _
  · split
    · exact hpath .event _
    · exact inner_error (by simp)

theorem quoted_inner (read cs : List Char) : Inner (quoted read cs) := by
  fun_induction quoted read cs with
  | case1 => exact inner_error (by simp)
  | case2 => exact inner_ok _
  | case3 => exact inner_error (by simp)
  | case4 _ _ _ ih => exact ih
  | case5 _ _ _ _ _ _ ih => exact ih

theorem number_inner (cs : List Char) : Inner (number cs) := by
  have hunsigned : ∀ negative rest, Inner (unsigned negative rest) := by
    intro negative rest k h
    simp only [unsigned] at h
    split at h <;> cases h
  by_cases hminus : ∃ tail, cs = '-' :: tail
  · obtain ⟨tail, rfl⟩ := hminus
    exact hunsigned true tail
  · rw [number_of_ne_minus fun tail htail => hminus ⟨tail, htail⟩]
    exact hunsigned false cs

theorem literal_inner (cs : List Char) : Inner (literal cs) := by
  unfold literal
  split
  · exact inner_ok _
  · split
    · exact inner_ok _
    · split
      · exact inner_ok _
      · split
        · exact (quoted_inner _ _).bind fun _ => inner_ok _
        · exact number_inner cs

theorem atom_inner (cs : List Char) : Inner (atom cs) := by
  refine (field_inner cs).bind fun (f, rest) => ?_
  simp only
  split
  · exact inner_ok _
  · rename_i op more _
    have hoperand : Inner (operand op (dropBlank more)) := by
      cases op with
      | eq => exact literal_inner _
      | ne => exact literal_inner _
      | _ => exact number_inner _
    cases op <;> exact hoperand.bind fun _ => inner_ok _

theorem chain_inner {token : List Char} {connect : GuardExpr → GuardExpr → GuardExpr}
    {read : Reader} (hread : ∀ cs, Inner (read cs)) (fuel : Nat) (left : GuardExpr)
    (cs : List Char) : Inner (chain token connect read fuel left cs) := by
  induction fuel generalizing left cs with
  | zero => exact inner_ok _
  | succ fuel ih =>
    rw [chain]
    split
    · exact inner_ok _
    · exact (hread _).bind fun _ => ih _ _

theorem disjunction_inner {read : Reader} (hread : ∀ cs, Inner (read cs)) (fuel : Nat)
    (cs : List Char) : Inner (disjunction read fuel cs) := by
  have hoperand : ∀ cs, Inner (conjunction read fuel cs) := fun cs =>
    (hread cs).bind fun _ => chain_inner hread _ _ _
  exact (hoperand cs).bind fun _ => chain_inner hoperand _ _ _

theorem unary_inner (fuel levels : Nat) (cs : List Char) : Inner (unary fuel levels cs) := by
  induction levels generalizing cs with
  | zero => exact inner_error (by simp)
  | succ levels ih =>
    rw [unary]
    split
    · exact (ih _).bind fun _ => inner_ok _
    · refine (disjunction_inner ih fuel _).bind fun _ => ?_
      simp only
      split
      · exact inner_ok _
      · exact inner_error (by simp)
    · exact atom_inner _

theorem parse_eq {text : String} (hne : (trimChars text.toList).isEmpty = false) :
    parse text = (toEnd (trimChars text.toList)).map Prod.fst := by
  rw [parse, parseChars, toEnd]
  simp only [hne, bind, Except.bind]
  cases expression (trimChars text.toList) with
  | error e => rfl
  | ok found =>
    cases hend : (dropBlank found.2).isEmpty <;> simp only [hend] <;> rfl

/-- Where reading stops short, it has passed a text of an expression, and nothing but white space
behind it. -/
theorem exists_renders_before {text : String} {k : Nat}
    (h : parse text = .error (.unexpectedInput k)) :
    ∃ before after, trimChars text.toList = before ++ after ∧ byteLength before = k ∧
      before ≠ [] ∧ after ≠ [] ∧ ∃ e : GuardExpr, e.Renders (String.ofList before) := by
  cases hne : (trimChars text.toList).isEmpty with
  | true =>
    rw [parse, parseChars] at h
    simp only [hne, if_true] at h
    cases h
  | false =>
    rw [parse_eq hne, toEnd] at h
    cases hread : expression (trimChars text.toList) with
    | error e =>
      have hinner : Inner (expression (trimChars text.toList)) :=
        disjunction_inner (fun cs => unary_inner _ _ cs) _ _
      rw [hread] at h hinner
      exact absurd (by cases h; rfl) (hinner k)
    | ok found =>
      obtain ⟨e, rest⟩ := found
      rw [hread] at h
      simp only [bind, Except.bind] at h
      obtain ⟨ws, body, ws', hcs, hws, hws', hbody⟩ :=
        disjunction_reads (unary_reads _ _) _ _ _ _ hread
      obtain ⟨gap, hgap, hrest⟩ := exists_blank rest
      have hsplit : trimChars text.toList = ws ++ (body ++ (ws' ++ gap)) ++ dropBlank rest := by
        calc
          trimChars text.toList = ws ++ (body ++ (ws' ++ rest)) := hcs
          _ = ws ++ (body ++ (ws' ++ (gap ++ dropBlank rest))) := by rw [← hrest]
          _ = _ := by simp
      split at h
      · cases h
      · rename_i hleft
        refine ⟨_, _, hsplit, ?_, ?_, by simpa using hleft, e, ws, body, ws' ++ gap, by simp, hws,
          hws'.append hgap, hbody⟩
        · rw [hsplit, byteLength_append, Nat.add_sub_cancel_right] at h
          cases h
          rfl
        · obtain ⟨c, tail, rfl, -⟩ := hbody.solid.begins
          simp

/-- With more fuel than the text has characters, the cursor reads what the reader reads. -/
theorem scan_eq (text : String) {fuel : Nat} (hfuel : (trimChars text.toList).length < fuel) :
    (scan fuel text).1 = (parse text).mapError .refused ∧
      (scan fuel text).2.Pairwise (· ≤ ·) ∧
      ∀ n ∈ (scan fuel text).2, Boundary (trimChars text.toList) n := by
  cases hne : (trimChars text.toList).isEmpty with
  | true =>
    rw [scan, parse, parseChars]
    simp only [hne, if_true]
    exact ⟨rfl, .nil, List.forall_mem_nil _⟩
  | false =>
    have hstart : Cursor.Stands (trimChars text.toList) (trimChars text.toList) {} :=
      ⟨⟨[], rfl, rfl⟩, List.forall_mem_nil _, List.pairwise_singleton _ _⟩
    have hpositions : ∀ {rest : List Char} {c : Cursor}, c.Stands (trimChars text.toList) rest →
        c.positions.Pairwise (· ≤ ·) ∧
          ∀ n ∈ c.positions, Boundary (trimChars text.toList) n := by
      intro rest c hc
      obtain ⟨front, htext, hposition⟩ := hc.here
      refine ⟨List.pairwise_reverse.2 hc.ascending, fun n hn => ?_⟩
      rcases List.mem_cons.1 (List.mem_reverse.1 hn) with rfl | hn
      · exact ⟨front, rest, htext, hposition⟩
      · exact hc.passed n hn
    have hwhole := Scan.whole_follows hfuel {} hstart
    rw [parse_eq hne, scan]
    simp only [hne]
    generalize Scan.whole (trimChars text.toList) fuel {} = result at hwhole
    generalize toEnd (trimChars text.toList) = read at hwhole
    cases hwhole with
    | read hc => exact ⟨rfl, hpositions hc⟩
    | refused hc => exact ⟨rfl, hpositions hc⟩

/-- Text that is cut at a boundary is cut between characters. -/
theorem isValid_of_boundary {text : String} {n : Nat} (h : Boundary text.toList n) :
    String.Pos.Raw.IsValid text ⟨n⟩ := by
  obtain ⟨front, rest, htext, hn⟩ := h
  rw [String.Pos.Raw.isValid_iff_exists_append]
  refine ⟨String.ofList front, String.ofList rest, ?_, ?_⟩
  · rw [← String.toList_inj, htext]
    simp
  · rw [← hn, ← String.toList_ofList (l := front), byteLength_toList]
    simp [String.rawEndPos]

/-- Reading with a cursor ends on every text, with what the reader makes of it, and no cut on its
way fails: the cursor does not go back, and stays between characters and within the text. Input
that is left over begins at such a place inside the text; what is before it can be read alone. -/
theorem parse_safe (text : String) :
    (∀ fuel, (trimChars text.toList).length < fuel →
      (scan fuel text).1 = (parse text).mapError .refused ∧
        (scan fuel text).2.Pairwise (· ≤ ·) ∧
        ∀ n ∈ (scan fuel text).2, n ≤ (trim text).utf8ByteSize ∧
          String.Pos.Raw.IsValid (trim text) ⟨n⟩) ∧
      ∀ k, parse text = .error (.unexpectedInput k) →
        0 < k ∧ k < (trim text).utf8ByteSize ∧ String.Pos.Raw.IsValid (trim text) ⟨k⟩ ∧
          ∃ before after, trim text = before ++ after ∧ before.utf8ByteSize = k ∧
            ∃ e, parse before = .ok e := by
  have htrim : trimChars text.toList = (trim text).toList := by
    rw [trim, String.toList_ofList]
  refine ⟨fun fuel hfuel => ?_, fun k hk => ?_⟩
  · obtain ⟨hsame, hascending, hboundary⟩ := scan_eq text hfuel
    refine ⟨hsame, hascending, fun n hn => ?_⟩
    have hat := hboundary n hn
    rw [htrim] at hat
    have hvalid := isValid_of_boundary hat
    exact ⟨hvalid.le_rawEndPos, hvalid⟩
  · obtain ⟨before, after, hsplit, hlength, hbefore, hafter, e, he⟩ := exists_renders_before hk
    rw [htrim] at hsplit
    have htotal : (trim text).utf8ByteSize = k + byteLength after := by
      rw [← byteLength_toList, hsplit, byteLength_append, hlength]
    have hpos := byteLength_pos hafter
    refine ⟨hlength ▸ byteLength_pos hbefore, by omega,
      isValid_of_boundary ⟨before, after, hsplit, hlength⟩, String.ofList before,
      String.ofList after, ?_, ?_, e, parse_of_renders he⟩
    · rw [← String.ofList_append, ← hsplit, String.ofList_toList]
    · rw [← byteLength_toList, String.toList_ofList, hlength]

/-- Letters, quotes and white space of several bytes, and more input behind an expression. -/
def overlong : String :=
  " ctx.größe == \"ß\\\"\" \u2003ü x"

theorem overlong_stopped :
    (trimChars overlong.toList).length < 26 ∧
      parse overlong = .error (.unexpectedInput 25) ∧
      (scan 26 overlong).2 = [0, 4, 5, 6, 8, 10, 11, 12, 14, 15, 16, 18, 19, 20, 21, 22, 25] ∧
      (scan 26 overlong).2.Pairwise (· ≤ ·) ∧
      25 < (trim overlong).utf8ByteSize ∧ String.Pos.Raw.IsValid (trim overlong) ⟨25⟩ ∧
      ∃ before after, trim overlong = before ++ after ∧ before.utf8ByteSize = 25 ∧
        ∃ e, parse before = .ok e := by
  have hshort : (trimChars overlong.toList).length < 26 := by decide +kernel
  have hparse : parse overlong = .error (.unexpectedInput 25) := by
    have hmap : (parse overlong).map (fun _ => ()) = .error (.unexpectedInput 25) := by
      decide +kernel
    cases hresult : parse overlong with
    | error e => rw [hresult] at hmap; cases hmap; rfl
    | ok e => rw [hresult] at hmap; cases hmap
  obtain ⟨hends, hleft⟩ := parse_safe overlong
  obtain ⟨-, hlt, hvalid, hbefore⟩ := hleft 25 hparse
  exact ⟨hshort, hparse, by decide +kernel, (hends 26 hshort).2.1, hlt, hvalid, hbefore⟩

end GuardExpr

end Statechart
