import Mathlib.Data.List.DropRight
import Mathlib.Data.List.TakeWhile
import Statechart.Guard.Parser
import Statechart.Proofs.Dotted
import Statechart.Proofs.Grammar

/-!
# Statechart.Proofs.Tokens

The readers of white space, fields, numbers and literals. Each reads exactly the texts that the
grammar gives: what it has read is such a text, and it reads such a text if the text that follows
does not go on with the same token.

* `dropBlank_append`, `trimChars_append`: white space around a text.
* `field_eq_ok`, `field_append`, `number_eq_ok`, `number_append`, `literal_eq_ok`,
  `literal_append`, `comparison?_eq_some`: the readers.
* `solid_field`, `solid_literal`: texts of tokens do not begin or end with white space.
-/

namespace Statechart

open Text

/-- The text does not begin with such a character. -/
def Stops (p : Char → Bool) (cs : List Char) : Prop :=
  ∀ c, cs.head? = some c → p c = false

theorem Stops.mono {p q : Char → Bool} {cs : List Char} (h : Stops q cs)
    (hpq : ∀ c, p c = true → q c = true) : Stops p cs := by
  intro c hc
  cases hp : p c with
  | false => rfl
  | true => exact absurd (hpq c hp) (by simp [h c hc])

theorem Stops.takeWhile {p : Char → Bool} {cs rest : List Char} (hcs : ∀ c ∈ cs, p c = true)
    (h : Stops p rest) : (cs ++ rest).takeWhile p = cs := by
  rw [List.takeWhile_append_of_pos hcs]
  cases rest with
  | nil => simp
  | cons c rest => simp [h c rfl]

theorem Stops.dropWhile {p : Char → Bool} {cs rest : List Char} (hcs : ∀ c ∈ cs, p c = true)
    (h : Stops p rest) : (cs ++ rest).dropWhile p = rest := by
  rw [List.dropWhile_append_of_pos hcs]
  cases rest with
  | nil => simp
  | cons c rest => simp [h c rfl]

/-! ## White space -/

namespace Text

/-- No range of letters and digits meets one of white space. -/
theorem letterRanges_apart :
    ∀ r ∈ letterRanges.toList, ∀ b ∈ blankRanges, b.2 < r.1 ∨ r.2 < b.1 := by
  decide +kernel

theorem isAlphanumeric_of_isBlank {c : Char} (h : isBlank c = true) : isAlphanumeric c = false := by
  rw [isAlphanumeric]
  split
  · rename_i hlow
    have hall : ∀ n < 128, isBlank (Char.ofNat n) = true →
        (Char.ofNat n).isAlphanum = false := by decide
    have hc := hall c.toNat hlow
    rw [Char.ofNat_toNat] at hc
    exact hc h
  · obtain ⟨b, hb, hin⟩ := List.any_eq_true.1 h
    rw [← Array.any_toList, List.any_eq_false]
    intro r hr
    have hapart := letterRanges_apart r hr b hb
    simp only [Bool.and_eq_true, decide_eq_true_eq] at hin ⊢
    omega

theorem dropBlank_append {ws : List Char} (h : Blank ws) (cs : List Char) :
    dropBlank (ws ++ cs) = dropBlank cs :=
  List.dropWhile_append_of_pos h

theorem dropBlank_of_stops {cs : List Char} (h : Stops isBlank cs) : dropBlank cs = cs := by
  have hdrop : ([] ++ cs).dropWhile isBlank = cs :=
    h.dropWhile fun _ hc => absurd hc List.not_mem_nil
  exact hdrop

@[simp] theorem dropBlank_dropBlank (cs : List Char) : dropBlank (dropBlank cs) = dropBlank cs :=
  List.dropWhile_idempotent ..

theorem exists_blank (cs : List Char) : ∃ ws, Blank ws ∧ cs = ws ++ dropBlank cs :=
  ⟨cs.takeWhile isBlank, fun _ hc => List.mem_takeWhile_imp hc,
    List.takeWhile_append_dropWhile.symm⟩

end Text

theorem Blank.append {ws ws' : List Char} (h : Blank ws) (h' : Blank ws') : Blank (ws ++ ws') :=
  List.forall_mem_append.2 ⟨h, h'⟩

theorem Blank.reverse {ws : List Char} (h : Blank ws) : Blank ws.reverse :=
  fun c hc => h c (List.mem_reverse.1 hc)

/-- The text begins and ends with something else than white space. -/
structure Solid (cs : List Char) : Prop where
  begins : ∃ c rest, cs = c :: rest ∧ isBlank c = false
  ends : ∃ before c, cs = before ++ [c] ∧ isBlank c = false

namespace Solid

variable {cs cs' : List Char}

theorem of_forall (hne : cs ≠ []) (h : ∀ c ∈ cs, isBlank c = false) : Solid cs := by
  refine ⟨?_, ?_⟩
  · obtain ⟨c, rest, rfl⟩ := List.exists_cons_of_ne_nil hne
    exact ⟨c, rest, rfl, h c List.mem_cons_self⟩
  · refine ⟨cs.dropLast, cs.getLast hne, (List.dropLast_concat_getLast hne).symm, ?_⟩
    exact h _ (List.getLast_mem hne)

theorem of_all (hne : cs ≠ []) (h : (cs.all fun c => !isBlank c) = true) : Solid cs :=
  .of_forall hne (by simpa using h)

theorem append (h : Solid cs) (gap : List Char) (h' : Solid cs') : Solid (cs ++ (gap ++ cs')) := by
  obtain ⟨c, rest, rfl, hc⟩ := h.begins
  obtain ⟨before, d, rfl, hd⟩ := h'.ends
  exact ⟨⟨c, _, rfl, hc⟩, ⟨c :: rest ++ (gap ++ before), d, by simp, hd⟩⟩

theorem dropBlank_append (h : Solid cs) (rest : List Char) :
    dropBlank (cs ++ rest) = cs ++ rest := by
  obtain ⟨c, tail, rfl, hc⟩ := h.begins
  refine dropBlank_of_stops fun d hd => ?_
  cases hd
  exact hc

theorem reverse (h : Solid cs) : Solid cs.reverse := by
  obtain ⟨c, rest, hcs, hc⟩ := h.begins
  obtain ⟨before, d, hcs', hd⟩ := h.ends
  exact ⟨⟨d, before.reverse, by simp [hcs'], hd⟩, ⟨rest.reverse, c, by simp [hcs], hc⟩⟩

/-- Trimming takes off the white space around a text. -/
theorem trimChars_append (h : Solid cs) {ws ws' : List Char} (hws : Blank ws) (hws' : Blank ws') :
    trimChars (ws ++ (cs ++ ws')) = cs := by
  rw [trimChars, Text.dropBlank_append hws, h.dropBlank_append, List.reverse_append,
    Text.dropBlank_append hws'.reverse]
  have hrest := h.reverse.dropBlank_append []
  rw [List.append_nil] at hrest
  rw [hrest, List.reverse_reverse]

end Solid

theorem exists_trimChars (cs : List Char) :
    ∃ ws ws', Blank ws ∧ Blank ws' ∧ cs = ws ++ (trimChars cs ++ ws') := by
  obtain ⟨ws, hws, hcs⟩ := exists_blank cs
  obtain ⟨ws', hws', hrest⟩ := exists_blank (dropBlank cs).reverse
  refine ⟨ws, ws'.reverse, hws, hws'.reverse, ?_⟩
  rw [trimChars, ← List.reverse_append, ← hrest, List.reverse_reverse]
  exact hcs

/-! ## Fields -/

namespace GuardExpr

theorem strip?_eq_some {token cs rest : List Char} :
    strip? token cs = some rest ↔ cs = token ++ rest := by
  rw [strip?]
  constructor
  · intro h
    split at h
    · rename_i hprefix
      cases h
      obtain ⟨tail, rfl⟩ := List.isPrefixOf_iff_prefix.1 hprefix
      rw [List.drop_left]
    · cases h
  · rintro rfl
    rw [if_pos (List.isPrefixOf_iff_prefix.2 (List.prefix_append _ _)), List.drop_left]

theorem isPathChar_iff {c : Char} :
    isPathChar c = true ↔ (isAlphanumeric c = true ∨ c = '_') ∨ c = '.' := by
  simp [isPathChar]

theorem isBlank_of_isPathChar {c : Char} (h : isPathChar c = true) : isBlank c = false := by
  cases hb : isBlank c with
  | false => rfl
  | true =>
    rcases isPathChar_iff.1 h with (halpha | rfl) | rfl
    · rw [isAlphanumeric_of_isBlank hb] at halpha
      cases halpha
    · cases hb
    · cases hb

/-- A path with the dots between its keys. -/
def pathText (f : FieldRef) : List Char :=
  ['.'].intercalate (f.path.map String.toList)

def scopeText : Scope → List Char
  | .context => ['c', 't', 'x', '.']
  | .event => ['e', 'v', 'e', 'n', 't', '.']

theorem toList_text {f : FieldRef} (h : f.path ≠ []) :
    f.text.toList = scopeText f.scope ++ pathText f := by
  rw [FieldRef.text, String.intercalate_cons_of_ne_nil h, String.toList_append,
    String.toList_append, String.toList_intercalate]
  cases f.scope <;> simp [scopeText, pathText]

theorem forall_mem_intercalate {p : Char → Prop} {sep : List Char} {pieces : List (List Char)}
    (hsep : ∀ c ∈ sep, p c) (h : ∀ piece ∈ pieces, ∀ c ∈ piece, p c) :
    ∀ c ∈ sep.intercalate pieces, p c := by
  induction pieces with
  | nil => simp
  | cons piece rest ih =>
    obtain ⟨hpiece, hrest⟩ := List.forall_mem_cons.1 h
    cases rest with
    | nil => simpa using hpiece
    | cons next rest =>
      rw [List.intercalate_cons_cons]
      exact List.forall_mem_append.2 ⟨List.forall_mem_append.2 ⟨hpiece, hsep⟩, ih hrest⟩

theorem isPathChar_pathText {f : FieldRef} (h : f.Plain) :
    ∀ c ∈ pathText f, isPathChar c = true := by
  refine forall_mem_intercalate (by simp [isPathChar]) fun piece hpiece c hc => ?_
  obtain ⟨key, hkey, rfl⟩ := List.mem_map.1 hpiece
  exact isPathChar_iff.2 (.inl ((h.2 key hkey).2 c hc))

theorem splitAtChar_pathText {f : FieldRef} (h : f.Plain) :
    splitAtChar '.' (pathText f) = f.path.map String.toList := by
  refine (splitAtChar_eq_iff (by simpa using h.1) ?_).2 rfl
  rintro piece hpiece hdot
  obtain ⟨key, hkey, rfl⟩ := List.mem_map.1 hpiece
  rcases (h.2 key hkey).2 '.' hdot with halpha | hunderscore
  · cases halpha
  · cases hunderscore

theorem path_append {f : FieldRef} (h : f.Plain) {rest : List Char}
    (hrest : Stops isPathChar rest) : path f.scope (pathText f ++ rest) = .ok (f, rest) := by
  have hchars := isPathChar_pathText h
  have hany : (f.path.map String.toList).any List.isEmpty = false := by
    rw [List.any_eq_false, List.forall_mem_map]
    intro key hkey
    simpa using (h.2 key hkey).1
  simp only [path, hrest.takeWhile hchars, hrest.dropWhile hchars, splitAtChar_pathText h, hany]
  simp [Function.comp_def]

theorem field_append {f : FieldRef} (h : f.Plain) {rest : List Char}
    (hrest : Stops isPathChar rest) : field (f.text.toList ++ rest) = .ok (f, rest) := by
  have hpath := path_append h hrest
  rw [toList_text h.1, List.append_assoc, field]
  cases hscope : f.scope with
  | context =>
    rw [hscope] at hpath
    rw [scopeText, strip?_eq_some.2 rfl]
    exact hpath
  | event =>
    rw [hscope] at hpath
    have hnone : strip? ['c', 't', 'x', '.'] (scopeText .event ++ (pathText f ++ rest)) = none :=
      rfl
    rw [hnone, scopeText, strip?_eq_some.2 rfl]
    exact hpath

theorem path_eq_ok {scope : Scope} {cs rest : List Char} {f : FieldRef}
    (h : path scope cs = .ok (f, rest)) :
    f.Plain ∧ f.scope = scope ∧ cs = pathText f ++ rest := by
  simp only [path] at h
  split at h
  · cases h
  · rename_i hany
    cases h
    have hkeys : ∀ piece ∈ splitAtChar '.' (cs.takeWhile isPathChar), piece ≠ [] := by
      intro piece hpiece hempty
      refine hany (List.any_eq_true.2 ⟨piece, hpiece, ?_⟩)
      rw [hempty]
      rfl
    have hsame : (List.map String.ofList (splitAtChar '.' (cs.takeWhile isPathChar))).map
        String.toList = splitAtChar '.' (cs.takeWhile isPathChar) := by
      simp [Function.comp_def]
    refine ⟨⟨?_, List.forall_mem_map.2 fun piece hpiece => ⟨?_, fun c hc => ?_⟩⟩, rfl, ?_⟩
    · rw [splitAtChar_eq_splitOn]
      simp
    · have hne := hkeys piece hpiece
      simpa using hne
    · rw [String.toList_ofList] at hc
      obtain ⟨hmem, hdot⟩ := mem_of_mem_splitAtChar hpiece c hc
      exact (isPathChar_iff.1 (List.mem_takeWhile_imp hmem)).resolve_right hdot
    · rw [pathText, hsame, splitAtChar_eq_splitOn, List.intercalate_splitOn]
      exact List.takeWhile_append_dropWhile.symm

theorem field_eq_ok {cs rest : List Char} {f : FieldRef} (h : field cs = .ok (f, rest)) :
    f.Plain ∧ cs = f.text.toList ++ rest := by
  rw [field] at h
  split at h
  · rename_i tail htail
    obtain ⟨hplain, hscope, rfl⟩ := path_eq_ok h
    refine ⟨hplain, ?_⟩
    rw [toList_text hplain.1, hscope, List.append_assoc]
    exact strip?_eq_some.1 htail
  · split at h
    · rename_i tail htail
      obtain ⟨hplain, hscope, rfl⟩ := path_eq_ok h
      refine ⟨hplain, ?_⟩
      rw [toList_text hplain.1, hscope, List.append_assoc]
      exact strip?_eq_some.1 htail
    · cases h

/-! ## Numbers -/

theorem natOfDigits_eq (ds : List Char) : natOfDigits ds = Nat.ofDigitChars 10 ds 0 :=
  Nat.ofDigitChars_eq_foldl.symm

theorem isNumberChar_iff {c : Char} : isNumberChar c = true ↔ c.isDigit = true ∨ c = '.' := by
  simp [isNumberChar]

theorem isPathChar_of_isNumberChar {c : Char} (h : isNumberChar c = true) :
    isPathChar c = true := by
  rcases isNumberChar_iff.1 h with hdigit | rfl
  · obtain ⟨-, hhigh⟩ := Char.isDigit_iff_toNat.1 hdigit
    have hlow : c.toNat < 128 := Nat.lt_of_le_of_lt hhigh (by decide)
    refine isPathChar_iff.2 (.inl (.inl ?_))
    rw [isAlphanumeric, if_pos hlow, Char.isAlphanum, hdigit, Bool.or_true]
  · rfl

theorem natAbs_wholeOf (negative : Bool) (digits : List Char) :
    (wholeOf negative digits).natAbs = Nat.ofDigitChars 10 digits 0 := by
  cases negative <;> simp [wholeOf]

theorem numberOf?_whole {negative : Bool} {body whole : List Char}
    (hsplit : splitAtChar '.' body = [whole]) (hne : whole ≠ []) :
    numberOf? negative body =
      if Fits (wholeOf negative whole) then some (.int (wholeOf negative whole))
      else (Number.ofDecimal (Nat.ofDigitChars 10 whole 0) 0).map fun x =>
        .float (if negative then -x else x) := by
  have hempty : whole.isEmpty = false := by simpa using hne
  have hwhole : (if negative then -(natOfDigits whole : Int) else natOfDigits whole) =
      wholeOf negative whole := by
    rw [natOfDigits_eq]
    rfl
  rw [numberOf?, hsplit]
  simp only [hempty, hwhole, natAbs_wholeOf]
  rfl

theorem numberOf?_decimal {negative : Bool} {body whole fraction : List Char}
    (hsplit : splitAtChar '.' body = [whole, fraction]) (hne : whole ≠ [] ∨ fraction ≠ []) :
    numberOf? negative body =
      (Number.ofDecimal (Nat.ofDigitChars 10 (whole ++ fraction) 0)
        (-(fraction.length : Int))).map fun x => .float (if negative then -x else x) := by
  have hempty : (whole.isEmpty && fraction.isEmpty) = false := by
    rcases hne with h | h <;> simp [h]
  rw [numberOf?, hsplit]
  simp only [hempty, natOfDigits_eq]
  rfl

theorem not_mem_of_allDigits {digits : List Char} (h : AllDigits digits) : '.' ∉ digits := by
  intro hmem
  have hdot : '.'.isDigit = false := rfl
  cases hdot.symm.trans (h _ hmem)

theorem isNumberChar_of_allDigits {digits : List Char} (h : AllDigits digits) :
    ∀ c ∈ digits, isNumberChar c = true :=
  fun c hc => isNumberChar_iff.2 (.inl (h c hc))

theorem splitAtChar_of_allDigits {digits : List Char} (h : AllDigits digits) :
    splitAtChar '.' digits = [digits] :=
  (splitAtChar_eq_iff (by simp) (by simpa using not_mem_of_allDigits h)).2 (by simp)

/-- The text of a number is a sign, and what the number is read from. -/
theorem numberOf?_of_numeral {v : Json} {text : List Char} (h : Numeral v text) :
    ∃ negative body, text = sign negative ++ body ∧ (∀ c ∈ body, isNumberChar c = true) ∧
      numberOf? negative body = some v := by
  cases h with
  | whole negative hne hdigits hfits =>
    refine ⟨negative, _, rfl, isNumberChar_of_allDigits hdigits, ?_⟩
    rw [numberOf?_whole (splitAtChar_of_allDigits hdigits) hne, if_pos hfits]
  | great negative hne hdigits hfits hx =>
    refine ⟨negative, _, rfl, isNumberChar_of_allDigits hdigits, ?_⟩
    rw [numberOf?_whole (splitAtChar_of_allDigits hdigits) hne, if_neg hfits, hx]
    rfl
  | @decimal negative whole fraction x hne hwhole hfraction hx =>
    have hsplit : splitAtChar '.' (whole ++ '.' :: fraction) = [whole, fraction] := by
      refine (splitAtChar_eq_iff (by simp) ?_).2 (by simp)
      simpa using ⟨not_mem_of_allDigits hwhole, not_mem_of_allDigits hfraction⟩
    refine ⟨negative, _, rfl, ?_, ?_⟩
    · exact List.forall_mem_append.2 ⟨isNumberChar_of_allDigits hwhole,
        List.forall_mem_cons.2 ⟨rfl, isNumberChar_of_allDigits hfraction⟩⟩
    · rw [numberOf?_decimal hsplit hne, hx]
      rfl

theorem numeral_of_numberOf? {negative : Bool} {body : List Char} {v : Json}
    (hbody : ∀ c ∈ body, isNumberChar c = true) (hv : numberOf? negative body = some v) :
    Numeral v (sign negative ++ body) := by
  have hdigits : ∀ piece ∈ splitAtChar '.' body, AllDigits piece := by
    intro piece hpiece c hc
    obtain ⟨hmem, hne⟩ := mem_of_mem_splitAtChar hpiece c hc
    exact (isNumberChar_iff.1 (hbody c hmem)).resolve_right hne
  have hjoin : ['.'].intercalate (splitAtChar '.' body) = body := by
    rw [splitAtChar_eq_splitOn, List.intercalate_splitOn]
  cases hsplit : splitAtChar '.' body with
  | nil => exact absurd hsplit (by simp [splitAtChar_eq_splitOn])
  | cons whole pieces =>
    cases pieces with
    | nil =>
      rw [hsplit] at hdigits hjoin
      obtain rfl : whole = body := by simpa using hjoin
      have hwhole := hdigits _ List.mem_cons_self
      have hne : whole ≠ [] := by
        rintro rfl
        cases hv
      rw [numberOf?_whole hsplit hne] at hv
      split at hv
      · rename_i hfits
        cases hv
        exact .whole negative hne hwhole hfits
      · rename_i hfits
        obtain ⟨x, hx, rfl⟩ := Option.map_eq_some_iff.1 hv
        exact .great negative hne hwhole hfits hx
    | cons fraction pieces =>
      cases pieces with
      | nil =>
        rw [hsplit] at hdigits hjoin
        obtain rfl : whole ++ '.' :: fraction = body := by simpa using hjoin
        have hne : whole ≠ [] ∨ fraction ≠ [] := by
          by_contra hnot
          obtain ⟨rfl, rfl⟩ : whole = [] ∧ fraction = [] := by simpa using hnot
          cases hv
        rw [numberOf?_decimal hsplit hne] at hv
        obtain ⟨x, hx, rfl⟩ := Option.map_eq_some_iff.1 hv
        exact .decimal negative hne (hdigits _ List.mem_cons_self)
          (hdigits _ (List.mem_cons_of_mem _ List.mem_cons_self)) hx
      | cons third pieces =>
        rw [numberOf?, hsplit] at hv
        cases hv

/-- Reading a number behind its sign. -/
def unsigned (negative : Bool) (cs : List Char) : Except GuardError (Json × List Char) :=
  let body := cs.takeWhile isNumberChar
  match numberOf? negative body with
  | some v => .ok (v, cs.dropWhile isNumberChar)
  | none => .error (.invalidNumber (String.ofList (if negative then '-' :: body else body)))

theorem number_minus (cs : List Char) : number ('-' :: cs) = unsigned true cs := rfl

theorem number_of_ne_minus {cs : List Char} (h : ∀ tail, cs ≠ '-' :: tail) :
    number cs = unsigned false cs := by
  unfold number
  split
  rename_i negative rest hsign
  split at hsign
  · rename_i tail
    exact absurd rfl (h tail)
  · cases hsign
    rfl

theorem unsigned_append {negative : Bool} {v : Json} {body rest : List Char}
    (hbody : ∀ c ∈ body, isNumberChar c = true) (hv : numberOf? negative body = some v)
    (hrest : Stops isNumberChar rest) : unsigned negative (body ++ rest) = .ok (v, rest) := by
  simp only [unsigned, hrest.takeWhile hbody, hrest.dropWhile hbody, hv]

theorem unsigned_eq_ok {negative : Bool} {v : Json} {cs rest : List Char}
    (h : unsigned negative cs = .ok (v, rest)) :
    ∃ text, Numeral v text ∧ sign negative ++ cs = text ++ rest := by
  simp only [unsigned] at h
  split at h
  · rename_i w hw
    cases h
    refine ⟨_, numeral_of_numberOf? (fun c hc => List.mem_takeWhile_imp hc) hw, ?_⟩
    rw [List.append_assoc, List.takeWhile_append_dropWhile]
  · cases h

theorem number_append {v : Json} {text rest : List Char} (h : Numeral v text)
    (hrest : Stops isNumberChar rest) : number (text ++ rest) = .ok (v, rest) := by
  obtain ⟨negative, body, rfl, hbody, hv⟩ := numberOf?_of_numeral h
  have hread := unsigned_append hbody hv hrest
  cases negative with
  | true => exact (number_minus _).trans hread
  | false =>
    have hminus : ∀ tail, body ++ rest ≠ '-' :: tail := by
      intro tail htail
      cases body with
      | nil => cases hv
      | cons c body =>
        obtain rfl : c = '-' := by simpa using congrArg List.head? htail
        exact absurd (hbody '-' List.mem_cons_self) (by decide)
    exact (number_of_ne_minus hminus).trans hread

theorem number_eq_ok {v : Json} {cs rest : List Char} (h : number cs = .ok (v, rest)) :
    ∃ text, Numeral v text ∧ cs = text ++ rest := by
  by_cases hminus : ∃ tail, cs = '-' :: tail
  · obtain ⟨tail, rfl⟩ := hminus
    rw [number_minus] at h
    exact unsigned_eq_ok h
  · rw [number_of_ne_minus fun tail htail => hminus ⟨tail, htail⟩] at h
    exact unsigned_eq_ok h

/-! ## Literals -/

theorem quoted_append {s cs : List Char} (h : Quotes s cs) (read rest : List Char) :
    quoted read (cs ++ '"' :: rest) = .ok (String.ofList (read.reverse ++ s), rest) := by
  induction h generalizing read with
  | nil => simp [quoted]
  | plain hquote hslash _ ih =>
    rw [List.cons_append, quoted, ih]
    · simp
    · exact hquote
    · exact fun h => absurd h hslash
    · exact fun _ _ h => absurd h hslash
  | escaped c _ ih =>
    rw [List.cons_append, List.cons_append, quoted, ih]
    simp

theorem quoted_eq_ok {read cs rest : List Char} {text : String}
    (h : quoted read cs = .ok (text, rest)) :
    ∃ s body, Quotes s body ∧ text = String.ofList (read.reverse ++ s) ∧
      cs = body ++ '"' :: rest := by
  fun_induction quoted read cs with
  | case1 => cases h
  | case2 read tail =>
    cases h
    exact ⟨[], [], .nil, by simp, rfl⟩
  | case3 => cases h
  | case4 read c tail ih =>
    obtain ⟨s, body, hquotes, rfl, rfl⟩ := ih h
    exact ⟨c :: s, '\\' :: c :: body, .escaped c hquotes, by simp, rfl⟩
  | case5 read c tail hquote hlast hmore ih =>
    obtain ⟨s, body, hquotes, rfl, rfl⟩ := ih h
    have hslash : c ≠ '\\' := by
      intro hc
      obtain ⟨d, more, hd⟩ := List.exists_cons_of_ne_nil (hlast hc)
      exact hmore d more hc hd
    exact ⟨c :: s, c :: body, .plain hquote hslash hquotes, by simp, rfl⟩

/-- Texts of numbers begin with a sign, a digit or a point. -/
theorem numeral_head {v : Json} {text : List Char} (h : Numeral v text) :
    ∃ c rest, text = c :: rest ∧ (c = '-' ∨ isNumberChar c = true) := by
  obtain ⟨negative, body, rfl, hbody, hv⟩ := numberOf?_of_numeral h
  cases negative with
  | true => exact ⟨'-', body, rfl, .inl rfl⟩
  | false =>
    cases body with
    | nil => cases hv
    | cons c body => exact ⟨c, body, rfl, .inr (hbody c List.mem_cons_self)⟩

theorem strip?_of_ne {c d : Char} (h : d ≠ c) (token cs : List Char) :
    strip? (d :: token) (c :: cs) = none := by
  simp [strip?, h]

/-- What begins as a number is read as one. -/
theorem literal_of_head {c : Char} {cs : List Char} (hc : c = '-' ∨ isNumberChar c = true) :
    literal (c :: cs) = number (c :: cs) := by
  have hne : ∀ d, d ≠ '-' → isNumberChar d = false → d ≠ c := by
    rintro d hd hnot rfl
    rcases hc with hc | hc
    · exact hd hc
    · cases hnot.symm.trans hc
  unfold literal
  simp only [strip?_of_ne (hne 't' (by decide) rfl), strip?_of_ne (hne 'f' (by decide) rfl),
    strip?_of_ne (hne 'n' (by decide) rfl)]
  split
  · rename_i tail htail
    cases htail
    exact absurd rfl (hne '"' (by decide) rfl)
  · rfl

theorem literal_quote (cs : List Char) :
    literal ('"' :: cs) = (quoted [] cs >>= fun read => .ok (.str read.1, read.2)) := rfl

theorem literal_append {v : Json} {text rest : List Char} (h : Literal v text)
    (hrest : Stops isNumberChar rest) : literal (text ++ rest) = .ok (v, rest) := by
  cases h with
  | true => rfl
  | false => rfl
  | null => rfl
  | @string s cs hquotes =>
    have htext : '"' :: cs ++ ['"'] ++ rest = '"' :: (cs ++ '"' :: rest) := by simp
    have hquoted := quoted_append hquotes [] rest
    rw [List.reverse_nil, List.nil_append, String.ofList_toList] at hquoted
    rw [htext, literal_quote, hquoted]
    rfl
  | number hnumeral =>
    have hread := number_append hnumeral hrest
    obtain ⟨c, tail, rfl, hc⟩ := numeral_head hnumeral
    rw [List.cons_append] at hread ⊢
    rw [literal_of_head hc]
    exact hread

theorem literal_eq_ok {v : Json} {cs rest : List Char} (h : literal cs = .ok (v, rest)) :
    ∃ text, Literal v text ∧ cs = text ++ rest := by
  unfold literal at h
  split at h
  · rename_i tail htail
    cases h
    exact ⟨_, .true, strip?_eq_some.1 htail⟩
  · split at h
    · rename_i tail htail
      cases h
      exact ⟨_, .false, strip?_eq_some.1 htail⟩
    · split at h
      · rename_i tail htail
        cases h
        exact ⟨_, .null, strip?_eq_some.1 htail⟩
      · split at h
        · rename_i tail _ _ _
          cases hs : quoted [] tail with
          | error e =>
            rw [hs] at h
            cases h
          | ok read =>
            rw [hs] at h
            cases h
            obtain ⟨s, body, hquotes, htext, rfl⟩ := quoted_eq_ok hs
            refine ⟨'"' :: body ++ ['"'], ?_, by simp⟩
            rw [htext]
            exact .string (by simpa using hquotes)
        · obtain ⟨text, htext, hcs⟩ := number_eq_ok h
          exact ⟨text, .number htext, hcs⟩

/-! ## Comparisons -/

theorem comparison?_eq_some {cs rest : List Char} {op : Comparison}
    (h : comparison? cs = some (op, rest)) : cs = op.text.toList ++ rest := by
  unfold comparison? at h
  split at h
  all_goals cases h
  all_goals rfl

theorem comparison?_append {op : Comparison} {rest : List Char} (h : rest.head? ≠ some '=') :
    comparison? (op.text.toList ++ rest) = some (op, rest) := by
  cases op with
  | gt =>
    cases rest with
    | nil => rfl
    | cons c rest =>
      have hc : c ≠ '=' := by simpa using h
      show comparison? ('>' :: c :: rest) = some (.gt, c :: rest)
      simp [comparison?, hc]
  | lt =>
    cases rest with
    | nil => rfl
    | cons c rest =>
      have hc : c ≠ '=' := by simpa using h
      show comparison? ('<' :: c :: rest) = some (.lt, c :: rest)
      simp [comparison?, hc]
  | _ => rfl

/-- The reader of what stands behind a comparison. -/
def operand : Comparison → List Char → Except GuardError (Json × List Char)
  | .eq | .ne => literal
  | .gt | .ge | .lt | .le => number

theorem operand_append {op : Comparison} {v : Json} {text rest : List Char}
    (h : Operand op v text) (hrest : Stops isNumberChar rest) :
    operand op (text ++ rest) = .ok (v, rest) := by
  cases op with
  | eq => exact literal_append h hrest
  | ne => exact literal_append h hrest
  | _ => exact number_append h hrest

theorem operand_eq_ok {op : Comparison} {v : Json} {cs rest : List Char}
    (h : operand op cs = .ok (v, rest)) : ∃ text, Operand op v text ∧ cs = text ++ rest := by
  cases op with
  | eq => exact literal_eq_ok h
  | ne => exact literal_eq_ok h
  | _ => exact number_eq_ok h

/-! ## Tokens are solid -/

theorem solid_field {f : FieldRef} (h : f.Plain) : Solid f.text.toList := by
  rw [toList_text h.1]
  have hscope : ((scopeText f.scope).all fun c => !isBlank c) = true := by
    cases f.scope <;> decide
  refine .of_forall ?_ (List.forall_mem_append.2 ⟨by simpa using hscope, fun c hc => ?_⟩)
  · cases f.scope <;> simp [scopeText]
  · exact isBlank_of_isPathChar (isPathChar_pathText h c hc)

theorem solid_numeral {v : Json} {text : List Char} (h : Numeral v text) : Solid text := by
  obtain ⟨negative, body, rfl, hbody, hv⟩ := numberOf?_of_numeral h
  have hsign : ((sign negative).all fun c => !isBlank c) = true := by cases negative <;> decide
  refine .of_forall ?_ (List.forall_mem_append.2 ⟨by simpa using hsign, fun c hc => ?_⟩)
  · obtain ⟨c, tail, hc, -⟩ := numeral_head h
    simp [hc]
  · exact isBlank_of_isPathChar (isPathChar_of_isNumberChar (hbody c hc))

theorem solid_literal {v : Json} {text : List Char} (h : Literal v text) : Solid text := by
  cases h with
  | true => exact .of_all (by simp) (by decide)
  | false => exact .of_all (by simp) (by decide)
  | null => exact .of_all (by simp) (by decide)
  | @string s cs _ => exact ⟨⟨'"', cs ++ ['"'], rfl, rfl⟩, ⟨'"' :: cs, '"', rfl, rfl⟩⟩
  | number hnumeral => exact solid_numeral hnumeral

theorem head?_literal {v : Json} {text : List Char} (h : Literal v text) :
    text.head? ≠ some '=' := by
  cases h with
  | number hnumeral =>
    obtain ⟨c, tail, rfl, hc⟩ := numeral_head hnumeral
    rintro ⟨⟩
    rcases hc with hc | hc <;> cases hc
  | _ => simp

end GuardExpr

end Statechart
