import Statechart.Proofs.Tokens

/-!
# Statechart.Proofs.Words

Lines that are cut into words, and texts that are put together from words again. What comes out is
the text with every run of white space as one space.

* `Text.squeeze`: the text with single spaces, position by position.
* `Text.squeeze_eq_cons`, `Text.squeeze_suffix`: what of a text is left in it.
* `Text.wordsOfChars_append`: the first word of a line.
* `Text.intercalate_words`: the words of a text with spaces between them.
-/

namespace Statechart.Text

/-! ## Single spaces -/

def startsWord : List Char → Bool
  | c :: _ => !isBlank c
  | [] => false

/-- Every run of white space as one space, and none at the end. What becomes of the rest of a text
does not depend on what stands before it. -/
def squeeze : List Char → List Char
  | [] => []
  | c :: rest =>
    if !isBlank c then c :: squeeze rest
    else if startsWord rest then ' ' :: squeeze rest
    else squeeze rest

example : String.ofList (squeeze "a  b \t c ".toList) = "a b c" := by decide +kernel

theorem solid_of_all {cs : List Char} (h : (cs.all fun c => !isBlank c) = true) :
    ∀ c ∈ cs, isBlank c = false := by
  simpa using h

section Squeeze

variable {c : Char} {cs rest : List Char}

@[simp] theorem squeeze_nil : squeeze [] = [] := rfl

theorem squeeze_cons (hc : isBlank c = false) : squeeze (c :: rest) = c :: squeeze rest := by
  rw [squeeze, hc]
  rfl

theorem squeeze_blank (hc : isBlank c = true) :
    squeeze (c :: rest) = if startsWord rest then ' ' :: squeeze rest else squeeze rest := by
  rw [squeeze, hc]
  rfl

theorem squeeze_suffix_cons : squeeze rest <:+ squeeze (c :: rest) := by
  rw [squeeze]
  split
  · exact List.suffix_cons _ _
  · split
    · exact List.suffix_cons _ _
    · exact List.suffix_rfl

theorem squeeze_suffix (h : rest <:+ cs) : squeeze rest <:+ squeeze cs := by
  obtain ⟨before, rfl⟩ := h
  induction before with
  | nil => exact List.suffix_rfl
  | cons c before ih => exact ih.trans squeeze_suffix_cons

theorem dropBlank_of_startsWord (h : startsWord cs = true) : dropBlank cs = cs := by
  cases cs with
  | nil => rfl
  | cons c rest => exact List.dropWhile_cons_of_neg (by simpa [startsWord] using h)

theorem startsWord_dropBlank (h : dropBlank cs ≠ []) : startsWord (dropBlank cs) = true := by
  have hhead := List.head?_dropWhile_not isBlank cs
  cases hdrop : dropBlank cs with
  | nil => exact absurd hdrop h
  | cons c rest =>
    rw [← dropBlank, hdrop] at hhead
    simpa [startsWord] using hhead

/-- White space in front of a word is one space. -/
theorem squeeze_of_not_startsWord (h : startsWord cs = false) :
    squeeze cs = if dropBlank cs = [] then [] else ' ' :: squeeze (dropBlank cs) := by
  induction cs with
  | nil => rfl
  | cons c rest ih =>
    have hc : isBlank c = true := by simpa [startsWord] using h
    have hdrop : dropBlank (c :: rest) = dropBlank rest :=
      List.dropWhile_cons_of_pos hc
    rw [squeeze_blank hc, hdrop]
    cases hrest : startsWord rest with
    | true =>
      have hne : rest ≠ [] := by
        rintro rfl
        cases hrest
      rw [dropBlank_of_startsWord hrest, if_neg hne, if_pos rfl]
    | false => exact ih hrest

theorem squeeze_eq_cons (hc : isBlank c = false) {tail : List Char} :
    squeeze cs = c :: tail ↔ ∃ rest, cs = c :: rest ∧ squeeze rest = tail := by
  constructor
  · intro h
    cases cs with
    | nil => cases h
    | cons d rest =>
      cases hd : isBlank d with
      | true =>
        rw [squeeze_of_not_startsWord (by simp [startsWord, hd])] at h
        split at h
        · cases h
        · cases h
          cases hc
      | false =>
        rw [squeeze_cons hd] at h
        cases h
        exact ⟨rest, rfl, rfl⟩
  · rintro ⟨rest, rfl, rfl⟩
    exact squeeze_cons hc

theorem squeeze_eq_nil : squeeze cs = [] ↔ dropBlank cs = [] := by
  cases hcs : startsWord cs with
  | true =>
    rw [dropBlank_of_startsWord hcs]
    cases cs with
    | nil => exact iff_of_true rfl rfl
    | cons c rest =>
      rw [squeeze_cons (by simpa [startsWord] using hcs)]
      exact iff_of_false nofun nofun
  | false =>
    rw [squeeze_of_not_startsWord hcs]
    split
    · rename_i hdrop
      exact iff_of_true rfl hdrop
    · rename_i hdrop
      exact iff_of_false nofun hdrop

/-- Characters that are not white space stay where they are. -/
theorem squeeze_append {word : List Char} (h : ∀ c ∈ word, isBlank c = false) (rest : List Char) :
    squeeze (word ++ rest) = word ++ squeeze rest := by
  induction word with
  | nil => rfl
  | cons c word ih =>
    obtain ⟨hc, hword⟩ := List.forall_mem_cons.1 h
    rw [List.cons_append, squeeze_cons hc, ih hword, List.cons_append]

theorem exists_of_squeeze_append {word tail : List Char} (h : ∀ c ∈ word, isBlank c = false)
    (hcs : squeeze cs = word ++ tail) : ∃ rest, cs = word ++ rest := by
  induction word generalizing cs with
  | nil => exact ⟨cs, rfl⟩
  | cons c word ih =>
    obtain ⟨hc, hword⟩ := List.forall_mem_cons.1 h
    obtain ⟨behind, rfl, hbehind⟩ := (squeeze_eq_cons hc).1 hcs
    obtain ⟨rest, rfl⟩ := ih hword hbehind
    exact ⟨rest, rfl⟩

end Squeeze

/-! ## Words -/

section Words

variable {c : Char} {word rest : List Char}

theorem wordsOfChars_blank (hc : isBlank c = true) :
    wordsOfChars (c :: rest) = wordsOfChars rest := by
  rw [wordsOfChars, hc]
  rfl

theorem wordsOfChars_cons (hc : isBlank c = false) :
    wordsOfChars (c :: rest) = addToWords c rest (wordsOfChars rest) := by
  rw [wordsOfChars, hc]
  rfl

/-- In front of white space, a character is a word of its own. -/
theorem addToWords_blank (h : startsWord rest = false) (words : List (List Char)) :
    addToWords c rest words = [c] :: words := by
  cases rest with
  | nil => cases words <;> rfl
  | cons d rest =>
    have hd : isBlank d = true := by simpa [startsWord] using h
    cases words with
    | nil => rfl
    | cons first words => exact if_pos hd

/-- In front of a word, a character is a part of it. -/
theorem addToWords_word (h : startsWord rest = true) (first : List Char)
    (words : List (List Char)) : addToWords c rest (first :: words) = (c :: first) :: words := by
  cases rest with
  | nil => cases h
  | cons d rest =>
    have hd : isBlank d = false := by simpa [startsWord] using h
    exact if_neg (by rw [hd]; exact Bool.false_ne_true)

theorem exists_wordsOfChars (h : startsWord rest = true) :
    ∃ first words, wordsOfChars rest = first :: words := by
  cases rest with
  | nil => cases h
  | cons d rest =>
    have hd : isBlank d = false := by simpa [startsWord] using h
    rw [wordsOfChars_cons hd]
    unfold addToWords
    split
    · split
      · exact ⟨_, _, rfl⟩
      · exact ⟨_, _, rfl⟩
    · exact ⟨_, _, rfl⟩

theorem wordsOfChars_dropBlank (cs : List Char) :
    wordsOfChars (dropBlank cs) = wordsOfChars cs := by
  induction cs with
  | nil => rfl
  | cons c rest ih =>
    rw [dropBlank, List.dropWhile_cons]
    cases hc : isBlank c with
    | true => rw [wordsOfChars_blank hc]; exact ih
    | false => rfl

/-- The first word of a line. -/
theorem wordsOfChars_append (hne : word ≠ []) (h : ∀ c ∈ word, isBlank c = false) :
    wordsOfChars (word ++ ' ' :: rest) = word :: wordsOfChars rest := by
  induction word with
  | nil => exact absurd rfl hne
  | cons c word ih =>
    obtain ⟨hc, hword⟩ := List.forall_mem_cons.1 h
    rw [List.cons_append, wordsOfChars_cons hc]
    cases word with
    | nil => exact addToWords_blank rfl _
    | cons d word =>
      have hd : startsWord (d :: word ++ ' ' :: rest) = true := by
        simp [startsWord, hword d List.mem_cons_self]
      rw [ih (List.cons_ne_nil _ _) hword, addToWords_word hd]

/-- The words of a text, with one space between them, are the text with single spaces. -/
theorem intercalate_wordsOfChars (cs : List Char) :
    [' '].intercalate (wordsOfChars cs) = squeeze (dropBlank cs) := by
  induction cs with
  | nil => rfl
  | cons c rest ih =>
    rw [dropBlank, List.dropWhile_cons]
    cases hc : isBlank c with
    | true => rw [wordsOfChars_blank hc]; exact ih
    | false =>
      rw [wordsOfChars_cons hc, if_neg Bool.false_ne_true, squeeze_cons hc]
      cases hrest : startsWord rest with
      | true =>
        obtain ⟨first, words, hwords⟩ := exists_wordsOfChars hrest
        rw [dropBlank_of_startsWord hrest, hwords] at ih
        rw [hwords, addToWords_word hrest, ← ih]
        cases words <;> simp
      | false =>
        rw [addToWords_blank hrest, squeeze_of_not_startsWord hrest, ← wordsOfChars_dropBlank]
        split
        · rename_i hdrop
          rw [hdrop]
          rfl
        · rename_i hdrop
          obtain ⟨first, words, hwords⟩ := exists_wordsOfChars (startsWord_dropBlank hdrop)
          rw [← ih, ← wordsOfChars_dropBlank rest, hwords]
          simp

end Words

theorem intercalate_words (text : String) :
    " ".intercalate (words text) = String.ofList (squeeze (dropBlank text.toList)) := by
  rw [← intercalate_wordsOfChars, words, ← String.toList_inj, String.toList_intercalate,
    String.toList_ofList, List.map_map]
  simp [Function.comp_def]

end Statechart.Text
