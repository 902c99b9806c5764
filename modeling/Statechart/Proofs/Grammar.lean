import Statechart.Guard.Expr
import Statechart.Number.Binary64
import Statechart.Text.Blank
import Statechart.Text.Letter

/-!
# Statechart.Proofs.Grammar

The texts of guard expressions, described without reading them:

    expr    = and ("||" and)*
    and     = unary ("&&" unary)*
    unary   = "!" unary | "(" expr ")" | field [op literal]

Texts of a level begin and end with a character of a token; white space stands in the gaps. The
connectives associate to the left, so the left operand of a connective has its own level.

* `Numeral`, `Literal`, `FieldRef.Plain`: the texts of numbers, of literals and of fields.
* `GuardExpr.Spells`: the texts of an expression, by level.
* `GuardExpr.Renders`: with white space around them.
* `GuardExpr.exists_renders`: every expression with fields and literals that have a text has one.
-/

namespace Statechart

/-! ## Tokens -/

/-- Nothing but white space. -/
def Blank (cs : List Char) : Prop :=
  ∀ c ∈ cs, Text.isBlank c = true

/-- A field with a text: it has keys, and they are made of letters, digits and `_`. -/
def FieldRef.Plain (f : FieldRef) : Prop :=
  f.path ≠ [] ∧ ∀ key ∈ f.path, key ≠ "" ∧
    ∀ c ∈ key.toList, Text.isAlphanumeric c = true ∨ c = '_'

def FieldRef.isPlain (f : FieldRef) : Bool :=
  !f.path.isEmpty && f.path.all fun key =>
    key != "" && key.toList.all fun c => Text.isAlphanumeric c || c == '_'

theorem FieldRef.isPlain_iff {f : FieldRef} : f.isPlain = true ↔ f.Plain := by
  simp [isPlain, Plain]

instance (f : FieldRef) : Decidable f.Plain :=
  decidable_of_iff _ FieldRef.isPlain_iff

/-- Characters as they stand between quotes: after a backslash any of them, else those that are
neither a quote nor a backslash. -/
inductive Quotes : List Char → List Char → Prop where
  | nil : Quotes [] []
  | plain {s cs : List Char} {c : Char} : c ≠ '"' → c ≠ '\\' → Quotes s cs →
      Quotes (c :: s) (c :: cs)
  | escaped {s cs : List Char} (c : Char) : Quotes s cs → Quotes (c :: s) ('\\' :: c :: cs)

def AllDigits (cs : List Char) : Prop :=
  ∀ c ∈ cs, c.isDigit = true

def sign (negative : Bool) : List Char :=
  if negative then ['-'] else []

/-- The whole number of digits behind a sign. -/
def wholeOf (negative : Bool) (digits : List Char) : Int :=
  if negative then -(Nat.ofDigitChars 10 digits 0 : Int) else Nat.ofDigitChars 10 digits 0

/-- Does a number fit 64 bits? -/
def Fits (n : Int) : Prop :=
  -Nat.pow 2 63 ≤ n ∧ n < Nat.pow 2 63

instance (n : Int) : Decidable (Fits n) :=
  inferInstanceAs (Decidable (_ ∧ _))

/-- The texts of numbers. Digits without a point are a whole number if it fits 64 bits; all other
numbers are those that reading decimals makes of the digits. -/
inductive Numeral : Json → List Char → Prop where
  | whole (negative : Bool) {digits : List Char} : digits ≠ [] → AllDigits digits →
      Fits (wholeOf negative digits) →
      Numeral (.int (wholeOf negative digits)) (sign negative ++ digits)
  | great (negative : Bool) {digits : List Char} {x : Float} : digits ≠ [] → AllDigits digits →
      ¬ Fits (wholeOf negative digits) →
      Number.ofDecimal (Nat.ofDigitChars 10 digits 0) 0 = some x →
      Numeral (.float (if negative then -x else x)) (sign negative ++ digits)
  | decimal (negative : Bool) {whole fraction : List Char} {x : Float} :
      whole ≠ [] ∨ fraction ≠ [] → AllDigits whole → AllDigits fraction →
      Number.ofDecimal (Nat.ofDigitChars 10 (whole ++ fraction) 0) (-(fraction.length : Int)) =
        some x →
      Numeral (.float (if negative then -x else x)) (sign negative ++ (whole ++ '.' :: fraction))

inductive Literal : Json → List Char → Prop where
  | true : Literal (.bool Bool.true) ['t', 'r', 'u', 'e']
  | false : Literal (.bool Bool.false) ['f', 'a', 'l', 's', 'e']
  | null : Literal .null ['n', 'u', 'l', 'l']
  | string {s : String} {cs : List Char} :
      Quotes s.toList cs → Literal (.str s) ('"' :: cs ++ ['"'])
  | number {v : Json} {cs : List Char} : Numeral v cs → Literal v cs

/-- What may stand behind a comparison: behind one by order only a number. -/
def Operand : Comparison → Json → List Char → Prop
  | .eq | .ne => Literal
  | .gt | .ge | .lt | .le => Numeral

theorem Operand.literal {op : Comparison} {v : Json} {cs : List Char} (h : Operand op v cs) :
    Literal v cs := by
  cases op with
  | eq => exact h
  | ne => exact h
  | _ => exact .number h

/-! ## Expressions -/

namespace GuardExpr

/-- How tightly the outermost construct of a text binds. -/
inductive Level where
  | expr
  | conjunction
  | unary

inductive Spells : Level → GuardExpr → List Char → Prop where
  | truthy {f : FieldRef} : f.Plain → Spells .unary (.truthy f) f.text.toList
  | compare {f : FieldRef} {op : Comparison} {v : Json} {ws ws' literal : List Char} :
      f.Plain → Blank ws → Blank ws' → Operand op v literal →
      Spells .unary (.compare f op v)
        (f.text.toList ++ (ws ++ (op.text.toList ++ (ws' ++ literal))))
  | not {e : GuardExpr} {ws body : List Char} :
      Blank ws → Spells .unary e body → Spells .unary (.not e) ('!' :: (ws ++ body))
  | parentheses {e : GuardExpr} {ws body ws' : List Char} :
      Blank ws → Spells .expr e body → Blank ws' →
      Spells .unary e ('(' :: (ws ++ (body ++ (ws' ++ [')']))))
  | unary {e : GuardExpr} {body : List Char} : Spells .unary e body → Spells .conjunction e body
  | and {l r : GuardExpr} {body ws ws' body' : List Char} :
      Spells .conjunction l body → Blank ws → Blank ws' → Spells .unary r body' →
      Spells .conjunction (.and l r) (body ++ (ws ++ (['&', '&'] ++ (ws' ++ body'))))
  | conjunction {e : GuardExpr} {body : List Char} :
      Spells .conjunction e body → Spells .expr e body
  | or {l r : GuardExpr} {body ws ws' body' : List Char} :
      Spells .expr l body → Blank ws → Blank ws' → Spells .conjunction r body' →
      Spells .expr (.or l r) (body ++ (ws ++ (['|', '|'] ++ (ws' ++ body'))))

/-- A text of an expression, with white space around it. -/
def Renders (e : GuardExpr) (text : String) : Prop :=
  ∃ ws body ws', text.toList = ws ++ (body ++ ws') ∧ Blank ws ∧ Blank ws' ∧ Spells .expr e body

/-! ## Expressions that have a text -/

/-- A literal that has a text: a string, a truth value, null or a whole number of 64 bits. Behind a
comparison by order it is a number. -/
def PlainOperand : Comparison → Json → Prop
  | _, .int n => Fits n
  | .eq, v | .ne, v => v = .null ∨ (∃ b, v = .bool b) ∨ ∃ s, v = .str s
  | _, _ => False

def Plain : GuardExpr → Prop
  | .truthy f => f.Plain
  | .compare f op v => f.Plain ∧ PlainOperand op v
  | .and l r => l.Plain ∧ r.Plain
  | .or l r => l.Plain ∧ r.Plain
  | .not e => e.Plain

end GuardExpr

theorem blank_nil : Blank [] :=
  fun _ h => absurd h List.not_mem_nil

theorem exists_quotes (s : List Char) : ∃ cs, Quotes s cs := by
  induction s with
  | nil => exact ⟨[], .nil⟩
  | cons c s ih =>
    obtain ⟨cs, h⟩ := ih
    exact ⟨_, .escaped c h⟩

theorem exists_numeral {n : Int} (h : Fits n) : ∃ cs, Numeral (.int n) cs := by
  have hdigits : AllDigits (Nat.toDigits 10 n.natAbs) := fun c hc =>
    Nat.isDigit_of_mem_toDigits (by decide) (by decide) hc
  have hn : wholeOf (decide (n < 0)) (Nat.toDigits 10 n.natAbs) = n := by
    rw [wholeOf, Nat.ofDigitChars_ten_toDigits]
    split <;> rename_i hneg <;> simp at hneg <;> omega
  have hnumeral := Numeral.whole (decide (n < 0)) Nat.toDigits_ne_nil hdigits (by rwa [hn])
  rw [hn] at hnumeral
  exact ⟨_, hnumeral⟩

namespace GuardExpr

theorem exists_operand {op : Comparison} {v : Json} (h : PlainOperand op v) :
    ∃ cs, Operand op v cs := by
  have literal : v = .null ∨ (∃ b, v = .bool b) ∨ (∃ s, v = .str s) → ∃ cs, Literal v cs := by
    rintro (rfl | ⟨b, rfl⟩ | ⟨s, rfl⟩)
    · exact ⟨_, .null⟩
    · cases b with
      | true => exact ⟨_, .true⟩
      | false => exact ⟨_, .false⟩
    · obtain ⟨cs, hcs⟩ := exists_quotes s.toList
      exact ⟨_, .string hcs⟩
  cases v with
  | int n =>
    have hfits : Fits n := by cases op <;> exact h
    obtain ⟨cs, hcs⟩ := exists_numeral hfits
    cases op with
    | eq => exact ⟨cs, .number hcs⟩
    | ne => exact ⟨cs, .number hcs⟩
    | _ => exact ⟨cs, hcs⟩
  | _ =>
    cases op with
    | eq => exact literal h
    | ne => exact literal h
    | _ => exact h.elim

theorem Spells.enclose {e : GuardExpr} {body : List Char} (h : Spells .expr e body) :
    Spells .unary e ('(' :: (body ++ [')'])) :=
  .parentheses blank_nil h blank_nil

/-- Every plain expression has a text: with parentheses around all operands. -/
theorem exists_spells {e : GuardExpr} (h : e.Plain) : ∃ body, Spells .expr e body := by
  induction e with
  | truthy f => exact ⟨_, .conjunction (.unary (.truthy h))⟩
  | compare f op v =>
    obtain ⟨cs, hcs⟩ := exists_operand h.2
    exact ⟨_, .conjunction (.unary (.compare h.1 blank_nil blank_nil hcs))⟩
  | and l r ihl ihr =>
    obtain ⟨body, hbody⟩ := ihl h.1
    obtain ⟨body', hbody'⟩ := ihr h.2
    exact ⟨_, .conjunction (.and (.unary hbody.enclose) blank_nil blank_nil hbody'.enclose)⟩
  | or l r ihl ihr =>
    obtain ⟨body, hbody⟩ := ihl h.1
    obtain ⟨body', hbody'⟩ := ihr h.2
    exact ⟨_, .or hbody blank_nil blank_nil (.unary hbody'.enclose)⟩
  | not e ih =>
    obtain ⟨body, hbody⟩ := ih h
    exact ⟨_, .conjunction (.unary (.not blank_nil hbody.enclose))⟩

theorem exists_renders {e : GuardExpr} (h : e.Plain) : ∃ text, e.Renders text := by
  obtain ⟨body, hbody⟩ := exists_spells h
  exact ⟨String.ofList body, [], body, [], by simp, blank_nil, blank_nil, hbody⟩

end GuardExpr

end Statechart
