import Statechart.Proofs.Building
import Statechart.Proofs.Tokens

/-!
# Statechart.Proofs.Reading

Guard expressions are read as the grammar says. Soundness goes along the reader: what it has read is
a text of the expression. Completeness goes along the grammar: a text is read if there is more fuel
than characters in it, and if what follows cannot belong to it. The text of a chain of operands is
followed up to the step of the chain that has it as the left operand, since the reader goes on from
there.

* `GuardExpr.Reads`: soundness of a reader, for the texts of a level.
* `GuardExpr.Leads`: where a reader comes to with a part of a chain.
* `GuardExpr.Accepts`: completeness, by level.
* `GuardExpr.parse_iff`: a text is read as an expression exactly if it renders it.
-/

namespace Statechart
namespace GuardExpr

open Text

/-! ## Texts of expressions are solid -/

theorem Spells.solid {L : Level} {e : GuardExpr} {body : List Char} (h : Spells L e body) :
    Solid body := by
  have token : ∀ c, isBlank c = false → Solid [c] := fun c hc => .of_forall (by simp) (by simpa)
  induction h with
  | truthy hf => exact solid_field hf
  | @compare f op v ws ws' literal hf _ _ hoperand =>
    have hliteral : Solid literal := solid_literal hoperand.literal
    simpa using (solid_field hf).append (ws ++ (op.text.toList ++ ws')) hliteral
  | @not e ws body _ _ ih => exact (token '!' rfl).append ws ih
  | @parentheses e ws body ws' _ _ _ _ =>
    simpa using (token '(' rfl).append (ws ++ (body ++ ws')) (token ')' rfl)
  | unary _ ih => exact ih
  | @and l r body ws ws' body' _ _ _ _ ihl ihr =>
    simpa using ihl.append (ws ++ ('&' :: '&' :: ws')) ihr
  | conjunction _ ih => exact ih
  | @or l r body ws ws' body' _ _ _ _ ihl ihr =>
    simpa using ihl.append (ws ++ ('|' :: '|' :: ws')) ihr

/-! ## Soundness -/

/-- What the reader reads is a text of a level, with white space around it. -/
def Reads (L : Level) (read : Reader) : Prop :=
  ∀ cs e rest, read cs = .ok (e, rest) → ∃ ws body ws', cs = ws ++ (body ++ (ws' ++ rest)) ∧
    Blank ws ∧ Blank ws' ∧ Spells L e body

theorem atom_truthy {cs tail : List Char} {f : FieldRef} (h : field cs = .ok (f, tail))
    (hnone : comparison? (dropBlank tail) = none) :
    atom cs = .ok (.truthy f, dropBlank tail) := by
  rw [atom, h]
  simp only [bind, Except.bind, hnone]
  rfl

theorem atom_compare {cs tail more : List Char} {f : FieldRef} {op : Comparison}
    (h : field cs = .ok (f, tail)) (hsome : comparison? (dropBlank tail) = some (op, more)) :
    atom cs = (operand op (dropBlank more) >>= fun read => .ok (.compare f op read.1, read.2)) := by
  rw [atom, h]
  simp only [bind, Except.bind, hsome]
  cases op <;> rfl

theorem atom_eq_ok {cs rest : List Char} {e : GuardExpr} (h : atom cs = .ok (e, rest)) :
    ∃ body ws, cs = body ++ (ws ++ rest) ∧ Blank ws ∧ Spells .unary e body := by
  obtain ⟨⟨f, tail⟩, hfield, -⟩ := bind_eq_ok h
  obtain ⟨hf, hcs⟩ := field_eq_ok hfield
  obtain ⟨ws, hws, htail⟩ := exists_blank tail
  cases hop : comparison? (dropBlank tail) with
  | none =>
    rw [atom_truthy hfield hop] at h
    cases h
    exact ⟨_, ws, by rw [← htail, hcs], hws, .truthy hf⟩
  | some found =>
    obtain ⟨op, more⟩ := found
    rw [atom_compare hfield hop] at h
    obtain ⟨⟨v, last⟩, hoperand, hresult⟩ := bind_eq_ok h
    cases hresult
    obtain ⟨literal, hliteral, hmore⟩ := operand_eq_ok hoperand
    obtain ⟨ws', hws', hgap⟩ := exists_blank more
    refine ⟨_, [], ?_, blank_nil, .compare hf hws hws' hliteral⟩
    rw [hcs, htail, comparison?_eq_some hop, hgap, hmore]
    simp

variable {L M : Level} {token : List Char} {connect : GuardExpr → GuardExpr → GuardExpr}

/-- A connective makes a text of a level from one of the level and one of its operands. -/
def Connects (L M : Level) (token : List Char) (connect : GuardExpr → GuardExpr → GuardExpr) :
    Prop :=
  ∀ {l r : GuardExpr} {body ws ws' body' : List Char}, Spells L l body → Blank ws → Blank ws' →
    Spells M r body' → Spells L (connect l r) (body ++ (ws ++ (token ++ (ws' ++ body'))))

theorem chain_eq_ok {read : Reader} (hconnects : Connects L M token connect) (hread : Reads M read)
    {fuel : Nat} {left e : GuardExpr} {body ws cs rest : List Char} (hbody : Spells L left body)
    (hws : Blank ws) (h : chain token connect read fuel left cs = .ok (e, rest)) :
    ∃ body' ws', body ++ (ws ++ cs) = body' ++ (ws' ++ rest) ∧ Blank ws' ∧ Spells L e body' := by
  induction fuel generalizing left body ws cs with
  | zero =>
    cases h
    exact ⟨body, ws, rfl, hws, hbody⟩
  | succ fuel ih =>
    obtain ⟨gap, hgap, hcs⟩ := exists_blank cs
    simp only [chain] at h
    split at h
    · cases h
      refine ⟨body, ws ++ gap, ?_, hws.append hgap, hbody⟩
      rw [List.append_assoc, ← hcs]
    · rename_i tail htail
      obtain ⟨⟨right, more⟩, hright, hmore⟩ := bind_eq_ok h
      obtain ⟨before, operand, after, hoperands, hbefore, hafter, hoperand⟩ := hread _ _ _ hright
      have hnext := hconnects hbody (hws.append hgap) hbefore hoperand
      obtain ⟨body', ws', hsame, hws', he⟩ := ih hnext hafter hmore
      refine ⟨body', ws', ?_, hws', he⟩
      rw [← hsame, hcs, strip?_eq_some.1 htail, hoperands]
      simp

theorem conjunction_reads {read : Reader} (hread : Reads .unary read) (fuel : Nat) :
    Reads .conjunction (conjunction read fuel) := by
  intro cs e rest h
  obtain ⟨⟨left, more⟩, hleft, hmore⟩ := bind_eq_ok h
  obtain ⟨ws, body, ws', hcs, hws, hws', hbody⟩ := hread _ _ _ hleft
  obtain ⟨body', after, hsame, hafter, he⟩ := chain_eq_ok .and hread hbody.unary hws' hmore
  exact ⟨ws, body', after, by rw [hcs, hsame], hws, hafter, he⟩

theorem disjunction_reads {read : Reader} (hread : Reads .unary read) (fuel : Nat) :
    Reads .expr (disjunction read fuel) := by
  intro cs e rest h
  obtain ⟨⟨left, more⟩, hleft, hmore⟩ := bind_eq_ok h
  obtain ⟨ws, body, ws', hcs, hws, hws', hbody⟩ := conjunction_reads hread fuel _ _ _ hleft
  obtain ⟨body', after, hsame, hafter, he⟩ :=
    chain_eq_ok .or (conjunction_reads hread fuel) hbody.conjunction hws' hmore
  exact ⟨ws, body', after, by rw [hcs, hsame], hws, hafter, he⟩

theorem unary_reads (fuel levels : Nat) : Reads .unary (unary fuel levels) := by
  induction levels with
  | zero =>
    intro cs e rest h
    cases h
  | succ levels ih =>
    intro cs e rest h
    obtain ⟨ws, hws, hcs⟩ := exists_blank cs
    rw [unary] at h
    split at h
    · rename_i tail htail
      obtain ⟨⟨inner, more⟩, hinner, hresult⟩ := bind_eq_ok h
      cases hresult
      obtain ⟨gap, body, ws', hbodies, hgap, hws', hbody⟩ := ih _ _ _ hinner
      refine ⟨ws, _, ws', ?_, hws, hws', .not hgap hbody⟩
      rw [hcs, htail, hbodies]
      simp
    · rename_i tail htail
      obtain ⟨⟨inner, more⟩, hinner, hresult⟩ := bind_eq_ok h
      obtain ⟨gap, body, gap', hbodies, hgap, hgap', hbody⟩ :=
        disjunction_reads ih fuel _ _ _ hinner
      obtain ⟨last, hlast, hmore⟩ := exists_blank more
      simp only at hresult
      split at hresult
      · rename_i after hclose
        cases hresult
        refine ⟨ws, _, [], ?_, hws, blank_nil, .parentheses hgap hbody (hgap'.append hlast)⟩
        rw [hcs, htail, hbodies, hmore, hclose]
        simp
      · cases hresult
    · obtain ⟨body, ws', hsame, hws', hbody⟩ := atom_eq_ok h
      exact ⟨ws, body, ws', by rw [← hsame, ← hcs], hws, hws', hbody⟩

/-! ## What follows a text -/

/-- The characters that may follow a text of a level. -/
def Level.follow : Level → List Char
  | .unary => ['&', '|', ')']
  | .conjunction => ['|', ')']
  | .expr => [')']

/-- Behind white space the text ends, or goes on with what a text of the level is followed by. -/
def Closes (L : Level) (rest : List Char) : Prop :=
  ∀ c, (dropBlank rest).head? = some c → c ∈ L.follow

theorem Closes.unary {rest : List Char} (h : Closes L rest) : Closes .unary rest := by
  intro c hc
  have hmem := h c hc
  cases L with
  | unary => exact hmem
  | conjunction => exact List.mem_cons_of_mem _ hmem
  | expr => exact List.mem_cons_of_mem _ (List.mem_cons_of_mem _ hmem)

theorem closes_nil (L : Level) : Closes L [] := by
  intro c hc
  cases hc

theorem dropBlank_gap {ws : List Char} (h : Blank ws) {c : Char} (hc : isBlank c = false)
    (rest : List Char) : dropBlank (ws ++ c :: rest) = c :: rest := by
  rw [dropBlank_append h]
  exact List.dropWhile_cons_of_neg (by simp [hc])

theorem closes_gap {ws : List Char} (h : Blank ws) {c : Char} (hc : isBlank c = false)
    (hmem : c ∈ L.follow) (rest : List Char) : Closes L (ws ++ c :: rest) := by
  intro d hd
  rw [dropBlank_gap h hc] at hd
  cases hd
  exact hmem

theorem stops_gap {ws rest : List Char} (h : Blank ws) (hrest : Stops isPathChar rest) :
    Stops isPathChar (ws ++ rest) := by
  cases ws with
  | nil => exact hrest
  | cons c ws =>
    rintro d ⟨⟩
    cases hpath : isPathChar c with
    | false => rfl
    | true => exact absurd (h c List.mem_cons_self) (by simp [isBlank_of_isPathChar hpath])

theorem Closes.stops {rest : List Char} (h : Closes L rest) : Stops isPathChar rest := by
  obtain ⟨ws, hws, hrest⟩ := exists_blank rest
  rw [hrest]
  refine stops_gap hws fun c hc => ?_
  have hmem : c ∈ ['&', '|', ')'] := h.unary c hc
  simp only [List.mem_cons, List.not_mem_nil, or_false] at hmem
  rcases hmem with rfl | rfl | rfl <;> rfl

theorem Closes.comparison? {rest : List Char} (h : Closes L rest) :
    comparison? (dropBlank rest) = none := by
  cases hdrop : dropBlank rest with
  | nil => rfl
  | cons c tail =>
    have hmem : c ∈ ['&', '|', ')'] := h.unary c (by rw [hdrop]; rfl)
    simp only [List.mem_cons, List.not_mem_nil, or_false] at hmem
    rcases hmem with rfl | rfl | rfl <;> rfl

theorem Closes.strip? {rest : List Char} (h : Closes L rest) {c : Char} (hc : c ∉ L.follow)
    (token : List Char) : strip? (c :: token) (dropBlank rest) = none := by
  cases hdrop : dropBlank rest with
  | nil => rfl
  | cons d tail =>
    have hmem := h d (by rw [hdrop]; rfl)
    refine strip?_of_ne ?_ token tail
    rintro rfl
    exact hc hmem

/-! ## Completeness -/

theorem chain_close {read : Reader} {fuel : Nat} (hfuel : 0 < fuel) (e : GuardExpr)
    {rest : List Char} (h : strip? token (dropBlank rest) = none) :
    chain token connect read fuel e rest = .ok (e, dropBlank rest) := by
  obtain ⟨fuel, rfl⟩ := Nat.exists_eq_succ_of_ne_zero (Nat.ne_of_gt hfuel)
  simp only [chain, h]

theorem chain_step {read : Reader} {fuel : Nat} (hfuel : 0 < fuel) (left : GuardExpr)
    {rest tail more : List Char} {right : GuardExpr} (h : dropBlank rest = token ++ tail)
    (hread : read tail = .ok (right, more)) :
    chain token connect read fuel left rest =
      chain token connect read (fuel - 1) (connect left right) more := by
  obtain ⟨fuel, rfl⟩ := Nat.exists_eq_succ_of_ne_zero (Nat.ne_of_gt hfuel)
  simp only [chain, strip?_eq_some.2 h, hread]
  rfl

/-- With white space before it, a text leads to the step of a chain that has the expression as the
left operand. No more steps are made than the text has characters. -/
def Leads (L : Level) (start : Reader) (token : List Char)
    (connect : GuardExpr → GuardExpr → GuardExpr) (read : Reader) (fuel : Nat) (e : GuardExpr)
    (body : List Char) : Prop :=
  ∀ ws rest, Blank ws → Closes L rest →
    ∃ left rest', start (ws ++ (body ++ rest)) = chain token connect read left e rest' ∧
      fuel ≤ left + body.length ∧ dropBlank rest' = dropBlank rest

namespace Leads

variable {start read : Reader} {fuel : Nat} {e l r : GuardExpr} {body body' gap gap' : List Char}

/-- The chain ends where its connective does not follow. -/
theorem close (h : Leads L start token connect read fuel e body) (hfuel : body.length < fuel)
    {ws rest : List Char} (hws : Blank ws) (hrest : Closes L rest)
    (hnone : GuardExpr.strip? token (dropBlank rest) = none) :
    start (ws ++ (body ++ rest)) = .ok (e, dropBlank rest) := by
  obtain ⟨left, rest', hread, hleft, hsame⟩ := h ws rest hws hrest
  rw [← hsame] at hnone
  rw [hread, chain_close (by omega) e hnone, hsame]

/-- The chain goes on with one more operand. -/
theorem next {c : Char} {tail : List Char}
    (h : Leads L start (c :: tail) connect read fuel l body) (hfuel : body.length < fuel)
    (hgap : Blank gap) (hc : isBlank c = false) (hmem : c ∈ L.follow)
    (hread : ∀ rest, Closes L rest → ∃ rest', read (gap' ++ (body' ++ rest)) = .ok (r, rest') ∧
      dropBlank rest' = dropBlank rest) :
    Leads L start (c :: tail) connect read fuel (connect l r)
      (body ++ (gap ++ (c :: tail ++ (gap' ++ body')))) := by
  intro ws rest hws hrest
  obtain ⟨left, between, hstart, hleft, hbetween⟩ := h ws
    (gap ++ c :: (tail ++ (gap' ++ (body' ++ rest)))) hws (closes_gap hgap hc hmem _)
  obtain ⟨rest', hoperand, hsame⟩ := hread rest hrest
  rw [dropBlank_gap hgap hc] at hbetween
  refine ⟨left - 1, rest', ?_, ?_, hsame⟩
  · simp only [List.append_assoc, List.cons_append]
    rw [hstart, chain_step (by omega) l hbetween hoperand]
  · simp only [List.length_cons, List.length_append]
    omega

end Leads

/-- A text of an operand is read; one of a chain leads to a step of the chain. -/
def Accepts (fuel levels : Nat) : Level → GuardExpr → List Char → Prop
  | .unary, e, body => ∀ ws rest, Blank ws → Closes .unary rest →
      ∃ rest', unary fuel levels (ws ++ (body ++ rest)) = .ok (e, rest') ∧
        dropBlank rest' = dropBlank rest
  | .conjunction, e, body =>
      Leads .unary (conjunction (unary fuel levels) fuel) ['&', '&'] .and (unary fuel levels) fuel e
        body
  | .expr, e, body =>
      Leads .conjunction (disjunction (unary fuel levels) fuel) ['|', '|'] .or
        (conjunction (unary fuel levels) fuel) fuel e body

variable {fuel levels : Nat} {e l r : GuardExpr} {body body' ws gap gap' rest : List Char}

theorem Accepts.read_conjunction (h : Accepts fuel levels .conjunction e body)
    (hfuel : body.length < fuel) (hws : Blank ws) (hrest : Closes .conjunction rest) :
    conjunction (GuardExpr.unary fuel levels) fuel (ws ++ (body ++ rest)) =
      .ok (e, dropBlank rest) :=
  h.close hfuel hws hrest.unary (hrest.strip? (by decide) _)

theorem Accepts.read_expr (h : Accepts fuel levels .expr e body)
    (hfuel : body.length < fuel) (hws : Blank ws) (hrest : Closes .expr rest) :
    disjunction (GuardExpr.unary fuel levels) fuel (ws ++ (body ++ rest)) =
      .ok (e, dropBlank rest) :=
  h.close hfuel hws (fun c hc => List.mem_cons_of_mem _ (hrest c hc)) (hrest.strip? (by decide) _)

theorem unary_field {f : FieldRef} (hf : f.Plain) (hws : Blank ws) (rest : List Char) :
    unary fuel (levels + 1) (ws ++ (f.text.toList ++ rest)) = atom (f.text.toList ++ rest) := by
  have hhead : ∃ c tail, f.text.toList ++ rest = c :: tail ∧ c ≠ '!' ∧ c ≠ '(' := by
    rw [toList_text hf.1]
    cases f.scope with
    | context => exact ⟨'c', _, rfl, by decide, by decide⟩
    | event => exact ⟨'e', _, rfl, by decide, by decide⟩
  obtain ⟨c, tail, hcs, hnot, hopen⟩ := hhead
  rw [unary, dropBlank_append hws, (solid_field hf).dropBlank_append, hcs]
  split
  · rename_i heq
    cases heq
    exact absurd rfl hnot
  · rename_i heq
    cases heq
    exact absurd rfl hopen
  · rfl

theorem unary_not (hws : Blank ws) (cs : List Char) :
    unary fuel (levels + 1) (ws ++ '!' :: cs) = (do
      let (e, rest) ← unary fuel levels cs
      return (.not e, rest)) := by
  rw [unary, dropBlank_gap hws rfl]
  rfl

theorem unary_parentheses (hws : Blank ws) {cs tail : List Char}
    (hread : disjunction (unary fuel levels) fuel cs = .ok (e, ')' :: tail)) :
    unary fuel (levels + 1) (ws ++ '(' :: cs) = .ok (e, tail) := by
  rw [unary, dropBlank_gap hws rfl]
  simp only [hread]
  rfl

theorem comparison?_gap {op : Comparison} (hgap : Blank gap) (h : rest.head? ≠ some '=') :
    comparison? (dropBlank (gap ++ (op.text.toList ++ rest))) = some (op, rest) := by
  have hdrop : dropBlank (op.text.toList ++ rest) = op.text.toList ++ rest := by
    cases op <;> rfl
  rw [dropBlank_append hgap, hdrop, comparison?_append h]

theorem Accepts.truthy {f : FieldRef} (hf : f.Plain) :
    Accepts fuel (levels + 1) .unary (.truthy f) f.text.toList := by
  intro ws rest hws hrest
  have hread := atom_truthy (field_append hf hrest.stops) hrest.comparison?
  exact ⟨dropBlank rest, (unary_field hf hws rest).trans hread, dropBlank_dropBlank rest⟩

theorem Accepts.compare {f : FieldRef} {op : Comparison} {v : Json} {literal : List Char}
    (hf : f.Plain) (hgap : Blank gap) (hgap' : Blank gap') (hoperand : Operand op v literal) :
    Accepts fuel (levels + 1) .unary (.compare f op v)
      (f.text.toList ++ (gap ++ (op.text.toList ++ (gap' ++ literal)))) := by
  intro ws rest hws hrest
  have hsolid : Solid literal := solid_literal hoperand.literal
  have hstops : Stops isPathChar (gap ++ (op.text.toList ++ (gap' ++ (literal ++ rest)))) := by
    refine stops_gap hgap fun c hc => ?_
    cases op <;> cases hc <;> rfl
  have hhead : (gap' ++ (literal ++ rest)).head? ≠ some '=' := by
    cases gap' with
    | nil =>
      obtain ⟨c, tail, rfl, -⟩ := hsolid.begins
      have hc : (c :: tail).head? ≠ some '=' := head?_literal hoperand.literal
      exact hc
    | cons c gap' =>
      rintro ⟨⟩
      cases hgap' '=' List.mem_cons_self
  have hread : operand op (dropBlank (gap' ++ (literal ++ rest))) = .ok (v, rest) := by
    rw [dropBlank_append hgap', hsolid.dropBlank_append]
    exact operand_append hoperand (hrest.stops.mono fun c hc => isPathChar_of_isNumberChar hc)
  refine ⟨rest, ?_, rfl⟩
  simp only [List.append_assoc]
  rw [unary_field hf hws, atom_compare (field_append hf hstops) (comparison?_gap hgap hhead), hread]
  rfl

theorem Accepts.not (hgap : Blank gap) (h : Accepts fuel levels .unary e body) :
    Accepts fuel (levels + 1) .unary (.not e) ('!' :: (gap ++ body)) := by
  intro ws rest hws hrest
  obtain ⟨rest', hread, hsame⟩ := h gap rest hgap hrest
  refine ⟨rest', ?_, hsame⟩
  rw [List.cons_append, unary_not hws, List.append_assoc, hread]
  rfl

theorem Accepts.parentheses (hgap : Blank gap) (h : Accepts fuel levels .expr e body)
    (hfuel : body.length < fuel) (hgap' : Blank gap') :
    Accepts fuel (levels + 1) .unary e ('(' :: (gap ++ (body ++ (gap' ++ [')'])))) := by
  intro ws rest hws hrest
  refine ⟨rest, ?_, rfl⟩
  have hclose : Closes .expr (gap' ++ ')' :: rest) :=
    closes_gap hgap' rfl List.mem_cons_self rest
  have hread := h.read_expr hfuel hgap hclose
  rw [dropBlank_gap hgap' rfl] at hread
  simp only [List.cons_append, List.append_assoc, List.nil_append]
  exact unary_parentheses hws hread

theorem Accepts.conjunction (h : Accepts fuel levels .unary e body) :
    Accepts fuel levels .conjunction e body := by
  intro ws rest hws hrest
  obtain ⟨rest', hread, hsame⟩ := h ws rest hws hrest
  refine ⟨fuel, rest', ?_, Nat.le_add_right _ _, hsame⟩
  rw [GuardExpr.conjunction, hread]
  rfl

theorem Accepts.and (hl : Accepts fuel levels .conjunction l body) (hfuel : body.length < fuel)
    (hgap : Blank gap) (hgap' : Blank gap') (hr : Accepts fuel levels .unary r body') :
    Accepts fuel levels .conjunction (.and l r)
      (body ++ (gap ++ (['&', '&'] ++ (gap' ++ body')))) :=
  hl.next hfuel hgap rfl (by decide) fun rest hrest => hr gap' rest hgap' hrest

theorem Accepts.expr (h : Accepts fuel levels .conjunction e body) (hfuel : body.length < fuel) :
    Accepts fuel levels .expr e body := by
  intro ws rest hws hrest
  refine ⟨fuel, dropBlank rest, ?_, Nat.le_add_right _ _, dropBlank_dropBlank rest⟩
  rw [disjunction, h.read_conjunction hfuel hws hrest]
  rfl

theorem Accepts.or (hl : Accepts fuel levels .expr l body) (hfuel : body.length < fuel)
    (hgap : Blank gap) (hgap' : Blank gap') (hr : Accepts fuel levels .conjunction r body')
    (hfuel' : body'.length < fuel) :
    Accepts fuel levels .expr (.or l r) (body ++ (gap ++ (['|', '|'] ++ (gap' ++ body')))) :=
  hl.next hfuel hgap rfl (by decide) fun rest hrest =>
    ⟨dropBlank rest, hr.read_conjunction hfuel' hgap' hrest, dropBlank_dropBlank rest⟩

theorem Spells.accepted {L : Level} (h : Spells L e body) (hfuel : body.length < fuel)
    (hlevels : body.length < levels) : Accepts fuel levels L e body := by
  induction h generalizing levels with
  | truthy hf =>
    obtain ⟨levels, rfl⟩ := Nat.exists_eq_succ_of_ne_zero (Nat.ne_zero_of_lt hlevels)
    exact .truthy hf
  | compare hf hgap hgap' hoperand =>
    obtain ⟨levels, rfl⟩ := Nat.exists_eq_succ_of_ne_zero (Nat.ne_zero_of_lt hlevels)
    exact .compare hf hgap hgap' hoperand
  | not hgap _ ih =>
    -- Only negations and parentheses go down a level, and each has a character of its own.
    obtain ⟨levels, rfl⟩ := Nat.exists_eq_succ_of_ne_zero (Nat.ne_zero_of_lt hlevels)
    simp only [List.length_cons, List.length_append] at hfuel hlevels
    exact .not hgap (ih (by omega) (by omega))
  | parentheses hgap _ hgap' ih =>
    obtain ⟨levels, rfl⟩ := Nat.exists_eq_succ_of_ne_zero (Nat.ne_zero_of_lt hlevels)
    simp only [List.length_cons, List.length_append] at hfuel hlevels
    exact .parentheses hgap (ih (by omega) (by omega)) (by omega) hgap'
  | unary _ ih => exact (ih hfuel hlevels).conjunction
  | and _ hgap hgap' _ ihl ihr =>
    simp only [List.length_append] at hfuel hlevels
    exact .and (ihl (by omega) (by omega)) (by omega) hgap hgap' (ihr (by omega) (by omega))
  | conjunction _ ih => exact (ih hfuel hlevels).expr hfuel
  | or _ hgap hgap' _ ihl ihr =>
    simp only [List.length_append] at hfuel hlevels
    exact .or (ihl (by omega) (by omega)) (by omega) hgap hgap' (ihr (by omega) (by omega))
      (by omega)

theorem renders_of_parse {e : GuardExpr} {text : String} (h : parse text = .ok e) :
    e.Renders text := by
  obtain ⟨ws, ws', hws, hws', htext⟩ := exists_trimChars text.toList
  simp only [parse, parseChars] at h
  split at h
  · cases h
  · obtain ⟨⟨read, rest⟩, hread, hresult⟩ := bind_eq_ok h
    simp only at hresult
    split at hresult
    · rename_i hend
      cases hresult
      obtain ⟨gap, body, gap', hbody, hgap, hgap', he⟩ :=
        disjunction_reads (unary_reads _ _) _ _ _ _ hread
      obtain ⟨last, hlast, hrest⟩ := exists_blank rest
      rw [List.isEmpty_iff.1 hend, List.append_nil] at hrest
      refine ⟨ws ++ gap, body, gap' ++ (last ++ ws'), ?_, hws.append hgap,
        hgap'.append (hlast.append hws'), he⟩
      rw [htext, hbody, hrest]
      simp
    · cases hresult

theorem parse_of_renders {e : GuardExpr} {text : String} (h : e.Renders text) :
    parse text = .ok e := by
  obtain ⟨ws, body, ws', htext, hws, hws', he⟩ := h
  have hread : expression body = .ok (e, []) := by
    have haccepts : Accepts (body.length + 1) (body.length + 1) .expr e body :=
      he.accepted (Nat.lt_succ_self _) (Nat.lt_succ_self _)
    have hexpr := haccepts.read_expr (Nat.lt_succ_self _) blank_nil (closes_nil .expr)
    rwa [List.append_nil, List.nil_append] at hexpr
  have hne : body.isEmpty = false := by
    obtain ⟨c, rest, rfl, -⟩ := he.solid.begins
    rfl
  rw [parse, parseChars, htext, he.solid.trimChars_append hws hws']
  simp only [hne, hread]
  rfl

/-- A text is read as an expression exactly if it renders it. Every plain expression has such a
text, which is read as it. -/
theorem parse_iff (e : GuardExpr) (text : String) :
    (parse text = .ok e ↔ e.Renders text) ∧
      (e.Plain → ∃ text, e.Renders text ∧ parse text = .ok e) := by
  refine ⟨⟨renders_of_parse, parse_of_renders⟩, fun hplain => ?_⟩
  obtain ⟨text, htext⟩ := exists_renders hplain
  exact ⟨text, htext, parse_of_renders htext⟩

/-- Unpaid, and not tried too often. -/
def retrying : GuardExpr :=
  .and
    (.not (.or (.compare ⟨.context, ["paid"]⟩ .eq (.bool true))
      (.truthy ⟨.event, ["order", "done"]⟩)))
    (.compare ⟨.context, ["attempts"]⟩ .lt (.int (-3)))

theorem retrying_parsed :
    retrying.Plain ∧
      parse " !( ctx.paid==true||event.order.done ) && ((ctx.attempts < -03))" = .ok retrying ∧
      retrying.Renders " !( ctx.paid==true||event.order.done ) && ((ctx.attempts < -03))" ∧
      ∃ text, retrying.Renders text ∧ parse text = .ok retrying := by
  have hpaid : FieldRef.Plain ⟨.context, ["paid"]⟩ := by decide +kernel
  have hdone : FieldRef.Plain ⟨.event, ["order", "done"]⟩ := by decide +kernel
  have hattempts : FieldRef.Plain ⟨.context, ["attempts"]⟩ := by decide +kernel
  have hfits : Fits (-3) := by decide
  have hplain : retrying.Plain :=
    ⟨⟨⟨hpaid, .inr (.inl ⟨true, rfl⟩)⟩, hdone⟩, hattempts, hfits⟩
  have hparse : parse " !( ctx.paid==true||event.order.done ) && ((ctx.attempts < -03))" =
      .ok retrying := rfl
  obtain ⟨hiff, hexists⟩ :=
    parse_iff retrying " !( ctx.paid==true||event.order.done ) && ((ctx.attempts < -03))"
  exact ⟨hplain, hparse, hiff.1 hparse, hexists hplain⟩

end GuardExpr
end Statechart
