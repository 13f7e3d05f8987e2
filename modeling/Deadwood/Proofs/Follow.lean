import Deadwood.Proofs.Reading

/-! What may follow a phrase. A reader takes as much as it can, so it stops at the end of a phrase
only when what follows cannot continue it. -/
namespace Deadwood.Grammar

/-- How tight a lexeme binds what stands before it to itself. -/
def strength : Lexeme → Nat
  | .op o => o.precedence?.getD 0
  | .openParen | .openBracket | .openDouble | .dollar => 11
  | _ => 0

/-- The rest does not continue an operand of layer `k`. -/
def Stops (k : Nat) (rest : List Lexeme) : Prop := ∀ l, rest.head? = some l → strength l < k

def ends : Lexeme → Bool
  | .newline | .semicolon | .comma | .closeParen | .closeBrace | .closeBracket _ | .keyword .elseWord => true
  | _ => false

def Ended (rest : List Lexeme) : Prop := ∀ l, rest.head? = some l → ends l

def elseAhead : List Lexeme → Bool
  | .keyword .elseWord :: _ | .newline :: .keyword .elseWord :: _ => true
  | _ => false

def Follows (rest : List Lexeme) : Prop := Ended rest ∧ !elseAhead rest

theorem strength_of_ends {l : Lexeme} (h : ends l) : strength l = 0 := by
  cases l with
  | op | openParen | openBracket | openDouble | dollar => cases h
  | _ => rfl

theorem Ended.stops (h : Ended rest) : Stops 1 rest := fun l hl => by simp [strength_of_ends (h l hl)]

theorem Stops.mono (h : Stops j rest) (hjk : j ≤ k) : Stops k rest := fun l hl => Nat.lt_of_lt_of_le (h l hl) hjk

/-- No operator stands on layer 9, where the signs are. -/
theorem Stops.signed (h : Stops 10 rest) : Stops 9 rest := by
  intro l hl
  have hlt := h l hl
  have hne : strength l ≠ 9 := by
    cases l with
    | op o =>
      cases o with
      | arith a => cases a <;> simp [strength, BinaryOp.precedence?]
      | _ => simp [strength, BinaryOp.precedence?]
    | _ => simp [strength]
  omega

theorem Stops.operatorAt (h : Stops k rest) (hl : rest.head? = some l) : operatorAt k l = none := by
  cases ho : Grammar.operatorAt k l with
  | none => rfl
  | some o =>
    obtain ⟨rfl, hk⟩ := operatorAt_eq_some.1 ho
    have hlt := h _ hl
    simp [strength, hk] at hlt

theorem stops_cons (h : strength l < k) : Stops k (l :: ts) := by simpa [Stops] using h

theorem ended_cons (h : ends l) : Ended (l :: ts) := by simpa [Ended] using h

theorem ended_gap (h : ends l) : Ended (gap g (l :: ts)) := by
  cases g with
  | true => exact ended_cons rfl
  | false => exact ended_cons h

/-- The rest of a list item: a comma or a closing mark, after at most one line break. -/
theorem follows_gap (h : ends l) (hl : l ≠ .keyword .elseWord) (hl' : l ≠ .newline) :
    Follows (gap g (l :: ts)) := by
  refine ⟨ended_gap h, ?_⟩
  cases g <;> simp [gap, elseAhead] <;> grind

/-- What follows an operand of layer `k` in its tail does not continue an operand of the next. -/
theorem Derives.stops_tail [Text.CharNames] (h : Derives (.tail k l) ts x rest) (hrest : Stops k rest) :
    Stops (k + 1) ts := by
  cases h with
  | stop => exact hrest.mono (Nat.le_succ k)
  | operator ho => exact stops_cons (by simp [strength, ho])
  | call | brackets | doubleBrackets | member => exact stops_cons (by simp [strength])

/-- What follows a run is the rest or an `else`. -/
theorem Derives.ended_alternatives [Text.CharNames] (h : Derives (.alternatives k) ts as rest) (hrest : Follows rest) :
    Ended ts := by
  cases h with
  | noElse => exact hrest.1
  | orElse => exact ended_gap rfl

theorem length_le_gap (g : Bool) (ts : List Lexeme) : ts.length ≤ (gap g ts).length := by
  cases g <;> simp [gap]

theorem argumentName?_eq {c : Cursor} (hc : c.lexemes = l :: .equals :: ts) :
    argumentName? c.tokens = argumentText? l := by
  obtain ⟨tokens, misread, file⟩ := c
  match tokens, hc with
  | [t], hc => simp [Cursor.lexemes] at hc
  | t :: u :: tokens, hc =>
    obtain ⟨rfl, hu, -⟩ : t.lexeme = l ∧ u.lexeme = .equals ∧ _ := by simpa [Cursor.lexemes] using hc
    simp only [argumentName?, hu, if_true]
    cases t.lexeme <;> rfl

theorem elseNext_eq {c : Cursor} (hc : c.lexemes = gap g (.keyword .elseWord :: ts)) :
    elseNext c.tokens = some g := by
  obtain ⟨tokens, misread, file⟩ := c
  cases g <;> obtain _ | ⟨t, _ | ⟨u, tokens⟩⟩ := tokens <;> simp_all [gap, Cursor.lexemes, elseNext]

theorem elseNext_eq_none {c : Cursor} (hc : c.lexemes = ts) (hts : !elseAhead ts) :
    elseNext c.tokens = none := by
  cases h : elseNext c.tokens with
  | none => rfl
  | some g =>
    obtain ⟨r, hr⟩ := elseNext_eq_some h
    rw [← hc, Cursor.lexemes, hr] at hts
    cases g <;> cases hts

theorem Begun.head_ne (h : Begun k ts rest) (hl : begins k l = false) : ts.head? ≠ some l := by
  obtain ⟨m, r, rfl, hm, -⟩ := h
  rintro heq
  cases heq
  simp [hm] at hl

theorem Begun.length_lt (h : Begun k ts rest) : rest.length < ts.length := by
  obtain ⟨m, r, rfl, -, h⟩ := h
  have := h.length_le
  simp
  omega

/-! No `=` stands right after the first lexeme of an expression that goes on behind it. -/

theorem Derives.head_ne_equals [Text.CharNames] (h : Derives p ts v rest) (hp : p.Advances ts rest → Begun 0 ts rest)
    (r : List Lexeme) : ts ≠ .equals :: r := by
  rintro rfl
  exact (hp h.advances).head_ne (l := .equals) rfl rfl

def Phrase.StopsAtEquals : Phrase → List Lexeme → List Lexeme → Prop
  | .expression false, ts, rest | .layer _, ts, rest | .run, ts, rest | .opening, ts, rest =>
    ∀ l r, ts = l :: .equals :: r → rest = .equals :: r
  | .tail .., ts, rest | .alternatives _, ts, rest | .statements, ts, rest => ∀ r, ts = .equals :: r → rest = ts
  | _, _, _ => True

theorem Derives.stopsAtEquals [Text.CharNames] (h : Derives p ts v rest) : p.StopsAtEquals ts rest := by
  induction h with
  | equals | positional | named | plain | defaulted | index | single | comma | empty | filled => trivial
  | done | noElse | stop => exact fun _ _ => rfl
  | separator hl =>
    rintro r heq
    cases heq
    cases hl
  | last hs => exact fun r hts => absurd hts (hs.head_ne_equals id r)
  | next hs => exact fun r hts => absurd hts (hs.head_ne_equals id r)
  | @operation _ _ _ b _ ih =>
    cases b with
    | true => trivial
    | false => exact ih
  | @control _ _ _ _ _ b _ _ _ ihr ihas =>
    cases b with
    | true => trivial
    | false =>
      intro l r hts
      have hmid := ihr l r hts
      rw [ihas r hmid, hmid]
  | @assigned _ _ _ _ _ _ _ _ _ b _ _ _ iht _ _ =>
    cases b with
    | true => trivial
    | false =>
      intro l r hts
      cases iht l r hts
  | leaf _ ih | tighter _ _ ih => exact ih
  | leave | constant | number | string | name =>
    intro l r hts
    exact (List.cons.inj hts).2
  | opened _ hr iho _ => exact fun l r hts => absurd (iho l r hts) (hr.head_ne_equals id r)
  | @orElse _ _ _ _ _ _ g =>
    intro r hts
    cases g <;> cases hts
  | cond | whileLoop | forLoop | function =>
    intro l r hts
    cases (List.cons.inj hts).2
  | @repeatLoop g rest =>
    intro l r hts
    cases g with
    | true => cases (List.cons.inj hts).2
    | false => exact (List.cons.inj hts).2
  | assign _ ih =>
    intro l r hts
    cases ih l r hts
  | grouped _ _ _ ihl ihx =>
    intro l r hts
    have hmid := ihl l r hts
    rw [ihx r hmid, hmid]
  | related _ _ ihl _ | power _ _ ihl _ =>
    intro l r hts
    cases ihl l r hts
  | negated hx | signed _ hx =>
    intro l r hts
    exact absurd (List.cons.inj hts).2 (hx.head_ne_equals (·.mono (Nat.zero_le _)) r)
  | operator | call | brackets | doubleBrackets | member =>
    intro r hts
    cases hts
  | @paren _ _ _ _ g hx _ =>
    intro l r hts
    cases g with
    | true => cases (List.cons.inj hts).2
    | false => exact absurd (List.cons.inj hts).2 (hx.head_ne_equals id r)
  | block _ ih =>
    intro l r hts
    cases (ih r (List.cons.inj hts).2).trans (List.cons.inj hts).2

end Deadwood.Grammar
