import Deadwood.Proofs.Bare

/-! The grammar of scripts as a relation. A phrase derives a tree without places from the
lexemes in front of a rest. Every phrase is written from the left, so that the grammar and a
reader of it take the same steps; what ends a phrase is left to the rest. -/
namespace Deadwood.Grammar

/-- What stands between commas. -/
inductive Item where
  | argument | parameter | index

abbrev Item.Value : Item → Type
  | .argument => Argument
  | .parameter => Parameter
  | .index => Node

/-- `expression true` is a statement, where `=` assigns. `layer k` holds the operators that bind
at least as tight as `k`: 11 are calls and what is written like them, 12 the operands. `tail k l` is
what follows an operand `l` of the layer. -/
inductive Phrase where
  | statements
  | expression (statement : Bool)
  | layer (strength : Nat)
  | tail (strength : Nat) (left : Node)
  | opening
  | run
  | alternatives (opened : Nat)
  | item (i : Item)
  | list (i : Item)
  | enclosed (i : Item)

abbrev Phrase.Value : Phrase → Type
  | .statements => List Node
  | .expression _ | .layer _ | .tail .. => Node
  | .opening => Opening
  | .run => Run
  | .alternatives _ => List Alternative
  | .item i => i.Value
  | .list i | .enclosed i => List i.Value

/-- A place where one line break may stand, and what follows. -/
def gap : Bool → List Lexeme → List Lexeme
  | true, ts => .newline :: ts
  | false, ts => ts

def separates : Lexeme → Bool
  | .newline | .semicolon => true
  | _ => false

/-- The words that are operands. -/
def constant? : Keyword → Option Node
  | .trueWord => some (.boolean .blank true)
  | .falseWord => some (.boolean .blank false)
  | .nullWord => some (.null .blank)
  | _ => none

/-- The words that leave a loop. -/
def leaves? : Keyword → Option Jump
  | .breakWord => some .brk
  | .nextWord => some .nxt
  | _ => none

/-- The name that stands before the `=` of an argument. -/
def argumentText? : Lexeme → Option String
  | .string s => some (String.ofList (Literal.unquoted s))
  | l => l.name?

/-- The operators of a layer that stand between operands. -/
def operatorAt (k : Nat) : Lexeme → Option BinaryOp
  | .op o => if o.precedence? = some k then some o else none
  | _ => none

/-- The layers whose operands are joined from the left. -/
def groupsLeft (k : Nat) : Bool := k ∈ [1, 2, 5, 6, 7, 8, 11]

/-- The layers that may hold just an operand of the next. -/
def passes (k : Nat) : Bool := k ∈ [3, 4, 9, 10]

/-- A run without openings. -/
def ending (x : Node) : Run := ⟨[], ⟨x, ⟨0, 0⟩, ⟨0, 0⟩⟩⟩

/-- A run after one more opening. -/
def after (o : Opening) (r : Run) : Run := r.opened ⟨0, 0⟩ o

/-- The tree of a chain. -/
def built (r : Run) (as : List Alternative) : Node := (Chain.build "" r as).node.bare

inductive Derives [Text.CharNames] : (p : Phrase) → List Lexeme → p.Value → List Lexeme → Prop where
  | done : Derives .statements ts [] ts
  | separator (hl : separates l) (hss : Derives .statements ts ss rest) :
      Derives .statements (l :: ts) ss rest
  | last (hs : Derives (.expression true) ts s rest) : Derives .statements ts [s] rest
  | next (hs : Derives (.expression true) ts s (l :: mid)) (hl : separates l)
      (hss : Derives .statements (l :: mid) ss rest) : Derives .statements ts (s :: ss) rest
  -- expressions
  | operation (hx : Derives (.layer 1) ts x rest) : Derives (.expression b) ts x rest
  | control (hts : startsControl ts.head?) (hr : Derives .run ts r mid)
      (has : Derives (.alternatives r.conds) mid as rest) : Derives (.expression b) ts (built r as) rest
  | assigned (ht : Derives (.layer 1) ts t (.assign op :: gap g mid)) (hr : Derives .run mid r mid₂)
      (has : Derives (.alternatives r.conds) mid₂ as rest) :
      Derives (.expression b) ts (built (after (.assign op t) r) as) rest
  | equals (ht : Derives (.layer 1) ts t (.equals :: gap g mid))
      (hv : Derives (.expression false) mid v rest) :
      Derives (.expression true) ts (.assign .blank .equals t v) rest
  -- chains
  | leaf (hx : Derives (.layer 1) ts x rest) : Derives .run ts (ending x) rest
  | leave (hk : leaves? k = some j) : Derives .run (.keyword k :: ts) (ending (.jump .blank j none)) ts
  | opened (ho : Derives .opening ts o mid) (hr : Derives .run mid r rest) :
      Derives .run ts (after o r) rest
  | noElse : Derives (.alternatives k) ts [] ts
  | orElse (hr : Derives .run ts r mid) (has : Derives (.alternatives (k + r.conds)) mid as rest) :
      Derives (.alternatives (k + 1)) (gap g (.keyword .elseWord :: gap g₂ ts)) (⟨g, g₂, r⟩ :: as) rest
  -- openings
  | cond (hc : Derives (.expression false) ts c (gap g₂ (.closeParen :: gap g₃ rest))) :
      Derives .opening (.keyword .ifWord :: .openParen :: gap g ts) (.cond c) rest
  | whileLoop (hc : Derives (.expression false) ts c (gap g₂ (.closeParen :: gap g₃ rest))) :
      Derives .opening (.keyword .whileWord :: .openParen :: gap g ts) (.whileLoop c) rest
  | repeatLoop : Derives .opening (.keyword .repeatWord :: gap g rest) .repeatLoop rest
  | forLoop (hl : l.name? = some text)
      (hx : Derives (.expression false) ts x (gap g₂ (.closeParen :: gap g₃ rest))) :
      Derives .opening (.keyword .forWord :: .openParen :: gap g (l :: .keyword .inWord :: ts))
        (.forLoop ⟨.blank, text⟩ x) rest
  | function (hps : Derives (.enclosed .parameter) ts ps (gap g rest)) :
      Derives .opening (.keyword .functionWord :: .openParen :: ts) (.function ps) rest
  | assign (ht : Derives (.layer 1) ts t (.assign op :: gap g rest)) :
      Derives .opening ts (.assign op t) rest
  -- items
  | positional (hx : Derives (.expression false) ts x rest) :
      Derives (.item .argument) ts ⟨.blank, none, x⟩ rest
  | named (hl : argumentText? l = some text) (hx : Derives (.expression false) ts x rest) :
      Derives (.item .argument) (l :: .equals :: gap g ts) ⟨.blank, some text, x⟩ rest
  | plain (hl : l.name? = some text) : Derives (.item .parameter) (l :: ts) ⟨.blank, text, none⟩ ts
  | defaulted (hl : l.name? = some text) (hx : Derives (.expression false) ts x rest) :
      Derives (.item .parameter) (l :: .equals :: gap g ts) ⟨.blank, text, some x⟩ rest
  | index (hx : Derives (.expression false) ts x rest) : Derives (.item .index) ts x rest
  | single (hx : Derives (.item i) ts x rest) : Derives (.list i) ts [x] rest
  | comma (hx : Derives (.item i) ts x (gap g (.comma :: gap g₂ mid))) (hxs : Derives (.list i) mid xs rest) :
      Derives (.list i) ts (x :: xs) rest
  | empty : Derives (.enclosed i) (gap g (gap h (.closeParen :: rest))) [] rest
  | filled (hxs : Derives (.list i) ts xs (gap g₂ (.closeParen :: rest))) :
      Derives (.enclosed i) (gap g ts) xs rest
  -- operators
  | tighter (hk : passes k) (hx : Derives (.layer (k + 1)) ts x rest) : Derives (.layer k) ts x rest
  | grouped (hk : groupsLeft k) (hl : Derives (.layer (k + 1)) ts l mid) (hx : Derives (.tail k l) mid x rest) :
      Derives (.layer k) ts x rest
  | related (hl : Derives (.layer 5) ts l (.op (.rel o) :: gap g mid)) (hr : Derives (.layer 5) mid r rest) :
      Derives (.layer 4) ts (.binary .blank (.rel o) l r) rest
  | power (hl : Derives (.layer 11) ts l (.op (.arith .pow) :: gap g mid)) (hr : Derives (.layer 9) mid r rest) :
      Derives (.layer 10) ts (.binary .blank (.arith .pow) l r) rest
  | negated (hx : Derives (.layer 3) ts x rest) :
      Derives (.layer 3) (.not :: ts) (.unary .blank .not x) rest
  | signed (hl : signOp l = some o) (hx : Derives (.layer 9) ts x rest) :
      Derives (.layer 9) (l :: ts) (.unary .blank o x) rest
  | stop : Derives (.tail k l) ts l ts
  | operator (ho : o.precedence? = some k) (hr : Derives (.layer (k + 1)) ts r mid)
      (hx : Derives (.tail k (.binary .blank o l r)) mid x rest) :
      Derives (.tail k l) (.op o :: gap g ts) x rest
  -- operands
  | call (hargs : Derives (.enclosed .argument) ts args mid)
      (hx : Derives (.tail 11 (called l args .blank)) mid x rest) :
      Derives (.tail 11 l) (.openParen :: ts) x rest
  | brackets (hxs : Derives (.list .index) ts xs (gap g₂ (.closeBracket p :: mid)))
      (hx : Derives (.tail 11 (.index .blank l xs false)) mid x rest) :
      Derives (.tail 11 l) (.openBracket :: gap g ts) x rest
  | doubleBrackets (hxs : Derives (.list .index) ts xs (gap g₂ (.closeBracket true :: .closeBracket p :: mid)))
      (hx : Derives (.tail 11 (.index .blank l xs true)) mid x rest) :
      Derives (.tail 11 l) (.openDouble :: gap g ts) x rest
  | member (hm : m.name? = some text) (hx : Derives (.tail 11 (.member .blank l text)) ts x rest) :
      Derives (.tail 11 l) (.dollar :: m :: ts) x rest
  | number (hs : Literal.number s = .ok (v, i)) :
      Derives (.layer 12) (.number s :: ts) (.number .blank v i) ts
  | string (hs : Literal.string s = .ok v) : Derives (.layer 12) (.string s :: ts) (.string .blank v) ts
  | constant (hk : constant? k = some x) : Derives (.layer 12) (.keyword k :: ts) x ts
  | name : Derives (.layer 12) (.name s :: ts) (.identifier ⟨.blank, s⟩) ts
  | paren (hx : Derives (.expression false) ts x (gap g₂ (.closeParen :: rest))) :
      Derives (.layer 12) (.openParen :: gap g ts) x rest
  | block (hss : Derives .statements ts ss (.closeBrace :: rest)) :
      Derives (.layer 12) (.openBrace :: ts) (.block ⟨.blank, ss⟩) rest

theorem Derives.separators [Text.CharNames] {seps : List Lexeme} (hseps : ∀ l ∈ seps, separates l)
    (h : Derives .statements ts ss rest) : Derives .statements (seps ++ ts) ss rest := by
  induction seps with
  | nil => exact h
  | cons l seps ih => exact .separator (hseps l (by simp)) (ih fun l hl => hseps l (by simp [hl]))

theorem operatorAt_eq_some : operatorAt k l = some o ↔ l = .op o ∧ o.precedence? = some k := by
  cases l with
  | op o' => grind [operatorAt]
  | _ => simp [operatorAt]

theorem operator_tables : orOp = operatorAt 1 ∧ andOp = operatorAt 2 ∧ relationOp = operatorAt 4 ∧
    sumOp = operatorAt 5 ∧ productOp = operatorAt 6 ∧ specialOp = operatorAt 7 ∧
    rangeOp = operatorAt 8 ∧ powOp = operatorAt 10 := by
  refine ⟨?_, ?_, ?_, ?_, ?_, ?_, ?_, ?_⟩
  all_goals
    funext l
    cases l with
    | op o =>
      cases o with
      | arith a => cases a <;> rfl
      | _ => rfl
    | _ => rfl

/-! How a phrase begins, and that what is left of the lexemes is an end of them. -/

/-- The lexemes that can begin layer `k`; those of layer 0 can begin an expression. -/
def begins (k : Nat) : Lexeme → Bool
  | .number _ | .string _ | .name _ | .openParen | .openBrace => true
  | .keyword w => (constant? w).isSome || (k == 0 && startsControl (some (.keyword w)))
  | .not => k ≤ 3
  | l => (signOp l).isSome && k ≤ 9

theorem begins_mono {j k : Nat} {l : Lexeme} (hjk : j ≤ k) (h : begins k l) : begins j l := by
  cases l with
  | keyword w =>
    simp only [begins, Bool.or_eq_true, Bool.and_eq_true, beq_iff_eq] at h ⊢
    exact h.imp_right fun h => ⟨by omega, h.2⟩
  | not =>
    simp only [begins, decide_eq_true_eq] at h ⊢
    omega
  | number | string | name | openParen | openBrace => rfl
  | _ =>
    simp only [begins, Bool.and_eq_true, decide_eq_true_eq] at h ⊢
    exact ⟨h.1, by omega⟩

theorem begins_of_argumentText? {l : Lexeme} {text : String} (h : argumentText? l = some text) (k : Nat) :
    begins k l := by
  cases l with
  | number | string | name => rfl
  | _ => simp [argumentText?, Lexeme.name?] at h

theorem argumentText?_of_name? {l : Lexeme} {text : String} (h : l.name? = some text) :
    argumentText? l = some text := by
  cases l with
  | string => simp [Lexeme.name?] at h
  | _ => exact h

theorem begins_of_signOp {l : Lexeme} {o : UnaryOp} (h : signOp l = some o) : begins 9 l := by
  cases l with
  | op => simp [begins, h]
  | _ => cases h

theorem suffix_beyond {l : Lexeme} {ts rest : List Lexeme} (h : rest <:+ ts) : rest <:+ l :: ts :=
  h.trans (List.suffix_cons l ts)

theorem suffix_gap {ts rest : List Lexeme} {g : Bool} (h : rest <:+ ts) : rest <:+ gap g ts := by
  cases g with
  | false => exact h
  | true => exact suffix_beyond h

/-- One lexeme that can begin layer `k` is used up, if not more. -/
def Begun (k : Nat) (ts rest : List Lexeme) : Prop := ∃ l r, ts = l :: r ∧ begins k l ∧ rest <:+ r

namespace Begun

theorem of_cons (hl : begins k l) (h : rest <:+ r) : Begun k (l :: r) rest := ⟨l, r, rfl, hl, h⟩

theorem suffix (h : Begun k ts rest) : rest <:+ ts := by
  obtain ⟨l, r, rfl, -, h⟩ := h
  exact suffix_beyond h

theorem mono (h : Begun k ts rest) (hjk : j ≤ k) : Begun j ts rest := by
  obtain ⟨l, r, rfl, hl, h⟩ := h
  exact .of_cons (begins_mono hjk hl) h

theorem trans (h : Begun k ts mid) (hmid : rest <:+ mid) : Begun k ts rest := by
  obtain ⟨l, r, rfl, hl, h⟩ := h
  exact .of_cons hl (hmid.trans h)

/-- A lexeme after the phrase is used up too. -/
theorem past (h : Begun k ts (l :: gap g mid)) (hmid : rest <:+ mid) : Begun k ts rest :=
  h.trans (suffix_beyond (suffix_gap hmid))

end Begun

def Phrase.Advances : Phrase → List Lexeme → List Lexeme → Prop
  | .statements, ts, rest | .tail .., ts, rest | .alternatives _, ts, rest => rest <:+ ts
  | .layer k, ts, rest => Begun k ts rest
  | .enclosed _, ts, rest => ∃ l r, ts = l :: r ∧ rest <:+ r
  | _, ts, rest => Begun 0 ts rest

theorem Derives.advances [Text.CharNames] (h : Derives p ts v rest) : p.Advances ts rest := by
  induction h with
  | done | noElse | stop => exact List.suffix_rfl
  | separator _ _ ih => exact suffix_beyond ih
  | last _ ih => exact ih.suffix
  | next _ _ _ ihs ihss => exact ihss.trans ihs.suffix
  | operation _ ih => exact ih.mono (Nat.zero_le _)
  | control _ _ _ ihr ihas => exact ihr.trans ihas
  | assigned _ _ _ iht ihr ihas => exact (iht.mono (Nat.zero_le _)).past (ihas.trans ihr.suffix)
  | equals _ _ iht ihv => exact (iht.mono (Nat.zero_le _)).past ihv.suffix
  | leaf _ ih => exact ih.mono (Nat.zero_le _)
  | @leave k j ts hk =>
    refine .of_cons ?_ List.suffix_rfl
    cases k with
    | breakWord | nextWord => rfl
    | _ => cases hk
  | opened _ _ iho ihr => exact iho.trans ihr.suffix
  | orElse _ _ ihr ihas => exact suffix_gap (suffix_beyond (suffix_gap (ihas.trans ihr.suffix)))
  | cond _ ih | whileLoop _ ih =>
    have hrest := (suffix_gap (suffix_beyond (suffix_gap List.suffix_rfl))).trans ih.suffix
    exact .of_cons rfl (suffix_beyond (suffix_gap hrest))
  | repeatLoop => exact .of_cons rfl (suffix_gap List.suffix_rfl)
  | forLoop _ _ ih =>
    have hrest := (suffix_gap (suffix_beyond (suffix_gap List.suffix_rfl))).trans ih.suffix
    exact .of_cons rfl (suffix_beyond (suffix_gap (suffix_beyond (suffix_beyond hrest))))
  | function _ ih =>
    obtain ⟨l, r, rfl, hr⟩ := ih
    exact .of_cons rfl (suffix_beyond (suffix_beyond ((suffix_gap List.suffix_rfl).trans hr)))
  | assign _ ih => exact (ih.mono (Nat.zero_le _)).past List.suffix_rfl
  | positional _ ih => exact ih
  | named hl _ ih => exact .of_cons (begins_of_argumentText? hl 0) (suffix_beyond (suffix_gap ih.suffix))
  | plain hl => exact .of_cons (begins_of_argumentText? (argumentText?_of_name? hl) 0) List.suffix_rfl
  | defaulted hl _ ih =>
    exact .of_cons (begins_of_argumentText? (argumentText?_of_name? hl) 0)
      (suffix_beyond (suffix_gap ih.suffix))
  | index _ ih => exact ih
  | single _ ih => exact ih
  | comma _ _ ihx ihxs => exact ihx.trans (suffix_gap (suffix_beyond (suffix_gap ihxs.suffix)))
  | @empty i g h rest =>
    cases g with
    | true => exact ⟨_, _, rfl, suffix_gap (suffix_beyond List.suffix_rfl)⟩
    | false => cases h <;> exact ⟨_, _, rfl, by simp⟩
  | @filled _ _ _ _ _ g _ ih =>
    have hrest := (suffix_gap (suffix_beyond List.suffix_rfl)).trans ih.suffix
    obtain ⟨l, r, rfl, -, hr⟩ := ih
    cases g with
    | true => exact ⟨_, _, rfl, hrest⟩
    | false => exact ⟨_, _, rfl, (suffix_gap (suffix_beyond List.suffix_rfl)).trans hr⟩
  | tighter _ _ ih => exact ih.mono (Nat.le_succ _)
  | grouped _ _ _ ihl ihx => exact (ihl.mono (Nat.le_succ _)).trans ihx
  | related _ _ ihl ihr => exact (ihl.mono (by omega)).past ihr.suffix
  | power _ _ ihl ihr => exact (ihl.mono (by omega)).past ihr.suffix
  | negated _ ih => exact .of_cons rfl ih.suffix
  | signed hl _ ih => exact .of_cons (begins_of_signOp hl) ih.suffix
  | operator _ _ _ ihr ihx => exact suffix_beyond (suffix_gap (ihx.trans ihr.suffix))
  | call _ _ ihargs ihx =>
    obtain ⟨l, r, rfl, hr⟩ := ihargs
    exact suffix_beyond (suffix_beyond (ihx.trans hr))
  | brackets _ _ ihxs ihx => exact suffix_beyond (suffix_gap ((suffix_gap (suffix_beyond ihx)).trans ihxs.suffix))
  | doubleBrackets _ _ ihxs ihx =>
    exact suffix_beyond (suffix_gap ((suffix_gap (suffix_beyond (suffix_beyond ihx))).trans ihxs.suffix))
  | member _ _ ih => exact suffix_beyond (suffix_beyond ih)
  | number | string | name => exact .of_cons rfl List.suffix_rfl
  | constant hk => exact .of_cons (by simp [begins, hk]) List.suffix_rfl
  | paren _ ih =>
    exact .of_cons rfl (suffix_gap ((suffix_gap (suffix_beyond List.suffix_rfl)).trans ih.suffix))
  | block _ ih => exact .of_cons rfl ((suffix_beyond List.suffix_rfl).trans ih)

theorem Derives.suffix [Text.CharNames] (h : Derives p ts v rest) : rest <:+ ts := by
  have hadvances := h.advances
  cases p with
  | statements | tail | alternatives => exact hadvances
  | enclosed =>
    obtain ⟨l, r, rfl, hr⟩ := hadvances
    exact suffix_beyond hr
  | _ => exact hadvances.suffix

end Deadwood.Grammar
