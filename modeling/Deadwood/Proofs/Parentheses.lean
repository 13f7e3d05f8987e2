import Deadwood.Proofs.Placement
import Mathlib.Algebra.Ring.Nat

/-! How many parentheses a tree needs. Lexemes from which a tree is derived hold at least as many as
the tree needs, so a text with fewer cannot be read as that tree. -/
namespace Deadwood
open Grammar Print

namespace Grammar

def signAhead (ts : List Lexeme) : Bool := ((ts.dropWhile (· = .newline)).head?.bind signOp).isSome

/-- The opening parentheses among some lexemes. A sign right after `^` counts too, because the printer
would put it in parentheses. -/
def guards : List Lexeme → Nat
  | [] => 0
  | l :: ts => guards ts + if l = .openParen || (l = .op (.arith .pow) && signAhead ts) then 1 else 0

@[simp] theorem guards_openParen (ts : List Lexeme) : guards (.openParen :: ts) = guards ts + 1 := rfl

theorem guards_le_cons (l : Lexeme) (ts : List Lexeme) : guards ts ≤ guards (l :: ts) := Nat.le_add_right _ _

@[simp] theorem guards_gap (g : Bool) (ts : List Lexeme) : guards (gap g ts) = guards ts := by
  cases g <;> rfl

theorem guards_le_mark (l : Lexeme) (g : Bool) (ts : List Lexeme) : guards ts ≤ guards (l :: gap g ts) := by
  simpa using guards_le_cons l (gap g ts)

theorem guards_le_close (l : Lexeme) (g h : Bool) (ts : List Lexeme) :
    guards ts ≤ guards (gap g (l :: gap h ts)) := by
  simpa using guards_le_mark l h ts

/-- The parenthesis of a header. -/
theorem guards_header (k : Keyword) {ts us : List Lexeme} (h : guards ts ≤ guards us) :
    guards ts + 1 ≤ guards (.keyword k :: .openParen :: us) := by
  have hmark := guards_le_cons (.keyword k) (.openParen :: us)
  rw [guards_openParen] at hmark
  omega

@[simp] theorem signAhead_gap (g : Bool) (ts : List Lexeme) : signAhead (gap g ts) = signAhead ts := by
  cases g <;> rfl

end Grammar

/-- The parentheses around a node where an operand of a layer is asked for. -/
def Node.shields (k : Nat) (n : Node) : Nat := if n.level < k then 1 else 0

theorem Node.shields_mono {j k : Nat} (hjk : j ≤ k) (n : Node) : n.shields j ≤ n.shields k := by
  unfold shields
  split <;> split <;> omega

theorem Node.shields_le (k : Nat) (n : Node) : n.shields k ≤ 1 := by
  unfold shields
  split <;> omega

theorem Node.shields_of_le {n : Node} (h : k ≤ n.level) : n.shields k = 0 := if_neg (Nat.not_lt.2 h)

mutual

/-- The opening parentheses that a tree cannot be written without, those of calls and headers
included. -/
def Node.parens : Node → Nat
  | .unary _ op x => x.parens + x.shields op.strength
  | .binary _ op l r => l.parens + l.shields op.leftStrength + r.parens + r.shields op.rightStrength
  | .call _ f args => f.parens + f.shields 11 + parensArguments args + 1
  | .index _ t xs _ => t.parens + t.shields 11 + parensNodes xs
  | .member _ t _ => t.parens + t.shields 11
  | .block b => b.parens
  | .assign _ _ t v => t.parens + t.shields 1 + v.parens
  | .cond _ c t none => c.parens + t.parens + 1
  | .cond _ c t (some e) => c.parens + t.parens + e.parens + 1
  | .whileLoop _ c b => c.parens + b.parens + 1
  | .repeatLoop _ b => b.parens
  | .forLoop _ _ x b => x.parens + b.parens + 1
  | .function _ ps b => parensParameters ps + b.parens + 1
  | .jump _ .ret none => 1
  | .jump _ .ret (some x) => x.parens + 1
  | _ => 0

def Block.parens : Block → Nat
  | ⟨_, ss⟩ => parensNodes ss

def parensNodes : List Node → Nat
  | [] => 0
  | n :: ns => n.parens + parensNodes ns

def parensArguments : List Argument → Nat
  | [] => 0
  | ⟨_, _, v⟩ :: as => v.parens + parensArguments as

def parensParameters : List Parameter → Nat
  | [] => 0
  | ⟨_, _, none⟩ :: ps => parensParameters ps
  | ⟨_, _, some d⟩ :: ps => d.parens + parensParameters ps

end

theorem Node.level_bare (n : Node) : n.bare.level = n.level := by
  cases n with
  | cond s c t e? => cases e? <;> rfl
  | jump s k x? => cases k <;> cases x? <;> rfl
  | _ => rfl

theorem Node.shields_bare (k : Nat) (n : Node) : n.bare.shields k = n.shields k := by
  rw [shields, level_bare, shields]

mutual

theorem Node.parens_bare : (n : Node) → n.bare.parens = n.parens
  | .number .. | .string .. | .boolean .. | .null .. | .identifier .. => rfl
  | .unary s op x => by simp only [Node.bare, Node.parens, x.parens_bare, Node.shields_bare]
  | .binary s op l r => by simp only [Node.bare, Node.parens, l.parens_bare, r.parens_bare, Node.shields_bare]
  | .call s f args => by simp only [Node.bare, Node.parens, f.parens_bare, parensArguments_bare args, Node.shields_bare]
  | .index s t xs d => by simp only [Node.bare, Node.parens, t.parens_bare, parensNodes_bare xs, Node.shields_bare]
  | .member s t name => by simp only [Node.bare, Node.parens, t.parens_bare, Node.shields_bare]
  | .block b => by simp only [Node.bare, Node.parens, b.parens_bare]
  | .assign s op t v => by simp only [Node.bare, Node.parens, t.parens_bare, v.parens_bare, Node.shields_bare]
  | .cond s c t none => by simp only [Node.bare, Node.parens, c.parens_bare, t.parens_bare]
  | .cond s c t (some e) => by simp only [Node.bare, Node.parens, c.parens_bare, t.parens_bare, e.parens_bare]
  | .whileLoop s c b => by simp only [Node.bare, Node.parens, c.parens_bare, b.parens_bare]
  | .repeatLoop s b => by simp only [Node.bare, Node.parens, b.parens_bare]
  | .forLoop s v x b => by simp only [Node.bare, Node.parens, x.parens_bare, b.parens_bare]
  | .function s ps b => by simp only [Node.bare, Node.parens, parensParameters_bare ps, b.parens_bare]
  | .jump s .ret none | .jump s .brk none | .jump s .nxt none
  | .jump s .brk (some x) | .jump s .nxt (some x) => rfl
  | .jump s .ret (some x) => by simp only [Node.bare, Node.parens, x.parens_bare]

theorem Block.parens_bare : (b : Block) → b.bare.parens = b.parens
  | ⟨_, ss⟩ => by simp only [Block.bare, Block.parens, parensNodes_bare ss]

theorem parensNodes_bare : (ns : List Node) → parensNodes (bareNodes ns) = parensNodes ns
  | [] => rfl
  | n :: ns => by simp only [bareNodes, parensNodes, n.parens_bare, parensNodes_bare ns]

theorem parensArguments_bare : (as : List Argument) → parensArguments (bareArguments as) = parensArguments as
  | [] => rfl
  | ⟨_, _, v⟩ :: as => by
    simp only [bareArguments, Argument.bare, parensArguments, v.parens_bare, parensArguments_bare as]

theorem parensParameters_bare : (ps : List Parameter) →
    parensParameters (bareParameters ps) = parensParameters ps
  | [] => rfl
  | ⟨_, _, none⟩ :: ps => by simp only [bareParameters, Parameter.bare, parensParameters, parensParameters_bare ps]
  | ⟨_, _, some d⟩ :: ps => by
    simp only [bareParameters, Parameter.bare, parensParameters, d.parens_bare, parensParameters_bare ps]

end

theorem Node.parens_asBlock (n : Node) : n.asBlock.parens = n.parens := by
  cases n with
  | block b => rfl
  | _ => simp [asBlock, Block.parens, parensNodes]

/-! Chains. -/

def Opening.parens : Opening → Nat
  | .cond c | .whileLoop c => c.parens + 1
  | .repeatLoop => 0
  | .forLoop _ x => x.parens + 1
  | .function ps => parensParameters ps + 1
  | .assign _ t => t.parens + t.shields 1

def Run.parens (r : Run) : Nat := (r.openings.map (·.2.parens)).sum + r.leaf.node.parens

def parensAlternatives (as : List Alternative) : Nat := (as.map (·.run.parens)).sum

theorem Run.parens_opened (r : Run) (start : Position) (o : Opening) :
    (r.opened start o).parens = o.parens + r.parens := by
  simp [Run.parens, Run.opened]
  omega

theorem Opening.parens_close (o : Opening) (s : Span) (n : Node) : (o.close s n).parens = o.parens + n.parens := by
  cases o <;> simp [close, Node.parens, Opening.parens, Node.parens_asBlock] <;> omega

/-- Nesting a chain adds nothing to it. -/
theorem Chain.parens_nest (file : String) (fuel : Nat) (r : Run) (as : List Alternative) :
    (nest file fuel r as).node.parens ≤ r.parens + parensAlternatives as := by
  induction fuel generalizing r as with
  | zero => simp [nest, Run.parens]; omega
  | succ fuel ih =>
    cases r using Run.openedCases with
    | leaf x => simp [nest, Run.parens]
    | opened start o r =>
      rw [Run.parens_opened]
      obtain hfound | ⟨c, before, a, after, rfl, hfound⟩ := owned_cases o r as
      · rw [nest_unowned hfound, Opening.parens_close]
        have hinner := ih r as
        omega
      · obtain ⟨rfl, -⟩ := of_owner? hfound
        have hyes := ih r before
        have hno := ih a.run after
        rw [nest_owned hfound]
        simp only [Node.parens, Node.parens_asBlock, Opening.parens, parensAlternatives, List.map_append,
          List.map_cons, List.sum_append, List.sum_cons] at hyes hno ⊢
        omega

namespace Grammar

theorem parens_built (r : Run) (as : List Alternative) :
    (built r as).parens ≤ r.parens + parensAlternatives as := by
  rw [built, Node.parens_bare]
  exact Chain.parens_nest ..

def Item.parens : (i : Item) → List i.Value → Nat
  | .argument, as => parensArguments as
  | .parameter, ps => parensParameters ps
  | .index, xs => parensNodes xs

theorem Item.parens_cons (i : Item) (x : i.Value) (xs : List i.Value) :
    i.parens (x :: xs) = i.parens [x] + i.parens xs := by
  cases i with
  | argument =>
    obtain ⟨_, _, v⟩ := x
    simp [Item.parens, parensArguments]
  | parameter => obtain ⟨_, _, _ | d⟩ := x <;> simp [Item.parens, parensParameters]
  | index => simp [Item.parens, parensNodes]

theorem strengths_of_groupsLeft {o : BinaryOp} (ho : o.precedence? = some k) (hk : groupsLeft k) :
    o.leftStrength = k ∧ o.rightStrength = k + 1 := by
  cases o with
  | rel =>
    cases ho
    cases hk
  | arith a =>
    cases a with
    | pow =>
      cases ho
      cases hk
    | _ =>
      cases ho
      exact ⟨rfl, rfl⟩
  | unknown => cases ho
  | _ =>
    cases ho
    exact ⟨rfl, rfl⟩

theorem parens_called (f : Node) (args : List Argument) :
    (called f args .blank).parens + (called f args .blank).shields 11 ≤
      f.parens + f.shields 11 + parensArguments args + 1 := by
  unfold called
  split <;> simp [Node.parens, parensArguments, Node.shields, Node.level]

/-- What is derived needs no more parentheses than are used up. -/
def Phrase.Guarded : (p : Phrase) → List Lexeme → p.Value → List Lexeme → Prop
  | .statements, ts, ss, rest => parensNodes ss + guards rest ≤ guards ts
  | .expression _, ts, v, rest => v.parens + guards rest ≤ guards ts
  | .layer k, ts, v, rest =>
    v.parens + v.shields k + guards rest ≤ guards ts ∧
      (k = 9 → !signAhead ts → v.parens + v.shields 10 + guards rest ≤ guards ts)
  | .tail k l, ts, v, rest =>
    groupsLeft k → v.parens + v.shields k + guards rest ≤ l.parens + l.shields k + guards ts
  | .opening, ts, o, rest => o.parens + guards rest ≤ guards ts
  | .run, ts, r, rest => r.parens + guards rest ≤ guards ts
  | .alternatives _, ts, as, rest => parensAlternatives as + guards rest ≤ guards ts
  | .item i, ts, x, rest => i.parens [x] + guards rest ≤ guards ts
  | .list i, ts, xs, rest | .enclosed i, ts, xs, rest => i.parens xs + guards rest ≤ guards ts

theorem Phrase.Guarded.of_ne {ts : List Lexeme} {v : Node} (hk : k ≠ 9)
    (h : v.parens + v.shields k + guards rest ≤ guards ts) : (Phrase.layer k).Guarded ts v rest :=
  ⟨h, fun hk' => absurd hk' hk⟩

theorem Derives.guarded [Text.CharNames] (h : Derives p ts v rest) : p.Guarded ts v rest := by
  induction h with
  | done | noElse => exact Nat.le_of_eq (Nat.zero_add _)
  | separator _ _ ih => exact Nat.le_trans ih (guards_le_cons _ _)
  | last _ ih => simpa [Phrase.Guarded, parensNodes] using ih
  | next _ _ _ ihs ihss =>
    simp only [Phrase.Guarded, parensNodes] at ihs ihss ⊢
    omega
  | operation _ ih =>
    have ih := ih.1
    simp only [Phrase.Guarded] at ih ⊢
    omega
  | @control _ r _ as _ _ _ _ _ ihr ihas =>
    have hbuilt := parens_built r as
    simp only [Phrase.Guarded] at ihr ihas ⊢
    omega
  | @assigned _ t op g mid r _ as _ _ _ _ _ iht ihr ihas =>
    have hbuilt := parens_built (after (.assign op t) r) as
    rw [after, Run.parens_opened, Opening.parens] at hbuilt
    have iht := iht.1
    have hmark := guards_le_mark (.assign op) g mid
    simp only [Phrase.Guarded, after] at ihr ihas ⊢
    omega
  | @equals _ _ g mid _ _ _ _ iht ihv =>
    have iht := iht.1
    have hmark := guards_le_mark .equals g mid
    simp only [Phrase.Guarded, Node.parens] at ihv ⊢
    omega
  | leaf _ ih =>
    have ih := ih.1
    simp only [Phrase.Guarded, Run.parens, ending, List.map_nil, List.sum_nil]
    omega
  | @leave k j ts hk =>
    refine Nat.le_trans (Nat.le_of_eq ?_) (guards_le_cons _ _)
    cases k with
    | breakWord | nextWord =>
      cases hk
      exact Nat.zero_add _
    | _ => cases hk
  | opened _ _ iho ihr =>
    simp only [Phrase.Guarded, after, Run.parens_opened] at iho ihr ⊢
    omega
  | @orElse ts _ _ _ _ _ g g₂ _ _ ihr ihas =>
    have hmark := guards_le_mark (.keyword .elseWord) g₂ ts
    simp only [Phrase.Guarded, parensAlternatives, List.map_cons, List.sum_cons, guards_gap] at ihr ihas ⊢
    omega
  | @cond ts _ g₂ g₃ rest g _ ih =>
    have hclose := guards_le_close .closeParen g₂ g₃ rest
    have hopen := guards_header .ifWord (Nat.le_of_eq (guards_gap g ts).symm)
    simp only [Phrase.Guarded, Opening.parens] at ih ⊢
    omega
  | @whileLoop ts _ g₂ g₃ rest g _ ih =>
    have hclose := guards_le_close .closeParen g₂ g₃ rest
    have hopen := guards_header .whileWord (Nat.le_of_eq (guards_gap g ts).symm)
    simp only [Phrase.Guarded, Opening.parens] at ih ⊢
    omega
  | repeatLoop => exact Nat.le_trans (Nat.le_of_eq (Nat.zero_add _)) (guards_le_mark _ _ _)
  | @forLoop _ ts _ g₂ g₃ rest g l _ _ ih =>
    have hclose := guards_le_close .closeParen g₂ g₃ rest
    have hname : guards ts ≤ guards (gap g (l :: .keyword .inWord :: ts)) :=
      Nat.le_trans (guards_le_cons _ _) (guards_le_close l g false _)
    have hopen := guards_header .forWord hname
    simp only [Phrase.Guarded, Opening.parens] at ih ⊢
    omega
  | @function ts _ g rest _ ih =>
    have hopen := guards_header .functionWord (Nat.le_refl (guards ts))
    simp only [Phrase.Guarded, Opening.parens, Item.parens, guards_gap] at ih ⊢
    omega
  | @assign _ _ op g rest _ ih =>
    have ih := ih.1
    have hmark := guards_le_mark (.assign op) g rest
    simp only [Phrase.Guarded, Opening.parens]
    omega
  | positional _ ih | index _ ih => simpa [Phrase.Guarded, Item.parens, parensArguments, parensNodes] using ih
  | @named l _ ts _ _ g _ _ ih =>
    have hname := Nat.le_trans (guards_le_mark .equals g ts) (guards_le_cons l _)
    simp only [Phrase.Guarded, Item.parens, parensArguments] at ih ⊢
    omega
  | plain => exact Nat.le_trans (Nat.le_of_eq (Nat.zero_add _)) (guards_le_cons _ _)
  | @defaulted _ ts _ _ l g _ _ ih =>
    have hname := Nat.le_trans (guards_le_mark .equals g ts) (guards_le_cons l _)
    simp only [Phrase.Guarded, Item.parens, parensParameters] at ih ⊢
    omega
  | single _ ih => exact ih
  | @comma _ _ _ g g₂ mid _ _ _ _ ihx ihxs =>
    have hmark := guards_le_close .comma g g₂ mid
    simp only [Phrase.Guarded] at ihx ihxs ⊢
    rw [Item.parens_cons]
    omega
  | @empty i g h rest =>
    have hempty : i.parens [] = 0 := by cases i <;> rfl
    have hclose := guards_le_cons .closeParen rest
    simp only [Phrase.Guarded, hempty, guards_gap]
    omega
  | @filled _ ts _ g₂ rest g _ ih =>
    have hclose := guards_le_cons .closeParen rest
    simp only [Phrase.Guarded, guards_gap] at ih ⊢
    omega
  | @tighter k _ x _ _ _ ih =>
    have ih := ih.1
    have hmono := Node.shields_mono (Nat.le_add_right k 1) x
    refine ⟨by omega, ?_⟩
    rintro rfl -
    exact ih
  | @grouped k _ l _ _ _ hk _ _ ihl ihx =>
    have ihl := ihl.1
    have ihx := ihx hk
    have hmono := Node.shields_mono (Nat.le_add_right k 1) l
    refine ⟨by omega, ?_⟩
    rintro rfl
    cases hk
  | @related _ l o g mid r rest _ _ ihl ihr =>
    have ihl := ihl.1
    have ihr := ihr.1
    have hmark := guards_le_mark (.op (.rel o)) g mid
    have hparens : (Node.binary .blank (.rel o) l r).parens = l.parens + l.shields 5 + r.parens + r.shields 5 := rfl
    have hshields : (Node.binary .blank (.rel o) l r).shields 4 = 0 := rfl
    exact .of_ne (by decide) (by omega)
  | @power _ l g mid r rest _ _ ihl ihr =>
    have ihl := ihl.1
    have hparens : (Node.binary .blank (.arith .pow) l r).parens =
      l.parens + l.shields 11 + r.parens + r.shields 10 := rfl
    have hshields : (Node.binary .blank (.arith .pow) l r).shields 10 = 0 := rfl
    refine .of_ne (by decide) ?_
    cases hsign : signAhead mid with
    | true =>
      -- the sign pays for the parentheses that the printer puts around it
      have hpow : guards (.op (.arith .pow) :: gap g mid) = guards mid + 1 := by simp [guards, hsign]
      have hle := r.shields_le 10
      have ihr := ihr.1
      omega
    | false =>
      have hmark := guards_le_mark (.op (.arith .pow)) g mid
      have ihr := ihr.2 rfl (by simp [hsign])
      omega
  | @negated ts x rest _ ih =>
    have ih := ih.1
    have hmark := guards_le_cons .not ts
    have hparens : (Node.unary .blank .not x).parens = x.parens + x.shields 3 := rfl
    have hshields : (Node.unary .blank .not x).shields 3 = 0 := rfl
    exact .of_ne (by decide) (by omega)
  | @signed l o ts x rest hl _ ih =>
    have ih := ih.1
    have hmark := guards_le_cons l ts
    have hstrength : o.strength = 9 ∧ (Node.unary .blank o x).level = 9 ∧ signAhead (l :: ts) := by
      unfold signOp at hl
      split at hl
      · cases hl
        exact ⟨rfl, rfl, rfl⟩
      · cases hl
        exact ⟨rfl, rfl, rfl⟩
      · cases hl
    obtain ⟨hstrength, hlevel, hsign⟩ := hstrength
    have hparens : (Node.unary .blank o x).parens = x.parens + x.shields 9 := by rw [Node.parens, hstrength]
    have hshields : (Node.unary .blank o x).shields 9 = 0 := Node.shields_of_le (Nat.le_of_eq hlevel.symm)
    exact ⟨by omega, fun _ h => by simp [hsign] at h⟩
  | stop => exact fun _ => Nat.le_refl _
  | @operator k ts r mid o l x rest g ho _ _ ihr ihx =>
    intro hk
    have ihr := ihr.1
    have ihx := ihx hk
    have hmark := guards_le_mark (.op o) g ts
    obtain ⟨hleft, hright⟩ := strengths_of_groupsLeft ho hk
    have hparens : (Node.binary .blank o l r).parens = l.parens + l.shields k + r.parens + r.shields (k + 1) := by
      rw [Node.parens, hleft, hright]
    have hshields : (Node.binary .blank o l r).shields k = 0 := Node.shields_of_le (by simp [Node.level, ho])
    omega
  | @call ts args mid l x rest _ _ ihargs ihx =>
    intro hk
    have ihx := ihx hk
    have hcalled := parens_called l args
    simp only [Phrase.Guarded, Item.parens, guards_openParen] at ihargs ⊢
    omega
  | @brackets ts xs g₂ p mid l x rest g _ _ ihxs ihx =>
    intro hk
    have ihx := ihx hk
    have hopen := guards_le_mark .openBracket g ts
    have hclose := guards_le_cons (.closeBracket p) mid
    have hparens : (Node.index .blank l xs false).parens = l.parens + l.shields 11 + parensNodes xs := by
      rw [Node.parens]
    have hshields : (Node.index .blank l xs false).shields 11 = 0 := rfl
    simp only [Phrase.Guarded, Item.parens, guards_gap] at ihxs
    omega
  | @doubleBrackets ts xs g₂ p mid l x rest g _ _ ihxs ihx =>
    intro hk
    have ihx := ihx hk
    have hopen := guards_le_mark .openDouble g ts
    have hclose := Nat.le_trans (guards_le_cons (.closeBracket p) mid) (guards_le_cons (.closeBracket true) _)
    have hparens : (Node.index .blank l xs true).parens = l.parens + l.shields 11 + parensNodes xs := by
      rw [Node.parens]
    have hshields : (Node.index .blank l xs true).shields 11 = 0 := rfl
    simp only [Phrase.Guarded, Item.parens, guards_gap] at ihxs
    omega
  | @member text l ts x rest m _ _ ih =>
    intro hk
    have ih := ih hk
    have hmark := Nat.le_trans (guards_le_cons m ts) (guards_le_cons .dollar _)
    have hparens : (Node.member .blank l text).parens = l.parens + l.shields 11 := by rw [Node.parens]
    have hshields : (Node.member .blank l text).shields 11 = 0 := rfl
    omega
  | number | string | name => exact .of_ne (by decide) (by simp [guards, Node.parens, Node.shields, Node.level])
  | @constant k x ts hk =>
    have hconstant : x.parens = 0 ∧ x.shields 12 = 0 := by
      cases k with
      | trueWord | falseWord | nullWord =>
        cases hk
        exact ⟨rfl, rfl⟩
      | _ => cases hk
    have hmark := guards_le_cons (.keyword k) ts
    exact .of_ne (by decide) (by omega)
  | @paren ts x g₂ rest g _ ih =>
    have hclose := guards_le_cons .closeParen rest
    have hle := x.shields_le 12
    simp only [Phrase.Guarded, guards_gap] at ih
    refine .of_ne (by decide) ?_
    rw [guards_openParen, guards_gap]
    omega
  | @block ts ss rest _ ih =>
    have hclose := guards_le_cons .closeBrace rest
    have hopen := guards_le_cons .openBrace ts
    have hparens : (Node.block ⟨.blank, ss⟩).parens = parensNodes ss := by rw [Node.parens, Block.parens]
    have hshields : (Node.block ⟨.blank, ss⟩).shields 12 = 0 := rfl
    simp only [Phrase.Guarded] at ih
    exact .of_ne (by decide) (by omega)

end Grammar

/-! The parentheses of printed trees. -/

/-- The lexemes hold no more parentheses than are needed, and as many only if everything is in its
place. -/
def Tally (ts : Bool → List Lexeme) (needed : Nat) (placed : Bool) : Prop :=
  ∀ tight rest, guards (ts tight ++ rest) ≤ needed + guards rest ∧
    (needed + guards rest ≤ guards (ts tight ++ rest) → placed)

namespace Tally

theorem mono {p q : Bool} (h : Tally ts c p) (hc : c = d) (hp : p → q) : Tally ts d q := by
  subst hc
  exact fun tight rest => ⟨(h tight rest).1, fun hle => hp ((h tight rest).2 hle)⟩

theorem fix (h : Tally x c p) (tight : Bool) : Tally (fun _ => x tight) c p := fun _ => h tight

theorem append (hx : Tally x c p) (hy : Tally y d q) :
    Tally (fun tight => x false ++ y tight) (c + d) (p && q) := by
  intro tight rest
  have hx := hx false (y tight ++ rest)
  have hy := hy tight rest
  rw [List.append_assoc, Bool.and_eq_true]
  exact ⟨by omega, fun hle => ⟨hx.2 (by omega), hy.2 (by omega)⟩⟩

theorem cons {l : Lexeme} (hl : ∀ tight rest, guards (l :: (x tight ++ rest)) = guards (x tight ++ rest))
    (h : Tally x c p) : Tally (fun tight => l :: x tight) c p := by
  intro tight rest
  rw [List.cons_append, hl]
  exact h tight rest

theorem paren (h : Tally x c p) : Tally (fun tight => .openParen :: x tight) (c + 1) p := by
  intro tight rest
  have h := h tight rest
  rw [List.cons_append, guards_openParen]
  exact ⟨by omega, fun hle => h.2 (by omega)⟩

theorem single {l : Bool → Lexeme} (hl : ∀ tight ts, guards (l tight :: ts) = guards ts) :
    Tally (fun tight => [l tight]) 0 true := by
  intro tight rest
  rw [List.cons_append, List.nil_append, hl]
  exact ⟨by omega, fun _ => rfl⟩

end Tally

/-- Items that are tallied one by one. -/
inductive TallyEach : List (Bool → List Lexeme) → Nat → Bool → Prop where
  | nil : TallyEach [] 0 true
  | cons (hx : Tally x c p) (hxs : TallyEach xs d q) : TallyEach (x :: xs) (c + d) (p && q)

theorem TallyEach.commas (h : TallyEach xs c p) : Tally (fun tight => Print.commas tight xs) c p := by
  induction h with
  | nil => exact fun _ _ => ⟨by simp [Print.commas], fun _ => rfl⟩
  | @cons x _ _ xs d q hx hxs ih =>
    cases hxs with
    | nil => exact hx.mono (by omega) (by simp)
    | cons => exact hx.append (ih.cons fun _ _ => rfl)

theorem TallyEach.rows (h : TallyEach xs c p) : Tally (fun _ => Print.rows xs) c p := by
  induction h with
  | nil => exact fun _ _ => ⟨by simp [Print.rows], fun _ => rfl⟩
  | @cons x _ _ xs d q hx hxs ih =>
    intro tight rest
    have h := (hx.append (ih.cons (l := .newline) fun _ _ => rfl)) tight rest
    simpa [Print.rows] using h

theorem TallyEach.braces (h : TallyEach xs c p) : Tally (fun _ => Print.braces xs) c p := by
  cases h with
  | nil => exact fun _ _ => ⟨by simp [Print.braces, guards], fun _ => rfl⟩
  | cons hx hxs =>
    have hrows := (TallyEach.cons hx hxs).rows
    have hbraces := ((hrows.append (.single (l := fun _ => .closeBrace) fun _ _ => rfl)).cons (l := .newline)
      fun _ _ => rfl).cons (l := .openBrace) fun _ _ => rfl
    exact hbraces.mono (by omega) (by simp)

/-- Binding strength and layer agree, except on what leaves a loop. -/
theorem Node.level_cases {n : Node} (hn : n.isSpelled) (hleaves : n.leavesLoop = false) :
    n.precedence = n.level ∧ n.level ≤ 10 ∨ n.precedence = atomic ∧ 11 ≤ n.level := by
  cases n with
  | string => cases hn
  | number s v i => exact .inr ⟨by simp [precedence, (Number.isSpelled_iff.1 hn).1], by simp [level]⟩
  | boolean | null | identifier | block | call | index | member => exact .inr ⟨rfl, by simp [level]⟩
  | unary s op x =>
    cases op with
    | unknown => cases hn
    | _ => exact .inl ⟨rfl, by simp [level, UnaryOp.precedence?]⟩
  | binary s op l r =>
    cases op with
    | arith a => cases a <;> exact .inl ⟨rfl, by simp [level, BinaryOp.precedence?]⟩
    | unknown => cases hn
    | _ => exact .inl ⟨rfl, by simp [level, BinaryOp.precedence?]⟩
  | jump s j x? =>
    cases j with
    | ret => exact .inr ⟨rfl, Nat.le_refl 11⟩
    | brk | nxt => cases hleaves
  | _ => exact .inl ⟨rfl, Nat.zero_le 10⟩

theorem Tally.enclosed {n : Node} (h : Tally (fun tight => n.spell tight) n.parens (n.all Node.isPlaced))
    (hn : n.isSpelled) {strength k : Nat} (hs : strength = k ∨ strength = atomic ∧ k = 11) (hpos : 0 < k)
    (hk : k ≤ 11) :
    Tally (fun tight => Print.enclosed (n.precedence < strength) (n.spell false) (n.spell tight))
      (n.parens + n.shields k) (!n.leavesLoop && n.all Node.isPlaced) := by
  cases hleaves : n.leavesLoop with
  | true =>
    have hbrk : n.precedence = atomic ∧ n.level = 0 := by
      unfold Node.leavesLoop at hleaves
      split at hleaves
      · exact ⟨rfl, rfl⟩
      · exact ⟨rfl, rfl⟩
      · cases hleaves
    have hneeded : ¬n.precedence < strength := by
      unfold atomic at *
      omega
    have hshields : n.shields k = 1 := if_pos (by omega)
    intro tight rest
    have h : guards (n.spell tight ++ rest) ≤ n.parens + guards rest := (h tight rest).1
    simp only [Print.enclosed, hneeded, decide_false, Bool.false_eq_true, if_false, hshields]
    exact ⟨by omega, fun hle => by omega⟩
  | false =>
    have hiff : n.precedence < strength ↔ n.level < k := by
      have hcases := Node.level_cases hn hleaves
      unfold atomic at *
      omega
    by_cases hneeded : n.level < k
    · have hshields : n.shields k = 1 := if_pos hneeded
      intro tight rest
      have h := (h.append (.single (l := fun _ => .closeParen) fun _ _ => rfl)).paren tight rest
      simpa [Print.enclosed, hiff.2 hneeded, hshields] using h
    · have hshields : n.shields k = 0 := if_neg hneeded
      intro tight rest
      have h := h tight rest
      simpa [Print.enclosed, mt hiff.1 hneeded, hshields] using h

/-! A printed `^` is followed by no sign. -/

theorem signAhead_enclosed {plain rest : List Lexeme} (h : needed = false → signAhead (plain ++ rest) = false)
    (inner : List Lexeme) : signAhead (Print.enclosed needed inner plain ++ rest) = false := by
  cases needed with
  | true => rfl
  | false => exact h rfl

theorem BinaryOp.eq_pow {op : BinaryOp} (h : op.isSpelled) (hp : 10 ≤ op.precedence?.getD atomic) :
    op = .arith .pow := by
  cases op with
  | arith a =>
    cases a with
    | pow => rfl
    | _ => exact absurd hp (by decide)
  | unknown => cases h
  | _ => exact absurd hp (by simp [precedence?])

theorem Node.signAhead_spell (tight : Bool) (rest : List Lexeme) : (n : Node) → n.all Node.isSpelled →
    10 ≤ n.precedence → signAhead (n.spell tight ++ rest) = false
  | .string .., h, _ => by cases h
  | .number _ v i, _, _ => by
    obtain hcut | hcut := Lexeme.member_cases (numeral v i) <;> rw [Node.spell, hcut] <;> rfl
  | .boolean _ true, _, _ | .boolean _ false, _, _ | .null _, _, _ | .identifier _, _, _ => rfl
  | .unary _ op x, h, hp => by
    cases op with
    | unknown => cases h
    | _ => exact absurd hp (by simp [Node.precedence, UnaryOp.precedence?])
  | .binary _ op l r, h, hp => by
    simp only [Node.all, Node.isSpelled, Bool.and_eq_true] at h
    obtain rfl : op = .arith .pow := BinaryOp.eq_pow h.1.1.1.1 hp
    rw [Node.spell, List.append_assoc]
    refine signAhead_enclosed (fun hneeded => l.signAhead_spell false _ h.1.2 ?_) _
    exact Nat.le_trans (by decide) (Nat.not_lt.1 (of_decide_eq_false hneeded))
  | .call _ f args, h, _ => by
    simp only [Node.all, Bool.and_eq_true] at h
    rw [Node.spell, List.append_assoc]
    refine signAhead_enclosed (fun hneeded => f.signAhead_spell false _ h.1.2 ?_) _
    exact Nat.le_trans (by decide) (Nat.not_lt.1 (of_decide_eq_false hneeded))
  | .index _ t xs d, h, _ => by
    simp only [Node.all, Bool.and_eq_true] at h
    rw [Node.spell, List.append_assoc]
    refine signAhead_enclosed (fun hneeded => t.signAhead_spell false _ h.1.2 ?_) _
    exact Nat.le_trans (by decide) (Nat.not_lt.1 (of_decide_eq_false hneeded))
  | .member _ t name, h, _ => by
    simp only [Node.all, Bool.and_eq_true] at h
    rw [Node.spell, List.append_assoc]
    refine signAhead_enclosed (fun hneeded => t.signAhead_spell false _ h.2 ?_) _
    exact Nat.le_trans (by decide) (Nat.not_lt.1 (of_decide_eq_false hneeded))
  | .block ⟨_, ss⟩, _, _ => by
    rw [Node.spell, Block.spell, Print.braces]
    split <;> rfl
  | .assign .., _, hp | .cond .., _, hp | .whileLoop .., _, hp | .repeatLoop .., _, hp | .forLoop .., _, hp
  | .function .., _, hp => absurd hp (by simp [Node.precedence])
  | .jump _ .ret none, _, _ | .jump _ .ret (some x), _, _ | .jump _ .brk _, _, _ | .jump _ .nxt _, _, _ => rfl

theorem guards_op {op : BinaryOp} {r : Node} (hop : op.isSpelled) (hr : r.all Node.isSpelled) (tight : Bool)
    (rest : List Lexeme) :
    guards (.op op ::
        (Print.enclosed (r.precedence < op.rightStrength) (r.spell false) (r.spell tight) ++ rest)) =
      guards (Print.enclosed (r.precedence < op.rightStrength) (r.spell false) (r.spell tight) ++ rest) := by
  by_cases hpow : op = .arith .pow
  · subst hpow
    have hsign : signAhead (Print.enclosed (r.precedence < (BinaryOp.arith .pow).rightStrength)
        (r.spell false) (r.spell tight) ++ rest) = false :=
      signAhead_enclosed
        (fun hneeded => r.signAhead_spell tight rest hr (Nat.not_lt.1 (of_decide_eq_false hneeded))) _
    simp [guards, hsign]
  · simp [guards, hpow]

/-! Printed trees. -/

theorem guards_member (s : String) (ts : List Lexeme) : guards (.member s :: ts) = guards ts := by
  obtain h | h := Lexeme.member_cases s <;> exact h ▸ rfl

theorem guards_nameLexeme (name : String) (ts : List Lexeme) : guards (nameLexeme name :: ts) = guards ts := by
  unfold nameLexeme
  split
  · cases Keyword.ofText? name with
    | none => exact guards_member name ts
    | some k => rfl
  · rfl

mutual

theorem Node.tally : (n : Node) → n.all Node.isSpelled →
    Tally (fun tight => n.spell tight) n.parens (n.all Node.isPlaced)
  | .string .., h => by cases h
  | .number _ v i, _ => .single fun _ => guards_member _
  | .boolean _ true, _ | .boolean _ false, _ | .null _, _ | .identifier _, _ => .single fun _ _ => rfl
  | .unary _ op x, h => by
    simp only [Node.all, Node.isSpelled, Bool.and_eq_true] at h
    have hx := (x.tally h.2).enclosed (Node.self_of_all h.2) (.inl (Eq.refl op.strength))
    cases op with
    | unknown => cases h.1.1
    | _ => exact ((hx (by decide) (by decide)).cons fun _ _ => rfl).mono rfl (by simp [Node.all, Node.isPlaced])
  | .binary s op l r, h => by
    simp only [Node.all, Node.isSpelled, Bool.and_eq_true] at h
    obtain ⟨⟨hlpos, hl⟩, hrpos, hr⟩ := op.strength_bounds h.1.1.1.1
    have hleft := (l.tally h.1.2).enclosed (Node.self_of_all h.1.2) (.inl rfl) hlpos hl
    have hright := (r.tally h.2).enclosed (Node.self_of_all h.2) (.inl rfl) hrpos hr
    have hop := hright.cons (l := .op op) fun tight rest => guards_op h.1.1.1.1 h.2 tight rest
    exact (hleft.append hop).mono (by simp only [Node.parens]; omega) (by simp [Node.all, Node.isPlaced]; tauto)
  | .call s f args, h => by
    simp only [Node.all, Bool.and_eq_true] at h
    have hcallee := (f.tally h.1.2).enclosed (Node.self_of_all h.1.2) (.inr ⟨rfl, rfl⟩) (by decide) (Nat.le_refl 11)
    have hargs := ((tallyArguments args h.2).commas.append (.single (l := fun _ => .closeParen) fun _ _ => rfl)).paren
    exact (hcallee.append hargs).mono (by simp only [Node.parens]; omega) (by simp [Node.all, Node.isPlaced])
  | .index s t xs d, h => by
    simp only [Node.all, Bool.and_eq_true] at h
    have htarget := (t.tally h.1.2).enclosed (Node.self_of_all h.1.2) (.inr ⟨rfl, rfl⟩) (by decide) (Nat.le_refl 11)
    have hxs := (tallyNodes xs h.2).commas
    cases d with
    | true =>
      have hclose := (Tally.single (l := .closeBracket) fun _ _ => rfl).cons (l := .closeBracket true) fun _ _ => rfl
      have hinner := ((hxs.fix true).append hclose).cons (l := .openDouble) fun _ _ => rfl
      exact (htarget.append hinner).mono rfl (by simp [Node.all, Node.isPlaced])
    | false =>
      have hinner := ((hxs.fix true).append (.single (l := .closeBracket) fun _ _ => rfl)).cons
        (l := .openBracket) fun _ _ => rfl
      exact (htarget.append hinner).mono rfl (by simp [Node.all, Node.isPlaced])
  | .member s t name, h => by
    simp only [Node.all, Bool.and_eq_true] at h
    have htarget := (t.tally h.2).enclosed (Node.self_of_all h.2) (.inr ⟨rfl, rfl⟩) (by decide) (Nat.le_refl 11)
    have hname := (Tally.single (l := fun _ => .member name) fun _ => guards_member name).cons (l := .dollar)
      fun _ _ => rfl
    exact (htarget.append hname).mono rfl (by simp [Node.all, Node.isPlaced])
  | .block b, h => by
    simp only [Node.all, Bool.and_eq_true] at h
    exact (b.tally h.2).mono rfl (by simp [Node.all, Node.isPlaced])
  | .assign s op t v, h => by
    simp only [Node.all, Node.isSpelled, Bool.and_eq_true] at h
    have hv := (v.tally h.2).cons (l := op.lexeme) fun _ _ => by cases op <;> rfl
    have hassign := (t.tally h.1.2).append hv
    by_cases hlevel : t.level = 0
    · have hshields : t.shields 1 = 1 := if_pos (by omega)
      intro tight rest
      have hassign := (hassign tight rest).1
      rw [Node.parens, hshields]
      exact ⟨Nat.le_trans hassign (by omega), fun hle => absurd (Nat.le_trans hle hassign) (by omega)⟩
    · have hshields : t.shields 1 = 0 := if_neg (by omega)
      exact hassign.mono (by rw [Node.parens, hshields]; omega) (by simp [Node.all, Node.isPlaced, hlevel])
  | .cond s c t none, h => by
    simp only [Node.all, Bool.and_eq_true] at h
    have hcond := (((c.tally h.1.2).append ((t.tally h.2).cons (l := .closeParen) fun _ _ => rfl)).paren).cons
      (l := .keyword .ifWord) fun _ _ => rfl
    exact hcond.mono rfl (by simp [Node.all, Node.isPlaced])
  | .cond s c t (some e), h => by
    simp only [Node.all, Bool.and_eq_true] at h
    have helse := (t.tally h.1.2).append ((e.tallyElse h.2).cons (l := .keyword .elseWord) fun _ _ => rfl)
    have hcond := (((c.tally h.1.1.2).append (helse.cons (l := .closeParen) fun _ _ => rfl)).paren).cons
      (l := .keyword .ifWord) fun _ _ => rfl
    exact hcond.mono (by simp only [Node.parens]; omega) (by simp [Node.all, Node.isPlaced]; tauto)
  | .whileLoop s c b, h => by
    simp only [Node.all, Bool.and_eq_true] at h
    have hloop := (((c.tally h.1.2).append ((b.tally h.2).cons (l := .closeParen) fun _ _ => rfl)).paren).cons
      (l := .keyword .whileWord) fun _ _ => rfl
    exact hloop.mono rfl (by simp [Node.all, Node.isPlaced])
  | .repeatLoop s b, h => by
    simp only [Node.all, Bool.and_eq_true] at h
    have hloop := (b.tally h.2).cons (l := .keyword .repeatWord) fun _ _ => rfl
    exact hloop.mono rfl (by simp [Node.all, Node.isPlaced])
  | .forLoop s v x b, h => by
    simp only [Node.all, Bool.and_eq_true] at h
    have hheader := ((x.tally h.1.2).append ((b.tally h.2).cons (l := .closeParen) fun _ _ => rfl)).cons
      (l := .keyword .inWord) fun _ _ => rfl
    have hloop := ((hheader.cons (l := .member v.name) fun _ _ => guards_member _ _).paren).cons
      (l := .keyword .forWord) fun _ _ => rfl
    exact hloop.mono rfl (by simp [Node.all, Node.isPlaced])
  | .function s ps b, h => by
    simp only [Node.all, Bool.and_eq_true] at h
    have hfunction := (((tallyParameters ps h.1.2).commas.append
      ((b.tally h.2).cons (l := .closeParen) fun _ _ => rfl)).paren).cons (l := .keyword .functionWord) fun _ _ => rfl
    exact hfunction.mono rfl (by simp [Node.all, Node.isPlaced])
  | .jump s .ret none, _ => (Tally.single (l := fun _ => .closeParen) fun _ _ => rfl).paren.cons fun _ _ => rfl
  | .jump s .ret (some x), h => by
    simp only [Node.all, Bool.and_eq_true] at h
    have hreturn := (((x.tally h.2).append (.single (l := fun _ => .closeParen) fun _ _ => rfl)).paren).cons
      (l := .name "return") fun _ _ => rfl
    exact hreturn.mono rfl (by simp [Node.all, Node.isPlaced])
  | .jump s .brk none, _ | .jump s .nxt none, _ => .single fun _ _ => rfl
  | .jump s .brk (some x), h | .jump s .nxt (some x), h => by
    simp only [Node.all, Node.isSpelled, Bool.and_eq_true] at h
    cases h.1

theorem Block.tally : (b : Block) → b.all Node.isSpelled → Tally (fun _ => b.spell) b.parens (b.all Node.isPlaced)
  | ⟨_, ss⟩, h => (tallyNodes ss h).braces

theorem Block.tallyElse : (b : Block) → b.all Node.isSpelled →
    Tally (fun _ => b.spellElse) b.parens (b.all Node.isPlaced)
  | ⟨_, ss⟩, h => by
    have hss := tallyNodes ss h
    rw [Block.spellElse]
    cases hif : Print.isElseIf ss with
    | true =>
      obtain ⟨s, c, t, e?, rfl⟩ := Print.isElseIf_eq hif
      have hcond := hss.commas.fix false
      simpa [spellNodes, Print.commas, Block.parens, Block.all] using hcond
    | false => exact hss.braces

theorem tallyNodes : (ns : List Node) → allNodes Node.isSpelled ns →
    TallyEach (spellNodes ns) (parensNodes ns) (allNodes Node.isPlaced ns)
  | [], _ => .nil
  | n :: ns, h => by
    simp only [allNodes, Bool.and_eq_true] at h
    exact .cons (n.tally h.1) (tallyNodes ns h.2)

theorem tallyArguments : (as : List Argument) → allArguments Node.isSpelled as →
    TallyEach (spellArguments as) (parensArguments as) (allArguments Node.isPlaced as)
  | [], _ => .nil
  | ⟨_, none, v⟩ :: as, h => by
    simp only [allArguments, Bool.and_eq_true] at h
    exact .cons (v.tally h.1) (tallyArguments as h.2)
  | ⟨_, some name, v⟩ :: as, h => by
    simp only [allArguments, Bool.and_eq_true] at h
    exact .cons (((v.tally h.1).cons fun _ _ => rfl).cons fun _ _ => guards_nameLexeme name _) (tallyArguments as h.2)

theorem tallyParameters : (ps : List Parameter) → allParameters Node.isSpelled ps →
    TallyEach (spellParameters ps) (parensParameters ps) (allParameters Node.isPlaced ps)
  | [], _ => .nil
  | ⟨_, name, none⟩ :: ps, h => by
    have hname := Tally.single (l := fun _ => .member name) fun _ => guards_member name
    have hps := TallyEach.cons hname (tallyParameters ps h)
    rwa [Nat.zero_add, Bool.true_and] at hps
  | ⟨_, name, some d⟩ :: ps, h => by
    simp only [allParameters, Bool.and_eq_true] at h
    exact .cons (((d.tally h.1).cons fun _ _ => rfl).cons fun _ _ => guards_member name _) (tallyParameters ps h.2)

end

/-- A printed program is read back exactly if everything in it is in its place. -/
theorem derives_rows_iff [Text.CharNames] {ns : List Node} (h : allNodes Node.isSpelled ns) :
    Derives .statements (rows (spellNodes ns)) (bareNodes ns) [] ↔ allNodes Node.isPlaced ns := by
  constructor
  · intro hderives
    have hneeded := hderives.guarded
    have hrows := (tallyNodes ns h).rows false []
    simp only [Phrase.Guarded, parensNodes_bare, List.append_nil] at hneeded hrows
    exact hrows.2 hneeded
  · intro hplaced
    have hrows := derives_rows (derived_nodes ns (allNodes_isLegible h) hplaced) []
    rwa [List.append_nil, rereadNodes_of_isSpelled ns h] at hrows

end Deadwood
