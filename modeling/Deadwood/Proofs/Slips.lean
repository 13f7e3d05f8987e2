import Deadwood.Proofs.Reserved

/-! Slips in printed trees. The target of an assignment is printed without parentheses, so a statement whose target is
a reserved word, or begins with an assignment to one, is stopped by the screen. -/
namespace Deadwood
open Lexeme (opensReserved opensReserved_append slips slips_newline_cons)
open Print (enclosed)

/-! Statements that the screen takes for slips. -/

/-- The nodes that are printed as a reserved word. -/
def Node.isWord : Node → Bool
  | .boolean .. | .null _ | .jump _ .brk _ | .jump _ .nxt _ => true
  | _ => false

def Node.assignsWord : Node → Bool
  | .assign _ _ t _ => t.isWord || t.assignsWord
  | _ => false

def Block.sparesWords (b : Block) : Bool := b.statements.all (!·.assignsWord)

/-- No statement in the node's bodies begins by assigning to a reserved word. -/
def Node.sparesWords : Node → Bool
  | .block b | .whileLoop _ _ b | .repeatLoop _ b | .forLoop _ _ _ b | .function _ _ b => b.sparesWords
  | .cond _ _ t none => t.sparesWords
  | .cond _ _ t (some e) => t.sparesWords && e.sparesWords
  | _ => true

def Program.sparesWords (p : Program) : Bool := p.body.all (!·.assignsWord) && p.all Node.sparesWords

theorem Print.ne_newline_of_leads {l : Lexeme} (h : leads l) : l ≠ .newline := by
  rintro rfl
  cases h

theorem Node.assignsWord_of_precedence {n : Node} (h : n.precedence ≠ 0) : n.assignsWord = false := by
  cases n with
  | assign => exact absurd rfl h
  | _ => rfl

/-- An operand is put in parentheses if it is an assignment. -/
theorem Node.opensReserved_enclosed {n : Node} {l : Lexeme} {rest : List Lexeme}
    (h : opensReserved (n.spell false ++ l :: rest) = (n.isWord && l.assigns || n.assignsWord))
    {strength : Nat} (hpos : 0 < strength) (hl : l.assigns = false) :
    opensReserved (enclosed (n.precedence < strength) (n.spell false) (n.spell false) ++ l :: rest) = false := by
  by_cases hneeded : n.precedence < strength
  · simp [enclosed, hneeded, opensReserved]
  · simpa [enclosed, hneeded, hl, n.assignsWord_of_precedence (by omega)] using h

/-- What stands behind a node can make an assignment of it only if the node is a reserved word. -/
theorem Node.opensReserved_spell (tight : Bool) (l : Lexeme) (rest : List Lexeme) : (n : Node) →
    n.all Node.isCut →
    opensReserved (n.spell tight ++ l :: rest) = (n.isWord && l.assigns || n.assignsWord)
  | .number _ v i, _ => by
    obtain h | h := Lexeme.member_cases (Print.numeral v i) <;> simp [Node.spell, h] <;> rfl
  | .string .., _ | .boolean .., _ | .null _, _ | .identifier _, _ => by
    simp [Node.spell, opensReserved, Node.isWord, Node.assignsWord]
  | .unary _ op x, _ => by cases op <;> rfl
  | .binary _ op x y, h => by
    simp only [Node.all, Node.isCut, Node.isSpelled, Bool.and_eq_true] at h
    rw [Node.spell, List.append_assoc]
    exact Node.opensReserved_enclosed (x.opensReserved_spell false _ _ h.1.2) (op.strength_bounds h.1.1.1.1).1.1 rfl
  | .call _ f args, h => by
    simp only [Node.all, Bool.and_eq_true] at h
    rw [Node.spell, List.append_assoc]
    exact Node.opensReserved_enclosed (f.opensReserved_spell false _ _ h.1.2) (by decide) rfl
  | .index _ t xs true, h | .index _ t xs false, h => by
    simp only [Node.all, Bool.and_eq_true] at h
    rw [Node.spell, List.append_assoc]
    exact Node.opensReserved_enclosed (t.opensReserved_spell false _ _ h.1.2) (by decide) rfl
  | .member _ t name, h => by
    simp only [Node.all, Bool.and_eq_true] at h
    rw [Node.spell, List.append_assoc]
    exact Node.opensReserved_enclosed (t.opensReserved_spell false _ _ h.2) (by decide) rfl
  | .block ⟨_, ss⟩, _ | .repeatLoop _ ⟨_, ss⟩, _ => by
    rw [Node.spell, Block.spell, Print.braces]
    split <;> rfl
  | .assign _ op t v, h => by
    simp only [Node.all, Bool.and_eq_true] at h
    have hop : op.lexeme.assigns := by cases op <;> rfl
    rw [Node.spell, List.append_assoc, List.cons_append, t.opensReserved_spell false op.lexeme _ h.1.2, hop,
      Bool.and_true]
    rfl
  | .cond _ _ _ none, _ | .cond _ _ _ (some _), _ | .whileLoop .., _ | .forLoop .., _ | .function .., _ => rfl
  | .jump _ .ret none, _ | .jump _ .ret (some x), _ => rfl
  | .jump _ .brk _, _ | .jump _ .nxt _, _ => by simp [Node.spell, opensReserved, Node.isWord, Node.assignsWord]

theorem Node.opensReserved_statement {n : Node} (h : n.all Node.isCut) :
    opensReserved (n.spell false) = n.assignsWord := by
  have hnewline : Lexeme.newline.assigns = false := rfl
  rw [← opensReserved_append _ [], n.opensReserved_spell false .newline [] h, hnewline, Bool.and_false, Bool.false_or]

/-! Slips in printed trees. -/

/-- Lexemes without a slip, or with one. -/
def Slips (ts : Bool → List Lexeme) (clean : Bool) : Prop :=
  ∀ tight rest, slips (ts tight ++ rest) = (!clean || slips rest)

namespace Slips

theorem congr {p q : Bool} (h : Slips ts p) (hp : p = q) : Slips ts q := hp ▸ h

theorem fix (h : Slips x p) (tight : Bool) : Slips (fun _ => x tight) p := fun _ => h tight

theorem append (hx : Slips x p) (hy : Slips y q) : Slips (fun tight => x false ++ y tight) (p && q) := by
  intro tight rest
  rw [List.append_assoc, hx, hy, Bool.not_and, Bool.or_assoc]

theorem cons {l : Lexeme} (hl : l ≠ .newline) (h : Slips x p) : Slips (fun tight => l :: x tight) p := by
  intro tight rest
  have hl : (l == .newline) = false := by simpa using hl
  rw [List.cons_append, slips, hl, h]
  rfl

theorem nil : Slips (fun _ => []) true := fun _ _ => rfl

theorem single {l : Bool → Lexeme} (hl : ∀ tight, l tight ≠ .newline) : Slips (fun tight => [l tight]) true :=
  fun tight => nil.cons (hl tight) tight

theorem enclosed (h : Slips x p) (needed : Bool) :
    Slips (fun tight => Print.enclosed needed (x false) (x tight)) p := by
  cases needed with
  | true => exact ((h.append (single (l := fun _ => .closeParen) nofun)).cons (l := .openParen) nofun).congr (by simp)
  | false => exact h

end Slips

/-- Items that are looked at one by one. -/
inductive SlipsEach : List (Bool → List Lexeme) → Bool → Prop where
  | nil : SlipsEach [] true
  | cons (hx : Slips x p) (hxs : SlipsEach xs q) : SlipsEach (x :: xs) (p && q)

theorem SlipsEach.commas (h : SlipsEach xs p) : Slips (fun tight => Print.commas tight xs) p := by
  induction h with
  | nil => exact .nil
  | @cons x _ xs q hx hxs ih =>
    cases hxs with
    | nil => exact hx.congr (by simp)
    | cons => exact hx.append (ih.cons nofun)

/-- Each row stands behind a line break. -/
theorem SlipsEach.rows (h : SlipsEach xs p) {rest : List Lexeme} (hrest : opensReserved rest = false) :
    slips (.newline :: (Print.rows xs ++ rest)) =
      (!((xs.all fun x => !opensReserved (x false)) && p) || slips rest) := by
  induction h with
  | nil => simp [Print.rows, slips_newline_cons, hrest]
  | @cons x p xs q hx hxs ih =>
    have hrows : Print.rows (x :: xs) ++ rest = x false ++ .newline :: (Print.rows xs ++ rest) := by simp [Print.rows]
    rw [hrows, slips_newline_cons, opensReserved_append, hx, ih, List.all_cons]
    cases opensReserved (x false) <;> cases p <;> simp

theorem SlipsEach.braces (h : SlipsEach xs p) :
    Slips (fun _ => Print.braces xs) ((xs.all fun x => !opensReserved (x false)) && p) := by
  intro tight rest
  cases h with
  | nil => rfl
  | @cons x _ xs _ hx hxs =>
    have hbraces : Print.braces (x :: xs) ++ rest =
        .openBrace :: .newline :: (Print.rows (x :: xs) ++ .closeBrace :: rest) := by simp [Print.braces]
    rw [hbraces]
    exact (SlipsEach.cons hx hxs).rows (show opensReserved (.closeBrace :: rest) = false from rfl)

theorem opensReserved_nodes {ns : List Node} (h : allNodes Node.isCut ns) :
    ((spellNodes ns).all fun x => !opensReserved (x false)) = ns.all (!·.assignsWord) := by
  induction ns with
  | nil => rfl
  | cons n ns ih =>
    simp only [allNodes, Bool.and_eq_true] at h
    rw [spellNodes, List.all_cons, List.all_cons, n.opensReserved_statement h.1, ih h.2]

mutual

theorem Node.slips_spell : (n : Node) → n.all Node.isCut →
    Slips (fun tight => n.spell tight) (n.all Node.sparesWords)
  | .number s v i, _ => .single fun _ => Print.ne_newline_of_leads (Print.leads_member _)
  | .string .., _ | .boolean .., _ | .null _, _ | .identifier _, _ => .single nofun
  | .unary _ op x, h => by
    simp only [Node.all, Bool.and_eq_true] at h
    have hx := (x.slips_spell h.2).enclosed (x.precedence < op.strength)
    cases op <;> exact hx.cons nofun
  | .binary s op l r, h => by
    simp only [Node.all, Bool.and_eq_true] at h
    have hleft := (l.slips_spell h.1.2).enclosed (l.precedence < op.leftStrength)
    have hright := (r.slips_spell h.2).enclosed (r.precedence < op.rightStrength)
    exact hleft.append (hright.cons (l := .op op) nofun)
  | .call s f args, h => by
    simp only [Node.all, Bool.and_eq_true] at h
    have hcallee := (f.slips_spell h.1.2).enclosed (f.precedence < atomic)
    have hargs := ((slips_arguments args h.2).commas.append (.single (l := fun _ => .closeParen) nofun)).cons
      (l := .openParen) nofun
    exact (hcallee.append hargs).congr (by simp [Node.all, Node.sparesWords])
  | .index s t xs d, h => by
    simp only [Node.all, Bool.and_eq_true] at h
    have htarget := (t.slips_spell h.1.2).enclosed (t.precedence < atomic)
    have hxs := (slips_nodes xs h.2).commas.fix true
    cases d with
    | true =>
      have hclose := (Slips.single (l := .closeBracket) nofun).cons (l := .closeBracket true) nofun
      exact (htarget.append ((hxs.append hclose).cons (l := .openDouble) nofun)).congr
        (by simp [Node.all, Node.sparesWords])
    | false =>
      have hclose := Slips.single (l := .closeBracket) nofun
      exact (htarget.append ((hxs.append hclose).cons (l := .openBracket) nofun)).congr
        (by simp [Node.all, Node.sparesWords])
  | .member s t name, h => by
    simp only [Node.all, Bool.and_eq_true] at h
    have htarget := (t.slips_spell h.2).enclosed (t.precedence < atomic)
    have hname := (Slips.single fun _ => Print.ne_newline_of_leads (Print.leads_member name)).cons (l := .dollar) nofun
    exact (htarget.append hname).congr (by simp [Node.all, Node.sparesWords])
  | .block b, h => by
    simp only [Node.all, Bool.and_eq_true] at h
    exact b.slips_spell h.2
  | .assign s op t v, h => by
    simp only [Node.all, Bool.and_eq_true] at h
    have hv := (v.slips_spell h.2).cons (l := op.lexeme) (by cases op <;> nofun)
    exact (t.slips_spell h.1.2).append hv
  | .cond s c t none, h => by
    simp only [Node.all, Bool.and_eq_true] at h
    have hbody := (t.slips_spell h.2).cons (l := .closeParen) nofun
    have hcond := (((c.slips_spell h.1.2).append hbody).cons (l := .openParen) nofun).cons
      (l := .keyword .ifWord) nofun
    exact hcond.congr (by simp [Node.all, Node.sparesWords, Bool.and_left_comm, Bool.and_assoc])
  | .cond s c t (some e), h => by
    simp only [Node.all, Bool.and_eq_true] at h
    have helse := (e.slips_spellElse h.2).cons (l := .keyword .elseWord) nofun
    have hbody := ((t.slips_spell h.1.2).append helse).cons (l := .closeParen) nofun
    have hcond := (((c.slips_spell h.1.1.2).append hbody).cons (l := .openParen) nofun).cons
      (l := .keyword .ifWord) nofun
    exact hcond.congr (by simp [Node.all, Node.sparesWords, Bool.and_left_comm, Bool.and_assoc])
  | .whileLoop s c b, h => by
    simp only [Node.all, Bool.and_eq_true] at h
    have hbody := (b.slips_spell h.2).cons (l := .closeParen) nofun
    have hloop := (((c.slips_spell h.1.2).append hbody).cons (l := .openParen) nofun).cons
      (l := .keyword .whileWord) nofun
    exact hloop.congr (by simp [Node.all, Node.sparesWords, Bool.and_left_comm, Bool.and_assoc])
  | .repeatLoop s b, h => by
    simp only [Node.all, Bool.and_eq_true] at h
    exact (b.slips_spell h.2).cons nofun
  | .forLoop s v x b, h => by
    simp only [Node.all, Bool.and_eq_true] at h
    have hbody := (b.slips_spell h.2).cons (l := .closeParen) nofun
    have hheader := ((x.slips_spell h.1.2).append hbody).cons (l := .keyword .inWord) nofun
    have hvariable := hheader.cons (Print.ne_newline_of_leads (Print.leads_member v.name))
    have hloop := (hvariable.cons (l := .openParen) nofun).cons (l := .keyword .forWord) nofun
    exact hloop.congr (by simp [Node.all, Node.sparesWords, Bool.and_left_comm, Bool.and_assoc])
  | .function s ps b, h => by
    simp only [Node.all, Bool.and_eq_true] at h
    have hbody := (b.slips_spell h.2).cons (l := .closeParen) nofun
    have hfunction := (((slips_parameters ps h.1.2).commas.append hbody).cons (l := .openParen) nofun).cons
      (l := .keyword .functionWord) nofun
    exact hfunction.congr (by simp [Node.all, Node.sparesWords, Bool.and_left_comm, Bool.and_assoc])
  | .jump s .ret none, _ =>
    ((Slips.single (l := fun _ => .closeParen) nofun).cons (l := .openParen) nofun).cons nofun
  | .jump s .ret (some x), h => by
    simp only [Node.all, Bool.and_eq_true] at h
    have hreturn := (((x.slips_spell h.2).append (.single (l := fun _ => .closeParen) nofun)).cons
      (l := .openParen) nofun).cons (l := .name "return") nofun
    exact hreturn.congr (by simp [Node.all, Node.sparesWords])
  | .jump s .brk none, _ | .jump s .nxt none, _ => .single nofun
  | .jump s .brk (some x), h | .jump s .nxt (some x), h => by
    simp only [Node.all, Node.isCut, Node.isSpelled, Bool.and_eq_true] at h
    cases h.1

theorem Block.slips_spell : (b : Block) → b.all Node.isCut →
    Slips (fun _ => b.spell) (b.sparesWords && b.all Node.sparesWords)
  | ⟨_, ss⟩, h => by
    have hss := (slips_nodes ss h).braces
    rwa [opensReserved_nodes h] at hss

theorem Block.slips_spellElse : (b : Block) → b.all Node.isCut →
    Slips (fun _ => b.spellElse) (b.sparesWords && b.all Node.sparesWords)
  | ⟨_, ss⟩, h => by
    have hss := slips_nodes ss h
    rw [Block.spellElse]
    cases hif : Print.isElseIf ss with
    | true =>
      obtain ⟨s, c, t, e?, rfl⟩ := Print.isElseIf_eq hif
      have hcond := hss.commas.fix false
      simpa [spellNodes, Print.commas, Block.all, Block.sparesWords, Node.assignsWord] using hcond
    | false =>
      have hbraces := hss.braces
      rwa [opensReserved_nodes h] at hbraces

theorem slips_nodes : (ns : List Node) → allNodes Node.isCut ns →
    SlipsEach (spellNodes ns) (allNodes Node.sparesWords ns)
  | [], _ => .nil
  | n :: ns, h => by
    simp only [allNodes, Bool.and_eq_true] at h
    exact .cons (n.slips_spell h.1) (slips_nodes ns h.2)

theorem slips_arguments : (as : List Argument) → allArguments Node.isCut as →
    SlipsEach (spellArguments as) (allArguments Node.sparesWords as)
  | [], _ => .nil
  | ⟨_, none, v⟩ :: as, h => by
    simp only [allArguments, Bool.and_eq_true] at h
    exact .cons (v.slips_spell h.1) (slips_arguments as h.2)
  | ⟨_, some name, v⟩ :: as, h => by
    simp only [allArguments, Bool.and_eq_true] at h
    have hname := Print.ne_newline_of_leads (Print.leads_nameLexeme name)
    exact .cons (((v.slips_spell h.1).cons (l := .equals) nofun).cons hname) (slips_arguments as h.2)

theorem slips_parameters : (ps : List Parameter) → allParameters Node.isCut ps →
    SlipsEach (spellParameters ps) (allParameters Node.sparesWords ps)
  | [], _ => .nil
  | ⟨_, name, none⟩ :: ps, h => by
    have hname : Slips _ _ := Slips.single fun _ => Print.ne_newline_of_leads (Print.leads_member name)
    have hps := SlipsEach.cons hname (slips_parameters ps h)
    rwa [Bool.true_and] at hps
  | ⟨_, name, some d⟩ :: ps, h => by
    simp only [allParameters, Bool.and_eq_true] at h
    have hname := Print.ne_newline_of_leads (Print.leads_member name)
    exact .cons (((d.slips_spell h.1).cons (l := .equals) nofun).cons hname) (slips_parameters ps h.2)

end

/-- Quiet text of a program passes the screen unless a string runs over the end of a line, a statement assigns to a
reserved word, or a string holds what is taken for such a statement. -/
theorem Program.find_eq_none_iff_of_isCut {p : Program} (h : p.all Node.isCut) {text : List Char}
    (hquiet : Quiet text p.quotes) (htext : lexemes text = Print.rows (spellNodes p.body)) :
    Screen.find text = none ↔
      (∀ s, some s ∈ p.quotes → Text.isOneLine s) ∧ p.sparesWords ∧ Text.anySlip false p.quotes = false := by
  have hrows := (slips_nodes p.body h).rows (show opensReserved [] = false from rfl)
  rw [List.append_nil, opensReserved_nodes h] at hrows
  rw [hquiet.find_eq_none_iff, htext, hrows, Program.sparesWords]
  simp [slips, Program.all]

end Deadwood
