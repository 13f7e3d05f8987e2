import Deadwood.Proofs.Parentheses
import Deadwood.Proofs.Slips
import Deadwood.Proofs.Targets

/-! Printing and reading back. A printed script is read as the tree it was printed from, unless
something in it has lost parentheses that it needs, or the screen stops it. -/
namespace Deadwood

/-! Statements that the screen takes for slips. -/

def Block.isWritable (b : Block) : Bool := b.statements.all (Node.spares Node.isReserved)

/-- No statement in the node's bodies assigns to the literal of a reserved word. -/
def Node.isWritable : Node → Bool
  | .block b | .whileLoop _ _ b | .repeatLoop _ b | .forLoop _ _ _ b | .function _ _ b => b.isWritable
  | .cond _ _ t none => t.isWritable
  | .cond _ _ t (some e) => t.isWritable && e.isWritable
  | _ => true

def Program.isWritable (p : Program) : Bool := p.body.all (Node.spares Node.isReserved) && p.all Node.isWritable

theorem Node.assignsWord_of_isPlaced {n : Node} (h : n.isPlaced) : n.assignsWord = n.assignsTo Node.isReserved := by
  cases n with
  | assign s op t v =>
    -- what is read as an operand is neither an assignment nor a jump out of a loop
    have hlevel : t.level ≠ 0 := of_decide_eq_true h
    cases t with
    | assign => exact absurd rfl hlevel
    | jump s k x? =>
      cases k with
      | ret => rfl
      | brk | nxt => exact absurd rfl hlevel
    | _ => rfl
  | _ => rfl

theorem all_assignsWord {ns : List Node} (h : allNodes Node.isPlaced ns) :
    ns.all (!·.assignsWord) = ns.all (Node.spares Node.isReserved) := by
  induction ns with
  | nil => rfl
  | cons n ns ih =>
    simp only [allNodes, Bool.and_eq_true] at h
    rw [List.all_cons, List.all_cons, n.assignsWord_of_isPlaced (Node.self_of_all h.1), ih h.2, Node.spares]

theorem Node.sparesWords_of_isPlaced {n : Node} (h : n.all Node.isPlaced) : n.sparesWords = n.isWritable := by
  have hblock : ∀ b : Block, b.all Node.isPlaced → b.sparesWords = b.isWritable
    | ⟨_, _⟩, hb => all_assignsWord hb
  cases n with
  | cond s c t e? =>
    cases e? with
    | none =>
      simp only [Node.all, Bool.and_eq_true] at h
      exact hblock t h.2
    | some e =>
      simp only [Node.all, Bool.and_eq_true] at h
      rw [sparesWords, isWritable, hblock t h.1.2, hblock e h.2]
  | block b | whileLoop s c b | repeatLoop s b | forLoop s v x b | function s ps b =>
    simp only [Node.all, Bool.and_eq_true] at h
    exact hblock b h.2
  | _ => rfl

theorem Program.sparesWords_of_isPlaced {p : Program} (h : p.all Node.isPlaced) : p.sparesWords = p.isWritable := by
  have hall : p.all Node.sparesWords = p.all Node.isWritable := by
    rw [Bool.eq_iff_iff]
    constructor
    · exact allNodes_imp (fun n hn hspares => (n.sparesWords_of_isPlaced hn).symm.trans hspares) p.body h
    · exact allNodes_imp (fun n hn hwritable => (n.sparesWords_of_isPlaced hn).trans hwritable) p.body h
  rw [sparesWords, isWritable, all_assignsWord h, hall]

/-- Quiet text of a program without strings passes the screen if no statement assigns to the literal of a reserved
word. -/
theorem Program.find_eq_none_iff {p : Program} (h : p.all Node.isSpelled) (hp : p.all Node.isPlaced)
    {text : List Char} (hquiet : Quiet text p.quotes) (htext : lexemes text = Print.rows (spellNodes p.body)) :
    Screen.find text = none ↔ p.isWritable := by
  have hquotes : p.quotes.all Option.isNone := quotesRows_isNone p.body h
  rw [find_eq_none_iff_of_isCut (allNodes_isCut h) hquiet htext, sparesWords_of_isPlaced hp,
    Text.anySlip_of_isNone hquotes]
  refine ⟨fun hscreen => hscreen.2.1, fun hwritable => ⟨fun s hs => ?_, hwritable, rfl⟩⟩
  cases List.all_eq_true.1 hquotes _ hs

/-- A script without literals is printed as a text that is read back as the same script, exactly if
nothing in it has lost parentheses that it needs and the text passes the screen. Where no operator holds
a mark, only a statement that assigns to the literal of a reserved word is stopped by the screen. -/
theorem parse_print_iff [Text.CharNames] {source file : String} {p : Program} (h : Program.parse source file = .ok p)
    (hliterals : ∀ l ∈ lexemes source.toList, l.isLiteral = false) {indent : String}
    (hindent : ∀ c ∈ indent.toList, c = ' ' ∨ c = '\t') (name : String) :
    ∃ text, p.print indent = .ok text ∧
      ((∃ q, Program.parse text name = .ok q ∧ bareNodes q.body = bareNodes p.body) ↔
        p.all Node.isPlaced ∧ Screen.find text.toList = none) ∧
      (p.all Node.isQuiet → p.all Node.isPlaced → (Screen.find text.toList = none ↔ p.isWritable)) := by
  have hspelled := Program.isSpelled_of_parse h hliterals
  obtain ⟨text, hprint, hlexemes⟩ := Program.lexemes_print hindent hspelled
  refine ⟨text, hprint, ?_, fun hq hplaced => ?_⟩
  · rw [Program.parse_iff_derives, hlexemes, derives_rows_iff hspelled]
    exact And.comm
  · obtain ⟨text', hprint', hquiet⟩ := Program.print_quiet hindent hspelled hq
    obtain rfl : text' = text := Except.ok.inj (hprint'.symm.trans hprint)
    exact Program.find_eq_none_iff hspelled hplaced hquiet hlexemes

/-- Control constructs and assignments come back as operands and as parts of targets. -/
theorem parse_print_operands :
    let source := "(function(n = (a <- b)) if ((!c)^-d) next else if (e) break)(k)[[x]] <<- repeat TRUE"
    ∃ p text q, Program.parse source "a" = .ok p ∧ p.print "\t " = .ok text ∧ Program.parse text "b" = .ok q ∧
      bareNodes q.body = bareNodes p.body := by
  intro source
  have hchecks : (Program.parse source "a").toOption.any
      fun p => p.all Node.isQuiet && p.all Node.isPlaced && p.isWritable := by decide +kernel
  cases hparse : Program.parse source "a" with
  | error e => simp [hparse, Except.toOption] at hchecks
  | ok p =>
    simp only [hparse, Except.toOption, Option.any_some, Bool.and_eq_true] at hchecks
    obtain ⟨⟨hquiet, hplaced⟩, hwritable⟩ := hchecks
    have hindent : ∀ c ∈ "\t ".toList, c = ' ' ∨ c = '\t' := by simp
    obtain ⟨text, hprint, hread, hscreen⟩ := parse_print_iff hparse (by decide +kernel) hindent "b"
    obtain ⟨q, hq, hbody⟩ := hread.2 ⟨hplaced, (hscreen hquiet hplaced).2 hwritable⟩
    exact ⟨p, text, q, rfl, hprint, hq, hbody⟩

/-- The target of an assignment is printed without parentheses, so the assignment is read as part of
the branch. -/
theorem parse_print_assigned_condition :
    let text := "if (a) \x7b\n  b\n\x7d <- c\n"
    ∃ p q, Program.parse "(if (a) b) <- c" "a" = .ok p ∧ p.print "  " = .ok text ∧
      Program.parse text "a" = .ok q ∧ bareNodes q.body ≠ bareNodes p.body := by
  intro text
  have hfirst : (Program.parse "(if (a) b) <- c" "a").toOption.any
      fun p => (p.print "  ").toOption == some text && !allNodes Node.isPlaced (bareNodes p.body) := by decide +kernel
  have hsecond : (Program.parse text "a").toOption.any
      fun q => allNodes Node.isPlaced (bareNodes q.body) := by decide +kernel
  cases hp : Program.parse "(if (a) b) <- c" "a" with
  | error e => simp [hp, Except.toOption] at hfirst
  | ok p =>
    cases hq : Program.parse text "a" with
    | error e => simp [hq, Except.toOption] at hsecond
    | ok q =>
      simp only [hp, hq, Except.toOption, Option.any_some, Bool.and_eq_true, Bool.not_eq_true', beq_iff_eq]
        at hfirst hsecond
      refine ⟨p, q, rfl, ?_, rfl, fun heq => ?_⟩
      · cases hprint : p.print "  " with
        | error e => simp [hprint] at hfirst
        | ok t => simpa [hprint] using hfirst.1
      · rw [heq, hfirst.2] at hsecond
        cases hsecond

end Deadwood
