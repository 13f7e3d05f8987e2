import Deadwood.Proofs.Numeral
import Deadwood.Proofs.Recut
import Deadwood.Proofs.RoundTrip

/-! Printing an expression and reading it back. The parentheses that the printer leaves out are those that the
layers of the grammar do not need: what is read is the expression, with the sign of a negative literal as an
operator of its own. It fails only at an identifier that could be a number too. -/
namespace Deadwood
open Lexeme (opensReserved slips slips_newline_cons numberLength? isFreeName)

/-- Whole numbers of either sign that can be written and read. -/
def Number.isNumeral (v : Number) (isInteger : Bool) : Bool :=
  match v with
  | .int n => (Nat.toDigits 10 n.natAbs).length ≤ digitLimit && (!isInteger || n.natAbs ≤ integerMax)
  | .real _ => false

/-- The nodes of expressions. An operator in percent signs holds no mark that means something to the screen, and
what is called is not `return`. -/
def Node.isExpression : Node → Bool
  | .number _ v i => v.isNumeral i
  | .boolean .. | .null .. => true
  | .identifier id => isFreeName id.name
  | .unary _ op _ => op.precedence?.isSome
  | .binary _ op _ _ => op.isSpelled && op.isQuiet
  | .call _ (.identifier id) args => id.name != "return" && args.all (·.name.isNone)
  | .call _ _ args => args.all (·.name.isNone)
  | .index _ _ xs _ => !xs.isEmpty
  | .member _ _ name => isFreeName name
  | _ => false

/-- An identifier that is not a number as well. A point and digits can be both if the first digit is not ASCII. -/
def Node.namesNoNumber : Node → Bool
  | .identifier id => numberLength? id.name.toList != some id.name.toList.length
  | _ => true

mutual

/-- An expression with every negative literal as a sign and the literal without it. -/
def Node.signed : Node → Node
  | .number s v i => if v.isNegative then .unary s .neg (.number s v.neg i) else .number s v i
  | .unary s op x => .unary s op x.signed
  | .binary s op l r => .binary s op l.signed r.signed
  | .call s f args => .call s f.signed (signedArguments args)
  | .index s t xs d => .index s t.signed (signedNodes xs) d
  | .member s t name => .member s t.signed name
  | n => n

def signedNodes : List Node → List Node
  | [] => []
  | n :: ns => n.signed :: signedNodes ns

def signedArguments : List Argument → List Argument
  | [] => []
  | ⟨s, name, v⟩ :: as => ⟨s, name, v.signed⟩ :: signedArguments as

end

/-! Signs of literals. -/

/-- A literal that can be written has a sign or none, and behind the sign it is spelled. -/
theorem Number.isNumeral_cases {v : Number} {isInteger : Bool} (h : v.isNumeral isInteger) :
    v.isNegative = false ∧ v.isSpelled isInteger ∨
      v.isNegative = true ∧ v.neg.isSpelled isInteger ∧
        Print.number v isInteger = .ok ("-" ++ Print.numeral v.neg isInteger) := by
  cases v with
  | real => cases h
  | int n =>
    simp only [isNumeral, Bool.and_eq_true, Bool.or_eq_true, Bool.not_eq_true', decide_eq_true_eq] at h
    obtain ⟨hdigits, hmax⟩ := h
    have hspelled : (Number.int n.natAbs).isSpelled isInteger :=
      isSpelled_whole hdigits fun hinteger => hmax.resolve_left (by simp [hinteger])
    cases n with
    | ofNat n => exact .inl ⟨by simp [isNegative], hspelled⟩
    | negSucc n =>
      refine .inr ⟨by simp [isNegative, Int.negSucc_lt_zero], hspelled, ?_⟩
      cases isInteger with
      | true => exact congrArg Except.ok String.append_assoc
      | false => rfl

theorem Node.precedence_signed (n : Node) : n.signed.precedence = n.precedence := by
  cases n with
  | number s v i =>
    cases h : v.isNegative <;> simp [Node.signed, Node.precedence, h, UnaryOp.precedence?]
  | _ => rfl

theorem Print.wrap_signed (n : Node) (strength : Nat) (strict : Bool) (text : String) :
    wrap n.signed strength strict text = wrap n strength strict text := by
  rw [wrap, wrap, n.precedence_signed]

mutual

/-- An expression is printed on one line, and signs are printed as part of the literals. -/
theorem Print.node_signed (indent : String) (level : Int) : (e : Node) → e.all Node.isExpression →
    node indent level e = node defaultIndent 0 e.signed
  | .number s v i, h => by
    rw [Node.signed]
    obtain ⟨hsign, -⟩ | ⟨hsign, hspelled, hprint⟩ := Number.isNumeral_cases h
    · rw [hsign]
      rfl
    · obtain ⟨hpositive, hnumeral, -⟩ := Number.isSpelled_iff.1 hspelled
      rw [hsign, if_pos rfl, node, hprint, node, node, hnumeral]
      simp [wrap, Node.precedence, hpositive, UnaryOp.precedence, UnaryOp.precedence?, UnaryOp.text, atomic, bind,
        Except.bind, pure, Except.pure]
  | .boolean .., _ | .null _, _ | .identifier _, _ => rfl
  | .unary s op x, h => by
    simp only [Node.all, Bool.and_eq_true] at h
    simp only [Node.signed, node, node_signed indent level x h.2, wrap_signed]
  | .binary s op l r, h => by
    simp only [Node.all, Bool.and_eq_true] at h
    simp only [Node.signed, node, node_signed indent level l h.1.2, node_signed indent level r h.2, wrap_signed]
  | .call s f args, h => by
    simp only [Node.all, Bool.and_eq_true] at h
    simp only [Node.signed, node, node_signed indent level f h.1.2, arguments_signed indent level args h.2, wrap_signed]
  | .index s t xs d, h => by
    simp only [Node.all, Bool.and_eq_true] at h
    simp only [Node.signed, node, node_signed indent level t h.1.2, nodes_signed indent level xs h.2, wrap_signed]
  | .member s t name, h => by
    simp only [Node.all, Bool.and_eq_true] at h
    simp only [Node.signed, node, node_signed indent level t h.2, wrap_signed]
  | .string .., h | .block .., h | .assign .., h | .cond .., h | .whileLoop .., h | .repeatLoop .., h
  | .forLoop .., h | .function .., h | .jump .., h => by cases Node.self_of_all h

theorem Print.nodes_signed (indent : String) (level : Int) : (ns : List Node) → allNodes Node.isExpression ns →
    nodes indent level ns = nodes defaultIndent 0 (signedNodes ns)
  | [], _ => rfl
  | n :: ns, h => by
    simp only [allNodes, Bool.and_eq_true] at h
    simp only [signedNodes, nodes, node_signed indent level n h.1, nodes_signed indent level ns h.2]

theorem Print.arguments_signed (indent : String) (level : Int) : (as : List Argument) →
    allArguments Node.isExpression as → arguments indent level as = arguments defaultIndent 0 (signedArguments as)
  | [], _ => rfl
  | ⟨_, none, v⟩ :: as, h | ⟨_, some _, v⟩ :: as, h => by
    simp only [allArguments, Bool.and_eq_true] at h
    simp only [signedArguments, arguments, node_signed indent level v h.1, arguments_signed indent level as h.2]

end

/-! Operands. -/

/-- An operand whose printed text is read back wherever it may stand. -/
structure Node.Operand (n : Node) : Prop where
  level : n.level ≠ 0
  spelled : n.all Node.isSpelled
  placed : n.all Node.isPlaced
  quiet : n.all Node.isQuiet
  spares : n.all Node.sparesWords

theorem Node.of_level {n : Node} (h : n.level ≠ 0) :
    n.isEquals = false ∧ n.leavesLoop = false ∧ n.assignsWord = false := by
  cases n with
  | assign => exact absurd rfl h
  | jump s k x? =>
    cases k with
    | ret => exact ⟨rfl, rfl, rfl⟩
    | brk | nxt => exact absurd rfl h
  | _ => exact ⟨rfl, rfl, rfl⟩

namespace Node.Operand

theorem isEquals (h : Operand n) : n.isEquals = false := (of_level h.level).1

theorem leavesLoop (h : Operand n) : n.leavesLoop = false := (of_level h.level).2.1

theorem number (h : Number.isSpelled v i) : Operand (.number s v i) := ⟨nofun, h, rfl, rfl, rfl⟩

theorem unary {op : UnaryOp} (hop : op.precedence?.isSome) (h : Operand x) : Operand (.unary s op x) where
  level := level_unary_ne s op x
  spelled := by simp [Node.all, Node.isSpelled, hop, h.isEquals, h.spelled]
  placed := by simp [Node.all, Node.isPlaced, h.leavesLoop, h.placed]
  quiet := by simp [Node.all, Node.isQuiet, h.quiet]
  spares := by simp [Node.all, Node.sparesWords, h.spares]

theorem binary {op : BinaryOp} (hop : op.isSpelled && op.isQuiet) (hl : Operand l) (hr : Operand r) :
    Operand (.binary s op l r) := by
  simp only [Bool.and_eq_true] at hop
  refine ⟨level_binary_ne s op l r, ?_, ?_, ?_, ?_⟩
  · simp [Node.all, Node.isSpelled, hop.1, hl.isEquals, hr.isEquals, hl.spelled, hr.spelled]
  · simp [Node.all, Node.isPlaced, hl.leavesLoop, hr.leavesLoop, hl.placed, hr.placed]
  · simp [Node.all, Node.isQuiet, hop.2, hl.quiet, hr.quiet]
  · simp [Node.all, Node.sparesWords, hl.spares, hr.spares]

theorem call (hf : Operand f) (hreturn : Node.isReturn f args = false)
    (hargs : ∀ a ∈ args, a.name = none ∧ a.value.Operand) : Operand (.call s f args) := by
  have hall (p : Node → Bool) (hp : ∀ n : Node, n.Operand → n.all p) : allArguments p args :=
    allArguments_iff.2 fun a ha => hp _ (hargs a ha).2
  have hnames : args.all Argument.isSpelled := by
    refine List.all_eq_true.2 fun a ha => ?_
    simp [Argument.isSpelled, (hargs a ha).1, (hargs a ha).2.isEquals]
  refine ⟨nofun, ?_, ?_, ?_, ?_⟩
  · simp only [Node.all, Node.isSpelled, hf.isEquals, hnames, hreturn, hf.spelled, hall _ fun _ h => h.spelled]
    rfl
  · simp [Node.all, Node.isPlaced, hf.leavesLoop, hf.placed, hall _ fun _ h => h.placed]
  · simp [Node.all, Node.isQuiet, hf.quiet, hall _ fun _ h => h.quiet]
  · simp [Node.all, Node.sparesWords, hf.spares, hall _ fun _ h => h.spares]

theorem index (ht : Operand t) (hne : xs.isEmpty = false) (hxs : ∀ n ∈ xs, Operand n) :
    Operand (.index s t xs d) := by
  have hall (p : Node → Bool) (hp : ∀ n : Node, n.Operand → n.all p) : allNodes p xs :=
    allNodes_iff.2 fun n hn => hp _ (hxs n hn)
  have hequals : xs.all (!·.isEquals) := List.all_eq_true.2 fun n hn => by simp [(hxs n hn).isEquals]
  refine ⟨nofun, ?_, ?_, ?_, ?_⟩
  · simp only [Node.all, Node.isSpelled, ht.isEquals, hne, hequals, ht.spelled, hall _ fun _ h => h.spelled]
    rfl
  · simp [Node.all, Node.isPlaced, ht.leavesLoop, ht.placed, hall _ fun _ h => h.placed]
  · simp [Node.all, Node.isQuiet, ht.quiet, hall _ fun _ h => h.quiet]
  · simp [Node.all, Node.sparesWords, ht.spares, hall _ fun _ h => h.spares]

theorem member (ht : Operand t) (hname : Lexeme.isMemberText name) : Operand (.member s t name) where
  level := nofun
  spelled := by simp [Node.all, Node.isSpelled, ht.isEquals, hname, ht.spelled]
  placed := by simp [Node.all, Node.isPlaced, ht.leavesLoop, ht.placed]
  quiet := by simp [Node.all, Node.isQuiet, ht.quiet]
  spares := by simp [Node.all, Node.sparesWords, ht.spares]

end Node.Operand

theorem isEmpty_signedNodes (ns : List Node) : (signedNodes ns).isEmpty = ns.isEmpty := by cases ns <;> rfl

/-- What is called in an expression is not `return`, and its arguments have no names. -/
theorem Node.isReturn_signed {f : Node} {args : List Argument}
    (h : (Node.call s f args).isExpression) :
    isReturn f.signed (signedArguments args) = false ∧ args.all (·.name.isNone) := by
  cases f with
  | identifier id =>
    simp only [isExpression, Bool.and_eq_true, bne_iff_ne] at h
    have hcall := Grammar.called_of_ne h.1 id.span (signedArguments args) .blank
    exact ⟨congrArg Node.isJump hcall, h.2⟩
  | number s v i =>
    refine ⟨?_, h⟩
    rw [Node.signed]
    split <;> rfl
  | _ => exact ⟨rfl, h⟩

mutual

theorem Node.operand_signed : (e : Node) → e.all Node.isExpression → e.all Node.namesNoNumber → e.signed.Operand
  | .number s v i, h, _ => by
    rw [Node.signed]
    obtain ⟨hsign, hspelled⟩ | ⟨hsign, hspelled, -⟩ := Number.isNumeral_cases h
    · rw [hsign]
      exact .number hspelled
    · rw [hsign]
      exact .unary rfl (.number hspelled)
  | .boolean .., _, _ | .null _, _, _ => ⟨nofun, rfl, rfl, rfl, rfl⟩
  | .identifier _, h, hn => ⟨nofun, (Lexeme.isNameText_iff h).2 (bne_iff_ne.1 hn), rfl, rfl, rfl⟩
  | .unary s op x, h, hn => by
    simp only [Node.all, Bool.and_eq_true] at h hn
    exact .unary h.1 (x.operand_signed h.2 hn.2)
  | .binary s op l r, h, hn => by
    simp only [Node.all, Bool.and_eq_true] at h hn
    exact .binary h.1.1 (l.operand_signed h.1.2 hn.1.2) (r.operand_signed h.2 hn.2)
  | .call s f args, h, hn => by
    simp only [Node.all, Bool.and_eq_true] at h hn
    obtain ⟨hreturn, hnames⟩ := Node.isReturn_signed h.1.1
    exact .call (f.operand_signed h.1.2 hn.1.2) hreturn (operands_signedArguments args hnames h.2 hn.2)
  | .index s t xs d, h, hn => by
    simp only [Node.all, Node.isExpression, Bool.and_eq_true, Bool.not_eq_true'] at h hn
    exact .index (t.operand_signed h.1.2 hn.1.2) ((isEmpty_signedNodes xs).trans h.1.1)
      (operands_signedNodes xs h.2 hn.2)
  | .member s t name, h, hn => by
    simp only [Node.all, Bool.and_eq_true] at h hn
    exact .member (t.operand_signed h.2 hn.2) (Lexeme.isMemberText_of_isFreeName h.1)
  | .string .., h, _ | .block .., h, _ | .assign .., h, _ | .cond .., h, _ | .whileLoop .., h, _
  | .repeatLoop .., h, _ | .forLoop .., h, _ | .function .., h, _ | .jump .., h, _ => by cases Node.self_of_all h

theorem operands_signedNodes : (ns : List Node) → allNodes Node.isExpression ns → allNodes Node.namesNoNumber ns →
    ∀ n ∈ signedNodes ns, n.Operand
  | [], _, _ => nofun
  | n :: ns, h, hn => by
    simp only [allNodes, Bool.and_eq_true] at h hn
    exact List.forall_mem_cons.2 ⟨n.operand_signed h.1 hn.1, operands_signedNodes ns h.2 hn.2⟩

theorem operands_signedArguments : (as : List Argument) → as.all (·.name.isNone) →
    allArguments Node.isExpression as → allArguments Node.namesNoNumber as →
    ∀ a ∈ signedArguments as, a.name = none ∧ a.value.Operand
  | [], _, _, _ => nofun
  | ⟨_, name, v⟩ :: as, hnames, h, hn => by
    simp only [allArguments, List.all_cons, Bool.and_eq_true] at h hnames hn
    exact List.forall_mem_cons.2
      ⟨⟨Option.isNone_iff_eq_none.1 hnames.1, v.operand_signed h.1 hn.1⟩,
        operands_signedArguments as hnames.2 h.2 hn.2⟩

end

mutual

/-- Nothing that is cut from a text has a number for an identifier, with or without signs of its own. -/
theorem Node.namesNoNumber_of_signed : (e : Node) → e.all Node.isExpression → e.signed.all Node.isCut →
    e.all Node.namesNoNumber
  | .number .., _, _ | .boolean .., _, _ | .null _, _, _ => rfl
  | .identifier _, h, hcut => bne_iff_ne.2 ((Lexeme.isNameText_iff h).1 hcut)
  | .unary s op x, h, hcut => by
    simp only [Node.all, Node.signed, Bool.and_eq_true] at h hcut ⊢
    exact ⟨rfl, x.namesNoNumber_of_signed h.2 hcut.2⟩
  | .binary s op l r, h, hcut => by
    simp only [Node.all, Node.signed, Bool.and_eq_true] at h hcut ⊢
    exact ⟨⟨rfl, l.namesNoNumber_of_signed h.1.2 hcut.1.2⟩, r.namesNoNumber_of_signed h.2 hcut.2⟩
  | .call s f args, h, hcut => by
    simp only [Node.all, Node.signed, Bool.and_eq_true] at h hcut ⊢
    exact ⟨⟨rfl, f.namesNoNumber_of_signed h.1.2 hcut.1.2⟩, namesNoNumber_of_signedArguments args h.2 hcut.2⟩
  | .index s t xs d, h, hcut => by
    simp only [Node.all, Node.signed, Bool.and_eq_true] at h hcut ⊢
    exact ⟨⟨rfl, t.namesNoNumber_of_signed h.1.2 hcut.1.2⟩, namesNoNumber_of_signedNodes xs h.2 hcut.2⟩
  | .member s t name, h, hcut => by
    simp only [Node.all, Node.signed, Bool.and_eq_true] at h hcut ⊢
    exact ⟨rfl, t.namesNoNumber_of_signed h.2 hcut.2⟩
  | .string .., h, _ | .block .., h, _ | .assign .., h, _ | .cond .., h, _ | .whileLoop .., h, _
  | .repeatLoop .., h, _ | .forLoop .., h, _ | .function .., h, _ | .jump .., h, _ => by cases Node.self_of_all h

theorem namesNoNumber_of_signedNodes : (ns : List Node) → allNodes Node.isExpression ns →
    allNodes Node.isCut (signedNodes ns) → allNodes Node.namesNoNumber ns
  | [], _, _ => rfl
  | n :: ns, h, hcut => by
    simp only [allNodes, signedNodes, Bool.and_eq_true] at h hcut ⊢
    exact ⟨n.namesNoNumber_of_signed h.1 hcut.1, namesNoNumber_of_signedNodes ns h.2 hcut.2⟩

theorem namesNoNumber_of_signedArguments : (as : List Argument) → allArguments Node.isExpression as →
    allArguments Node.isCut (signedArguments as) → allArguments Node.namesNoNumber as
  | [], _, _ => rfl
  | ⟨_, _, v⟩ :: as, h, hcut => by
    simp only [allArguments, signedArguments, Bool.and_eq_true] at h hcut ⊢
    exact ⟨v.namesNoNumber_of_signed h.1 hcut.1, namesNoNumber_of_signedArguments as h.2 hcut.2⟩

end

/-- An operand that is printed on its own is read as the only statement of a script. -/
theorem Node.Operand.parse_print [Text.CharNames] {n : Node} (h : n.Operand) (file : String) :
    ∃ text q, Print.node Print.defaultIndent 0 n = .ok text ∧ Program.parse text file = .ok q ∧
      bareNodes q.body = [n.bare] := by
  have hindent : ∀ c ∈ Print.defaultIndent.toList, c = ' ' ∨ c = '\t' := by simp [Print.defaultIndent]
  have hcut := Node.all_isCut h.spelled
  obtain ⟨text, hprint, hspells⟩ := Print.node_spells hindent 0 n hcut
  obtain ⟨text', hprint', hquiet⟩ := Print.node_quiet hindent 0 n hcut h.quiet
  obtain rfl : text' = text := Except.ok.inj (hprint'.symm.trans hprint)
  have hlexemes : lexemes text'.toList = n.spell false := by simpa using hspells.cut [] nofun
  have hscreen : Screen.find text'.toList = none := by
    have hslips := n.slips_spell hcut false []
    have hquotes := n.quotes_isNone h.spelled
    rw [hquiet.find_eq_none_iff, hlexemes, slips_newline_cons, n.opensReserved_statement hcut,
      (Node.of_level h.level).2.2, Text.anySlip_of_isNone hquotes]
    refine ⟨fun s hs => ?_, by simpa [h.spares, slips] using hslips, rfl⟩
    cases List.all_eq_true.1 hquotes _ hs
  have hderives : Grammar.Derives .statements (lexemes text'.toList) [n.bare] [] := by
    have hexpression := (n.derived_spell (Node.all_isLegible h.spelled) h.placed false []).expression true (by simp)
    rw [List.append_nil, ← hlexemes, n.reread_of_isSpelled h.spelled] at hexpression
    exact .last hexpression
  obtain ⟨q, hq, hbody⟩ := Program.parse_iff_derives.2 ⟨hscreen, hderives⟩
  exact ⟨text', q, hprint, hq, hbody⟩

/-- An expression is printed as a text that is read as one statement, which is the expression up to places and
signs of literals, just if no identifier in it is a number as well. -/
theorem parse_print_expression_iff [Text.CharNames] {e : Node} (h : e.all Node.isExpression) (indent : String)
    (level : Int) (file : String) :
    (∃ text q, (Tree.node e).print indent level = .ok text ∧ Program.parse text file = .ok q ∧
      bareNodes q.body = [e.signed.bare]) ↔ e.all Node.namesNoNumber := by
  constructor
  · rintro ⟨text, q, -, hparse, hbody⟩
    have hcut : allNodes Node.isCut (bareNodes q.body) :=
      (allNodes_bare Node.isCut_bare q.body).trans (Program.isCut_of_parse hparse)
    rw [hbody, allNodes, Node.all_bare Node.isCut_bare, Bool.and_eq_true] at hcut
    exact e.namesNoNumber_of_signed h hcut.1
  · intro hn
    obtain ⟨text, q, hprint, hparse, hbody⟩ := (e.operand_signed h hn).parse_print file
    exact ⟨text, q, (Print.node_signed indent level e h).trans hprint, hparse, hbody⟩

/-- Signs stand behind operators and behind signs, brackets close one another, and names start with points. -/
theorem parse_print_expression_signs :
    let text := "(a < -5) < (!x)[[y$.\u0663[--7L], (-2L) ^ (-3) %o% 1:-4, f(return, .\u0663_[[v]])]]"
    let name (s : String) : Node := .identifier ⟨.blank, s⟩
    let whole (n : Int) (isInteger : Bool) : Node := .number .blank (.int n) isInteger
    let e : Node :=
      .binary .blank (.rel .lt) (.binary .blank (.rel .lt) (name "a") (whole (-5) false))
        (.index .blank (.unary .blank .not (name "x"))
          [.index .blank (.member .blank (name "y") ".\u0663") [.unary .blank .neg (whole (-7) true)] false,
            .binary .blank (.special "%o%") (.binary .blank (.arith .pow) (whole (-2) true) (whole (-3) false))
              (.binary .blank .range (whole 1 false) (whole (-4) false)),
            .call .blank (name "f")
              [⟨.blank, none, name "return"⟩, ⟨.blank, none, .index .blank (name ".\u0663_") [name "v"] true⟩]]
          true)
    e.all Node.isExpression ∧ ∃ q, (Tree.node e).print "  " 0 = .ok text ∧ Program.parse text "a" = .ok q ∧
      bareNodes q.body = [e.signed.bare] := by
  intro text name whole e
  have he : e.all Node.isExpression := by decide +kernel
  have htext : (Tree.node e).print "  " 0 = .ok text := by decide +kernel
  obtain ⟨text', q, hprint, hparse, hbody⟩ := (parse_print_expression_iff he "  " 0 "a").2 (by decide +kernel)
  obtain rfl : text' = text := Except.ok.inj (hprint.symm.trans htext)
  exact ⟨he, q, hprint, hparse, hbody⟩

/-- An identifier of a point and a digit that is not ASCII is read as a number. -/
theorem parse_print_point_digit :
    let e : Node := .identifier ⟨.blank, ".\u0663"⟩
    e.all Node.isExpression ∧ (Tree.node e).print "  " 0 = .ok ".\u0663" ∧
      ∃ q, Program.parse ".\u0663" "a" = .ok q ∧ q.body.map Node.kind = ["NumberLiteral"] ∧ q.print = .ok "0.3\n" := by
  intro e
  have hread : (Program.parse ".\u0663" "a").toOption.map (fun q => (q.body.map Node.kind, q.print)) =
      some (["NumberLiteral"], .ok "0.3\n") := by decide +kernel
  cases hq : Program.parse ".\u0663" "a" with
  | error x => simp [hq, Except.toOption] at hread
  | ok q =>
    simp only [hq, Except.toOption, Option.map_some, Option.some.injEq, Prod.mk.injEq] at hread
    exact ⟨by decide +kernel, by decide +kernel, q, rfl, hread⟩

end Deadwood
