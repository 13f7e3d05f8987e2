import Deadwood.Proofs.Completeness
import Deadwood.Proofs.Reread

/-! Trees whose printed text is read back. -/
namespace Deadwood

namespace Grammar

/-! Layers. -/

theorem Derives.loosen_succ [Text.CharNames] (h : Derives (.layer (k + 1)) ts x rest) (hpos : 0 < k) (hk : k < 12) :
    Derives (.layer k) ts x rest := by
  have hlayer : ∀ k < 12, 0 < k → groupsLeft k ∨ passes k := by decide
  obtain hgroups | hpasses := hlayer k hk hpos
  · exact .grouped hgroups h .stop
  · exact .tighter hpasses h

/-- What is an operand of a layer is one of every looser layer. -/
theorem Derives.loosen [Text.CharNames] {j k : Nat} (h : Derives (.layer j) ts x rest) (hpos : 0 < k) (hkj : k ≤ j)
    (hj : j ≤ 12) : Derives (.layer k) ts x rest := by
  obtain ⟨d, rfl⟩ := Nat.exists_eq_add_of_le hkj
  induction d with
  | zero => exact h
  | succ d ih => exact ih (h.loosen_succ (k := k + d) (by omega) (by omega)) (by omega) (by omega)

/-- What follows an operand can be continued. -/
def Phrase.Extends [Text.CharNames] : (p : Phrase) → List Lexeme → p.Value → List Lexeme → Prop
  | .tail k l, ts, x, mid => ∀ y rest, Derives (.tail k x) mid y rest → Derives (.tail k l) ts y rest
  | _, _, _, _ => True

theorem Derives.extends [Text.CharNames] (h : Derives p ts v rest) : p.Extends ts v rest := by
  induction h with
  | stop => exact fun _ _ hx => hx
  | operator ho hr _ _ ih => exact fun y rest hx => .operator ho hr (ih y rest hx)
  | call hargs _ _ ih => exact fun y rest hx => .call hargs (ih y rest hx)
  | brackets hxs _ _ ih => exact fun y rest hx => .brackets hxs (ih y rest hx)
  | doubleBrackets hxs _ _ ih => exact fun y rest hx => .doubleBrackets hxs (ih y rest hx)
  | member hm _ ih => exact fun y rest hx => .member hm (ih y rest hx)
  | _ => trivial

/-- A layer that is grouped from the left can be continued. -/
theorem Derives.extend [Text.CharNames] {l x : Node} (hk : groupsLeft k) (h : Derives (.layer k) ts l mid)
    (hx : Derives (.tail k l) mid x rest) : Derives (.layer k) ts x rest := by
  cases h with
  | grouped _ hl htail => exact .grouped hk hl (htail.extends _ _ hx)
  | tighter hpasses =>
    simp only [groupsLeft, passes, List.mem_cons, List.not_mem_nil, or_false, decide_eq_true_eq] at hk hpasses
    omega
  | _ => cases hk

/-! Chains. -/

theorem Derives.closes [Text.CharNames] : Derives (.alternatives k) ts as rest → Chain.closes k as
  | .noElse => by cases k <;> rfl
  | .orElse _ has => has.closes

theorem owners_zero (before : List Alternative) (b : Alternative) (as : List Alternative) :
    Chain.owners 0 (b :: before) as = [] := by
  induction as generalizing before with
  | nil => rfl
  | cons a as ih => simpa [Chain.owners, Chain.closes] using ih (before ++ [a])

/-- An `if` whose body has no `if` left open takes the first `else`. -/
theorem owner?_first {a : Alternative} (h : Chain.closes a.run.conds as) :
    Chain.owner? 0 (a :: as) = some ([], a, as) := by
  have howners : Chain.owners 0 [] (a :: as) = [([], a, as)] := by
    simp [Chain.owners, h, owners_zero, Chain.closes]
  simp [Chain.owner?, howners, Chain.prefer]
  grind

theorem built_after {o : Opening} {r : Run} {as : List Alternative}
    (h : o.isCond → Chain.owner? r.conds as = none) :
    built (after o r) as = o.bare.close .blank (built r as) := by
  have hdepth : Chain.depth (after o r) as = Chain.depth r as + 1 := by
    simp [Chain.depth, after, Run.opened]
    omega
  rw [built, Chain.build, hdepth, after, Chain.nest_unowned h, Opening.close_bare]
  rfl

theorem built_after_cond {c x : Node} {a : Alternative} {as : List Alternative} (h : Chain.closes a.run.conds as) :
    built (after (.cond c) (ending x)) (a :: as) =
      .cond .blank c.bare x.bare.asBlock (some (built a.run as).asBlock) := by
  have hdepth : Chain.depth (after (.cond c) (ending x)) (a :: as) = Chain.depth a.run as + 1 := by
    simp [Chain.depth, after, Run.opened, ending]
    omega
  have howner : Chain.owner? (ending x).conds (a :: as) = some ([], a, as) := owner?_first h
  rw [built, Chain.build, hdepth, after, Chain.nest_owned howner]
  have hyes (fuel : Nat) : (Chain.nest "" fuel (ending x) []).node = x := by cases fuel <;> rfl
  simp only [Node.bare, hyes, built, Chain.build, Node.asBlock_bare]

theorem conds_after (o : Opening) (r : Run) : (after o r).conds = r.conds + o.isCond.toNat :=
  Chain.conds_opened r _ o

/-- A whole chain and its tree. -/
def Chained [Text.CharNames] (ts : List Lexeme) (v : Node) (rest : List Lexeme) : Prop :=
  ∃ r mid as, Derives .run ts r mid ∧ Derives (.alternatives r.conds) mid as rest ∧ built r as = v

namespace Chained

theorem leaf [Text.CharNames] (h : Derives (.layer 1) ts x rest) : Chained ts x.bare rest :=
  ⟨_, _, _, .leaf h, .noElse, rfl⟩

theorem leave [Text.CharNames] (hk : leaves? k = some j) : Chained (.keyword k :: rest) (.jump .blank j none) rest :=
  ⟨_, _, _, .leave hk, .noElse, rfl⟩

theorem opened [Text.CharNames] (ho : Derives .opening ts o mid) (hcond : o.isCond = false) (h : Chained mid v rest) :
    Chained ts (o.bare.close .blank v) rest := by
  obtain ⟨r, mid₂, as, hr, has, rfl⟩ := h
  refine ⟨after o r, mid₂, as, .opened ho hr, ?_, built_after (by simp [hcond])⟩
  rwa [conds_after, hcond]

theorem cond [Text.CharNames] (ho : Derives .opening ts (.cond c) mid) (hx : Derives (.layer 1) mid x rest) :
    Chained ts (.cond .blank c.bare x.bare.asBlock none) rest :=
  ⟨_, _, _, .opened ho (.leaf hx), .noElse, built_after fun _ => rfl⟩

theorem condElse [Text.CharNames] (ho : Derives .opening ts (.cond c) mid)
    (hx : Derives (.layer 1) mid x (.keyword .elseWord :: mid₂))
    (he : Chained mid₂ v rest) : Chained ts (.cond .blank c.bare x.bare.asBlock (some v.asBlock)) rest := by
  obtain ⟨r, mid₃, as, hr, has, rfl⟩ := he
  refine ⟨after (.cond c) (ending x), _, ⟨false, false, r⟩ :: as, .opened ho (.leaf hx), ?_, ?_⟩
  · show Derives (.alternatives (0 + 1)) (gap false (.keyword .elseWord :: gap false mid₂)) _ rest
    exact .orElse hr (by rwa [Nat.zero_add])
  · exact built_after_cond has.closes

end Chained

end Grammar

open Grammar Print

/-! Where a node may stand. -/

/-- `break` and `next` are printed like operands. -/
def Node.leavesLoop : Node → Bool
  | .jump _ .brk _ | .jump _ .nxt _ => true
  | _ => false

/-- The tightest layer on which the lexemes of a node can be read; 0 if they are on none. -/
def Node.level : Node → Nat
  | .binary _ op _ _ => op.precedence?.getD 12
  | .unary _ op _ => op.precedence?.getD 12
  | .assign .. | .cond .. | .whileLoop .. | .repeatLoop .. | .forLoop .. | .function .. => 0
  | .jump _ .brk _ | .jump _ .nxt _ => 0
  | .jump _ .ret _ | .call .. | .index .. | .member .. => 11
  | _ => 12

/-- The printer puts every operand that is not read there in parentheses, but for a `break` or `next`
and the target of an assignment. -/
def Node.isPlaced : Node → Bool
  | .unary _ _ x => !x.leavesLoop
  | .binary _ _ l r => !l.leavesLoop && !r.leavesLoop
  | .call _ f _ => !f.leavesLoop
  | .index _ t _ _ | .member _ t _ => !t.leavesLoop
  | .assign _ _ t _ => t.level ≠ 0
  | _ => true

theorem Node.level_le (n : Node) : n.level ≤ 12 := by
  cases n with
  | binary s op l r =>
    cases op with
    | arith a => cases a <;> simp [level, BinaryOp.precedence?]
    | _ => simp [level, BinaryOp.precedence?]
  | unary s op x => cases op <;> simp [level, UnaryOp.precedence?]
  | jump s k x? => cases k <;> simp [level]
  | _ => simp [level]

theorem Node.level_unary_ne (s : Span) (op : UnaryOp) (x : Node) : (Node.unary s op x).level ≠ 0 := by
  cases op <;> simp [level, UnaryOp.precedence?]

theorem Node.level_binary_ne (s : Span) (op : BinaryOp) (l r : Node) : (Node.binary s op l r).level ≠ 0 := by
  cases op with
  | arith a => cases a <;> simp [level, BinaryOp.precedence?]
  | _ => simp [level, BinaryOp.precedence?]

/-! Names of arguments. -/

/-- The name of the argument is no reserved word. -/
def Argument.isLegible (a : Argument) : Bool := a.isCut && (a.name.map fun s => (Keyword.ofText? s).isNone).getD true

/-- All that is printed of the node can be read. -/
def Node.isLegible : Node → Bool
  | .call _ f args => !f.isEquals && args.all Argument.isLegible && !isReturn f args
  | n => n.isCut

theorem Node.isLegible_of_isSpelled {n : Node} (h : n.isSpelled) : n.isLegible := by
  cases n with
  | call s f args =>
    simp only [isSpelled, isLegible, Bool.and_eq_true, List.all_eq_true] at h ⊢
    refine ⟨⟨h.1.1, fun a ha => ?_⟩, h.2⟩
    have hspelled := h.1.2 a ha
    have hcut := Argument.isCut_of_isSpelled hspelled
    simp only [Argument.isSpelled, Bool.and_eq_true] at hspelled
    obtain ⟨_, _ | name, v⟩ := a
    · simpa [Argument.isLegible] using hcut
    · simp [Argument.isLegible, hcut, Lexeme.ofText?_of_isNameText hspelled.2]
  | _ => exact isCut_of_isSpelled h

theorem allNodes_isLegible {ns : List Node} (h : allNodes Node.isSpelled ns) : allNodes Node.isLegible ns :=
  allNodes_imp (fun _ _ => Node.isLegible_of_isSpelled) ns h h

theorem Node.all_isLegible {n : Node} (h : n.all Node.isSpelled) : n.all Node.isLegible :=
  n.all_imp (fun _ _ => Node.isLegible_of_isSpelled) h h

/-- A name that is not reserved is read as a name, in quotes or not. -/
theorem Grammar.argumentText?_nameLexeme {name : String} (h : Keyword.ofText? name = none) :
    argumentText? (nameLexeme name) = some (rereadName name) := by
  unfold nameLexeme rereadName
  split
  · next hname =>
    rw [h]
    exact argumentText?_of_name? (Lexeme.name?_member (Lexeme.isMemberText_of_isName hname h))
  · rw [argumentText?, Text.quoted, Literal.unquoted_literal]

/-- The lexemes of a node are read as what is left of the node, wherever they may stand. -/
structure Node.Derived [Text.CharNames] (n : Node) (ts rest : List Lexeme) : Prop where
  layer : n.level ≠ 0 → Derives (.layer n.level) ts n.reread.bare rest
  chain : !n.isEquals → Chained ts n.reread.bare rest
  expression : ∀ b, (!n.isEquals || b) → Derives (.expression b) ts n.reread.bare rest

namespace Node.Derived

theorem of_layer [Text.CharNames] {n : Node} (hn : n.level = k + 1)
    (h : Derives (.layer (k + 1)) ts n.reread.bare rest) : n.Derived ts rest := by
  have hfirst : Derives (.layer 1) ts n.reread.bare rest := h.loosen (by omega) (by omega) (hn ▸ n.level_le)
  refine ⟨fun _ => hn ▸ h, fun _ => ?_, fun _ _ => .operation hfirst⟩
  have hchain := Chained.leaf hfirst
  rwa [Node.bare_bare] at hchain

theorem of_chain [Text.CharNames] {n : Node} (hn : n.level = 0) (h : Chained ts n.reread.bare rest)
    (hts : startsControl ts.head?) : n.Derived ts rest := by
  refine ⟨absurd hn, fun _ => h, fun _ _ => ?_⟩
  obtain ⟨r, mid, as, hr, has, hbuilt⟩ := h
  rw [← hbuilt]
  exact .control hts hr has

theorem loosen [Text.CharNames] {n : Node} (h : n.Derived ts rest) (hpos : 0 < k) (hk : k ≤ n.level) :
    Derives (.layer k) ts n.reread.bare rest :=
  (h.layer (by omega)).loosen hpos hk n.level_le

end Node.Derived

/-- What binds as tight as asked is read there, unless it leaves a loop. -/
theorem Node.le_level {n : Node} (hleaves : !n.leavesLoop) (hn : k ≤ n.precedence) (hpos : 0 < k) (hk : k ≤ 11) :
    k ≤ n.level := by
  cases n with
  | binary s op l r | unary s op x =>
    simp only [precedence, level] at hn ⊢
    cases h : op.precedence? with
    | none => exact Nat.le_succ_of_le hk
    | some p => simpa [h] using hn
  | jump s j x? =>
    cases j with
    | ret => exact hk
    | brk | nxt => cases hleaves
  | call | index | member => exact hk
  | assign | cond | whileLoop | repeatLoop | forLoop | function => exact absurd hn (by simp [precedence]; omega)
  | _ => exact Nat.le_succ_of_le hk

/-- An operand is read where the printer puts it, in parentheses or not. -/
theorem Node.Derived.enclosed [Text.CharNames] {n : Node} (h : ∀ tight rest, n.Derived (n.spell tight ++ rest) rest)
    (heq : !n.isEquals) (hleaves : !n.leavesLoop) {strength k : Nat} (hk : k ≤ strength) (hpos : 0 < k)
    (hle : k ≤ 11) (tight : Bool) (rest : List Lexeme) :
    Derives (.layer k) (enclosed (n.precedence < strength) (n.spell false) (n.spell tight) ++ rest) n.reread.bare
      rest := by
  unfold Print.enclosed
  split
  · have hinner := (h false (gap false (.closeParen :: rest))).expression false (by simp [heq])
    have hparen : Derives (.layer 12) (.openParen :: gap false (n.spell false ++ .closeParen :: rest))
        n.reread.bare rest :=
      .paren hinner
    simpa [gap] using hparen.loosen hpos (by omega) (by omega)
  · next hneeded =>
    simp only [decide_eq_true_eq, Nat.not_lt] at hneeded
    exact (h tight rest).loosen hpos (n.le_level hleaves (by omega) hpos hle)

/-! Sequences. -/

theorem derives_rows [Text.CharNames] {ns : List Node}
    (h : ∀ n ∈ ns, ∀ tight rest, n.Derived (n.spell tight ++ rest) rest)
    (rest : List Lexeme) : Derives .statements (rows (spellNodes ns) ++ rest) (bareNodes (rereadNodes ns)) rest := by
  induction ns with
  | nil => exact .done
  | cons n ns ih =>
    have hfirst := (h n (by simp) false (.newline :: (rows (spellNodes ns) ++ rest))).expression true (by simp)
    have hrows := Derives.next hfirst rfl (.separator rfl (ih fun n hn => h n (by simp [hn])))
    simpa [rows, spellNodes, rereadNodes, bareNodes] using hrows

theorem Block.derives_braces [Text.CharNames] {b : Block}
    (h : ∀ n ∈ b.statements, ∀ tight rest, n.Derived (n.spell tight ++ rest) rest) (rest : List Lexeme) :
    Derives (.layer 12) (braces (spellNodes b.statements) ++ rest) (.block b.reread.bare) rest := by
  obtain ⟨_, ss⟩ := b
  cases ss with
  | nil => exact .block .done
  | cons s ss =>
    have hrows := derives_rows h (.closeBrace :: rest)
    have hblock := Derives.block (.separator (l := .newline) rfl hrows)
    simpa [braces, spellNodes, Block.reread, Block.bare] using hblock

/-- Items that are read one by one. -/
def DerivesEach [Text.CharNames] (i : Item) (xs : List (Bool → List Lexeme)) (vs : List i.Value) : Prop :=
  List.Forall₂ (fun x v => ∀ tight rest, Derives (.item i) (x tight ++ rest) v rest) xs vs

theorem DerivesEach.list [Text.CharNames] (h : DerivesEach i xs vs) (hne : xs ≠ []) (tight : Bool)
    (rest : List Lexeme) : Derives (.list i) (commas tight xs ++ rest) vs rest := by
  induction h with
  | nil => exact absurd rfl hne
  | @cons x v xs vs hx hxs ih =>
    cases hxs with
    | nil => exact .single (hx tight rest)
    | @cons y _ ys =>
      have hlist := Derives.comma (hx false (gap false (.comma :: gap false (commas tight (y :: ys) ++ rest))))
        (ih (by simp))
      simpa [commas, gap] using hlist

theorem DerivesEach.parens [Text.CharNames] (h : DerivesEach i xs vs) (rest : List Lexeme) :
    Derives (.enclosed i) (commas false xs ++ .closeParen :: rest) vs rest := by
  by_cases hne : xs = []
  · subst hne
    cases h
    exact .empty (g := false) (h := false)
  · have hlist := h.list hne false (gap false (.closeParen :: rest))
    exact .filled (g := false) hlist

theorem derivesEach_indices [Text.CharNames] {ns : List Node} (heq : ns.all (!·.isEquals))
    (h : ∀ n ∈ ns, ∀ tight rest, n.Derived (n.spell tight ++ rest) rest) :
    DerivesEach .index (spellNodes ns) (bareNodes (rereadNodes ns)) := by
  induction ns with
  | nil => exact .nil
  | cons n ns ih =>
    simp only [List.all_cons, Bool.and_eq_true] at heq
    refine .cons (fun tight rest => ?_) (ih heq.2 fun n hn => h n (by simp [hn]))
    exact .index ((h n (by simp) tight rest).expression false (by simp [heq.1]))

theorem derivesEach_arguments [Text.CharNames] {as : List Argument} (hnames : as.all Argument.isLegible)
    (h : ∀ a ∈ as, ∀ tight rest, a.value.Derived (a.value.spell tight ++ rest) rest) :
    DerivesEach .argument (spellArguments as) (bareArguments (rereadArguments as)) := by
  induction as with
  | nil => exact .nil
  | cons a as ih =>
    simp only [List.all_cons, Argument.isLegible, Argument.isCut, Bool.and_eq_true] at hnames
    have hvalue (tight : Bool) (rest : List Lexeme) :=
      (h a (by simp) tight rest).expression false (by simp [hnames.1.1.1])
    have ih := ih hnames.2 fun a ha => h a (by simp [ha])
    obtain ⟨_, _ | name, v⟩ := a
    · exact .cons (fun tight rest => .positional (hvalue tight rest)) ih
    · have hword : Keyword.ofText? name = none := by simpa using hnames.1.2
      have hname := argumentText?_nameLexeme hword
      exact .cons (fun tight rest => .named (g := false) hname (hvalue tight rest)) ih

theorem derivesEach_parameters [Text.CharNames] {ps : List Parameter} (hnames : ps.all Parameter.isCut)
    (h : ∀ a ∈ ps, ∀ d, a.default? = some d → ∀ tight rest, d.Derived (d.spell tight ++ rest) rest) :
    DerivesEach .parameter (spellParameters ps) (bareParameters (rereadParameters ps)) := by
  induction ps with
  | nil => exact .nil
  | cons a ps ih =>
    simp only [List.all_cons, Parameter.isCut, Bool.and_eq_true] at hnames
    have ih := ih hnames.2 fun a ha => h a (by simp [ha])
    have hname := Lexeme.name?_member hnames.1.1
    obtain ⟨_, name, _ | d⟩ := a
    · exact .cons (fun tight rest => .plain hname) ih
    · have hdefault (tight : Bool) (rest : List Lexeme) :=
        (h _ List.mem_cons_self d rfl tight rest).expression false (by simpa using hnames.1.2)
      exact .cons (fun tight rest => .defaulted (g := false) hname (hdefault tight rest)) ih

/-! Operators. -/

theorem Grammar.called_of_not_isReturn {f : Node} {args : List Argument} (h : !Node.isReturn f args) (s : Span) :
    called f args s = .call s f args := by
  unfold Node.isReturn called at h
  unfold called
  split at h <;> first | rfl | cases h

/-- Relations and powers apart, operators are grouped from the left. -/
theorem BinaryOp.group_cases {op : BinaryOp} (h : op.isSpelled) :
    (∃ o, op = .rel o) ∨ op = .arith .pow ∨
      ∃ k, op.precedence? = some k ∧ groupsLeft k ∧ op.leftStrength = k ∧ op.rightStrength = k + 1 ∧
        0 < k ∧ k ≤ 8 := by
  cases op with
  | rel o => exact .inl ⟨o, rfl⟩
  | arith a =>
    cases a with
    | pow => exact .inr (.inl rfl)
    | _ => exact .inr (.inr ⟨_, rfl, rfl, rfl, rfl, by decide, by decide⟩)
  | unknown => cases h
  | _ => exact .inr (.inr ⟨_, rfl, rfl, rfl, rfl, by decide, by decide⟩)

/-- The opening of a loop or function, and its body. -/
theorem Node.Derived.of_opening [Text.CharNames] {n : Node} {o : Opening} {b : Block} (ho : Derives .opening ts o mid)
    (hb : Derives (.layer 12) mid (.block b.bare) rest) (hcond : o.isCond = false)
    (hn : n.reread.bare = o.bare.close .blank (.block b.bare)) (hlevel : n.level = 0)
    (hts : startsControl ts.head?) : n.Derived ts rest := by
  refine .of_chain hlevel ?_ hts
  have hchain := Chained.opened ho hcond (.leaf (hb.loosen (by omega) (by omega) (by omega)))
  rwa [Node.bare, Block.bare_bare, ← hn] at hchain

theorem Number.derived_spell [Text.CharNames] {s : Span} {v : Number} {i : Bool} (h : v.isCut i) {rest : List Lexeme} :
    (Node.number s v i).Derived (.member (numeral v i) :: rest) rest := by
  obtain ⟨-, -, hinf | ⟨htext, ⟨w, j⟩, hread⟩⟩ := isCut_iff.1 h
  · have hmember : Lexeme.member (numeral v i) = .name "inf" := by rw [hinf]; decide
    have hreread : (Node.number s v i).reread = .identifier ⟨s, "inf"⟩ := by simp [Node.reread, reread, hinf]
    refine .of_layer rfl ?_
    rw [hmember, hreread]
    exact .name
  · have hinf : numeral v i ≠ "inf" := by
      intro hinf
      rw [hinf] at htext
      revert htext
      decide
    have hmember : Lexeme.member (numeral v i) = .number (numeral v i) := Lexeme.member_of_isNumberText htext
    have hreread : (Node.number s v i).reread = .number s w j := by simp [Node.reread, reread, hinf, hread]
    refine .of_layer rfl ?_
    rw [hmember, hreread]
    exact .number hread

mutual

theorem Node.derived_spell [Text.CharNames] : (n : Node) → n.all Node.isLegible → n.all Node.isPlaced →
    ∀ tight rest, n.Derived (n.spell tight ++ rest) rest
  | .string _ ps, _, _ => fun _ _ => .of_layer rfl (.string (Literal.string_literal ps))
  | .number s v i, h, _ => fun _ _ => Number.derived_spell h
  | .boolean _ true, _, _ | .boolean _ false, _, _ | .null _, _, _ => fun _ _ => .of_layer rfl (.constant rfl)
  | .identifier ⟨_, _⟩, _, _ => fun _ _ => .of_layer rfl .name
  | .unary _ op x, h, hp => by
    intro tight rest
    simp only [Node.all, Node.isLegible, Node.isCut, Node.isSpelled, Node.isPlaced, Bool.and_eq_true] at h hp
    have hx := x.derived_spell h.2 hp.2
    have hoperand {k : Nat} (hk : k ≤ op.strength) := Node.Derived.enclosed hx h.1.2 hp.1 hk
    cases op with
    | not => exact .of_layer rfl (.negated (hoperand (Nat.le_refl 3) (by decide) (by decide) tight rest))
    | neg | pos => exact .of_layer rfl (.signed rfl (hoperand (Nat.le_refl 9) (by decide) (by decide) tight rest))
    | unknown => cases h.1.1
  | .binary s op l r, h, hp => by
    intro tight rest
    simp only [Node.all, Node.isLegible, Node.isCut, Node.isSpelled, Node.isPlaced, Bool.and_eq_true] at h hp
    have hleft {k : Nat} (hk : k ≤ op.leftStrength) :=
      Node.Derived.enclosed (l.derived_spell h.1.2 hp.1.2) h.1.1.1.2 hp.1.1.1 hk
    have hright {k : Nat} (hk : k ≤ op.rightStrength) :=
      Node.Derived.enclosed (r.derived_spell h.2 hp.2) h.1.1.2 hp.1.1.2 hk
    rw [Node.spell, List.append_assoc]
    obtain ⟨o, rfl⟩ | rfl | ⟨k, hk, hgroups, hls, hrs, hpos, hle⟩ := BinaryOp.group_cases h.1.1.1.1
    · refine .of_layer rfl (.related (g := false) (hleft (Nat.le_refl 5) (by decide) (by decide) false _) ?_)
      exact hright (Nat.le_refl 5) (by decide) (by decide) tight rest
    · refine .of_layer rfl (.power (g := false) (hleft (Nat.le_refl 11) (by decide) (by decide) false _) ?_)
      exact hright (Nat.le_succ 9) (by decide) (by decide) tight rest
    · obtain ⟨k, rfl⟩ := Nat.exists_eq_succ_of_ne_zero (Nat.pos_iff_ne_zero.1 hpos)
      refine .of_layer (by simp [Node.level, hk]) (.extend hgroups (hleft (by omega) hpos (by omega) false _) ?_)
      exact .operator (g := false) hk (hright (by omega) (by omega) (by omega) tight rest) .stop
  | .call s f args, h, hp => by
    intro tight rest
    simp only [Node.all, Node.isLegible, Node.isPlaced, Bool.and_eq_true] at h hp
    have hcallee := Node.Derived.enclosed (f.derived_spell h.1.2 hp.1.2) h.1.1.1.1 hp.1.1
      (show 11 ≤ atomic by decide) (by decide) (by decide) false
    have hargs := derivesEach_arguments h.1.1.1.2 (derived_arguments args h.2 hp.2)
    have hreturn : !Node.isReturn f.reread.bare (bareArguments (rereadArguments args)) := by
      rw [Node.isReturn_bare, Node.isReturn_reread]
      exact h.1.1.2
    have htail := Derives.call (l := f.reread.bare) (hargs.parens rest) .stop
    rw [called_of_not_isReturn hreturn] at htail
    have hcall := Derives.extend rfl (hcallee _) htail
    refine .of_layer rfl ?_
    rw [Node.reread, Node.bare]
    simpa [Node.spell] using hcall
  | .index s t xs d, h, hp => by
    intro tight rest
    simp only [Node.all, Node.isLegible, Node.isCut, Node.isSpelled, Node.isPlaced, Bool.and_eq_true] at h hp
    have htarget := Node.Derived.enclosed (t.derived_spell h.1.2 hp.1.2) h.1.1.1.1 hp.1.1
      (show 11 ≤ atomic by decide) (by decide) (by decide) false
    have hxs := derivesEach_indices h.1.1.2 (derived_nodes xs h.2 hp.2)
    have hne : spellNodes xs ≠ [] := by
      cases xs with
      | nil => cases h.1.1.1.2
      | cons => exact nofun
    refine .of_layer rfl ?_
    rw [Node.reread, Node.bare]
    cases d with
    | true =>
      have hlist := hxs.list hne true (gap false (.closeBracket true :: .closeBracket tight :: rest))
      have htail := Derives.doubleBrackets (l := t.reread.bare) (g := false) hlist .stop
      simpa [Node.spell, gap] using Derives.extend rfl (htarget _) htail
    | false =>
      have hlist := hxs.list hne true (gap false (.closeBracket tight :: rest))
      have htail := Derives.brackets (l := t.reread.bare) (g := false) hlist .stop
      simpa [Node.spell, gap] using Derives.extend rfl (htarget _) htail
  | .member s t name, h, hp => by
    intro tight rest
    simp only [Node.all, Node.isLegible, Node.isCut, Node.isSpelled, Node.isPlaced, Bool.and_eq_true] at h hp
    have htarget := Node.Derived.enclosed (t.derived_spell h.2 hp.2) h.1.1 hp.1
      (show 11 ≤ atomic by decide) (by decide) (by decide) false
    have htail : Derives (.tail 11 t.reread.bare) (.dollar :: .member name :: rest)
        (.member .blank t.reread.bare name) rest :=
      .member (Lexeme.name?_member h.1.2) .stop
    have hmember := Derives.extend rfl (htarget _) htail
    refine .of_layer rfl ?_
    rw [Node.reread, Node.bare]
    simpa [Node.spell] using hmember
  | .block b, h, hp => by
    intro tight rest
    simp only [Node.all, Bool.and_eq_true] at h hp
    exact .of_layer rfl (b.derived_spell h.2 hp.2 rest)
  | .assign s op t v, h, hp => by
    intro tight rest
    simp only [Node.all, Node.isLegible, Node.isCut, Node.isSpelled, Node.isPlaced, Bool.and_eq_true] at h hp
    have hv := v.derived_spell h.2 hp.2 tight rest
    have ht (l : Lexeme) := (t.derived_spell h.1.2 hp.1.2 false (l :: (v.spell tight ++ rest))).loosen (k := 1)
      (by decide) (Nat.one_le_iff_ne_zero.2 (by simpa using hp.1.1))
    rw [Node.spell, List.append_assoc]
    by_cases hop : op = .equals
    · subst hop
      refine ⟨absurd rfl, nofun, fun b hb => ?_⟩
      obtain rfl : b = true := hb
      exact .equals (g := false) (ht .equals) (hv.expression false (by simp [h.1.1.2]))
    · have hlexeme : op.lexeme = .assign op := by cases op <;> first | rfl | exact absurd rfl hop
      have hchain := hv.chain h.1.1.2
      rw [hlexeme]
      refine ⟨absurd rfl, fun _ => ?_, fun b _ => ?_⟩
      · have hassign := Chained.opened (.assign (g := false) (ht (.assign op))) rfl hchain
        rwa [Opening.bare, Opening.close, Node.bare_bare, ← Node.bare, ← Node.reread] at hassign
      · obtain ⟨r, mid, as, hr, has, hbuilt⟩ := hchain
        have hassign := Derives.assigned (b := b) (g := false) (ht (.assign op)) hr has
        rw [built_after (o := .assign op t.reread.bare) nofun, hbuilt, Opening.bare, Opening.close,
          Node.bare_bare] at hassign
        rwa [Node.reread, Node.bare]
  | .cond s c t none, h, hp => by
    intro tight rest
    simp only [Node.all, Node.isLegible, Node.isCut, Node.isSpelled, Bool.and_eq_true] at h hp
    have ht := t.derived_spell h.2 hp.2 rest
    have hc := (c.derived_spell h.1.2 hp.1.2 false (gap false (.closeParen :: gap false (t.spell ++ rest)))).expression
      false (by simp [h.1.1])
    have hchain := Chained.cond (.cond (g := false) hc) (ht.loosen (by omega) (by omega) (by omega))
    refine .of_chain rfl ?_ rfl
    simpa [Node.spell, Node.reread, Node.bare, gap, Node.asBlock] using hchain
  | .cond s c t (some e), h, hp => by
    intro tight rest
    simp only [Node.all, Node.isLegible, Node.isCut, Node.isSpelled, Bool.and_eq_true] at h hp
    obtain ⟨v, hv, he⟩ := e.derived_spellElse h.2 hp.2 rest
    have ht := t.derived_spell h.1.2 hp.1.2 (.keyword .elseWord :: (e.spellElse ++ rest))
    have hc := (c.derived_spell h.1.1.2 hp.1.1.2 false
      (gap false (.closeParen :: gap false (t.spell ++ .keyword .elseWord :: (e.spellElse ++ rest))))).expression
      false (by simp [h.1.1.1])
    have hchain := Chained.condElse (.cond (g := false) hc) (ht.loosen (by omega) (by omega) (by omega)) he
    refine .of_chain rfl ?_ rfl
    rw [hv] at hchain
    simpa [Node.spell, Node.reread, Node.bare, gap, Node.asBlock] using hchain
  | .whileLoop s c b, h, hp => by
    intro tight rest
    simp only [Node.all, Node.isLegible, Node.isCut, Node.isSpelled, Bool.and_eq_true] at h hp
    have hb := b.derived_spell h.2 hp.2 rest
    have hc := (c.derived_spell h.1.2 hp.1.2 false (gap false (.closeParen :: gap false (b.spell ++ rest)))).expression
      false (by simp [h.1.1])
    have ho := Derives.whileLoop (g := false) hc
    have hderived := Node.Derived.of_opening (n := .whileLoop s c b) ho hb rfl
      (by simp [Node.reread, Node.bare, Opening.bare, Opening.close, Node.asBlock]) rfl rfl
    simpa [gap, Node.spell] using hderived
  | .repeatLoop s b, h, hp => by
    intro tight rest
    simp only [Node.all, Node.isLegible, Node.isCut, Node.isSpelled, Bool.and_eq_true] at h hp
    have hb := b.derived_spell h.2 hp.2 rest
    have ho : Derives .opening (.keyword .repeatWord :: gap false (b.spell ++ rest)) .repeatLoop (b.spell ++ rest) :=
      .repeatLoop
    exact .of_opening ho hb rfl (by simp [Node.reread, Node.bare, Opening.bare, Opening.close, Node.asBlock]) rfl rfl
  | .forLoop s v x b, h, hp => by
    intro tight rest
    simp only [Node.all, Node.isLegible, Node.isCut, Bool.and_eq_true] at h hp
    have hb := b.derived_spell h.2 hp.2 rest
    have hx := (x.derived_spell h.1.2 hp.1.2 false (gap false (.closeParen :: gap false (b.spell ++ rest)))).expression
      false (by simp [h.1.1.2])
    have ho := Derives.forLoop (g := false) (Lexeme.name?_member h.1.1.1) hx
    have hderived := Node.Derived.of_opening (n := .forLoop s v x b) ho hb rfl
      (by simp [Node.reread, Node.bare, Opening.bare, Opening.close, Node.asBlock]) rfl rfl
    simpa [gap, Node.spell] using hderived
  | .function s ps b, h, hp => by
    intro tight rest
    simp only [Node.all, Node.isLegible, Node.isCut, Bool.and_eq_true] at h hp
    have hb := b.derived_spell h.2 hp.2 rest
    have hps := derivesEach_parameters h.1.1 (derived_parameters ps h.1.2 hp.1.2)
    have ho := Derives.function (hps.parens (gap false (b.spell ++ rest)))
    have hderived := Node.Derived.of_opening (n := .function s ps b) ho hb rfl
      (by simp [Node.reread, Node.bare, Opening.bare, Opening.close, Node.asBlock]) rfl rfl
    simpa [gap, Node.spell] using hderived
  | .jump s .ret none, _, _ => by
    intro tight rest
    exact .of_layer rfl (.grouped rfl .name (.call (.empty (g := false) (h := false)) .stop))
  | .jump s .ret (some x), h, hp => by
    intro tight rest
    simp only [Node.all, Node.isLegible, Node.isCut, Node.isSpelled, Bool.and_eq_true] at h hp
    have hx := (x.derived_spell h.2 hp.2 false (gap false (.closeParen :: rest))).expression false (by simpa using h.1)
    have hargs := Derives.filled (g := false) (.single (.positional hx))
    have htail : Derives (.tail 11 (.identifier ⟨.blank, "return"⟩)) _ (.jump .blank .ret (some x.reread.bare)) rest :=
      .call hargs .stop
    refine .of_layer rfl ?_
    rw [Node.reread, Node.bare]
    simpa [Node.spell, gap] using Derives.grouped (k := 11) rfl .name htail
  | .jump s .brk none, _, _ => fun _ _ => .of_chain rfl (.leave rfl) rfl
  | .jump s .nxt none, _, _ => fun _ _ => .of_chain rfl (.leave rfl) rfl
  | .jump s .brk (some x), h, _ | .jump s .nxt (some x), h, _ => by
    simp only [Node.all, Node.isLegible, Node.isCut, Node.isSpelled, Bool.and_eq_true] at h
    cases h.1

theorem Block.derived_spell [Text.CharNames] : (b : Block) → b.all Node.isLegible → b.all Node.isPlaced →
    ∀ rest, Derives (.layer 12) (b.spell ++ rest) (.block b.reread.bare) rest
  | ⟨s, ss⟩, h, hp => Block.derives_braces (b := ⟨s, ss⟩) (derived_nodes ss h hp)

theorem Block.derived_spellElse [Text.CharNames] : (b : Block) → b.all Node.isLegible → b.all Node.isPlaced →
    ∀ rest, ∃ v : Node, v.asBlock = b.reread.bare ∧ Chained (b.spellElse ++ rest) v rest
  | ⟨_, ss⟩, h, hp => by
    intro rest
    have hss := derived_nodes ss h hp
    rw [Block.spellElse]
    cases hif : isElseIf ss with
    | true =>
      obtain ⟨s, c, t, e?, rfl⟩ := isElseIf_eq hif
      refine ⟨(Node.cond s c t e?).reread.bare, ?_, ?_⟩
      · cases e? <;> rfl
      · simpa [spellNodes] using (hss (.cond s c t e?) (by simp) false rest).chain rfl
    | false =>
      refine ⟨.block ⟨.blank, bareNodes (rereadNodes ss)⟩, rfl, ?_⟩
      have hblock := Block.derives_braces (b := ⟨.blank, ss⟩) hss rest
      have hchain := Chained.leaf (hblock.loosen (k := 1) (by omega) (by omega) (by omega))
      simpa [Node.bare, Block.reread, Block.bare] using hchain

theorem derived_nodes [Text.CharNames] : (ns : List Node) → allNodes Node.isLegible ns → allNodes Node.isPlaced ns →
    ∀ n ∈ ns, ∀ tight rest, n.Derived (n.spell tight ++ rest) rest
  | [], _, _ => nofun
  | n :: ns, h, hp => by
    simp only [allNodes, Bool.and_eq_true] at h hp
    exact List.forall_mem_cons.2 ⟨n.derived_spell h.1 hp.1, derived_nodes ns h.2 hp.2⟩

theorem derived_arguments [Text.CharNames] :
    (as : List Argument) → allArguments Node.isLegible as → allArguments Node.isPlaced as →
    ∀ a ∈ as, ∀ tight rest, a.value.Derived (a.value.spell tight ++ rest) rest
  | [], _, _ => nofun
  | ⟨_, _, v⟩ :: as, h, hp => by
    simp only [allArguments, Bool.and_eq_true] at h hp
    exact List.forall_mem_cons.2 ⟨v.derived_spell h.1 hp.1, derived_arguments as h.2 hp.2⟩

theorem derived_parameters [Text.CharNames] : (ps : List Parameter) → allParameters Node.isLegible ps →
    allParameters Node.isPlaced ps →
    ∀ a ∈ ps, ∀ d, a.default? = some d → ∀ tight rest, d.Derived (d.spell tight ++ rest) rest
  | [], _, _ => nofun
  | ⟨_, _, none⟩ :: ps, h, hp => List.forall_mem_cons.2 ⟨nofun, derived_parameters ps h hp⟩
  | ⟨_, _, some d⟩ :: ps, h, hp => by
    simp only [allParameters, Bool.and_eq_true] at h hp
    refine List.forall_mem_cons.2 ⟨?_, derived_parameters ps h.2 hp.2⟩
    rintro _ ⟨⟩
    exact d.derived_spell h.1 hp.1

end

end Deadwood
