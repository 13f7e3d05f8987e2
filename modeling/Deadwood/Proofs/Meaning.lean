import Deadwood.Proofs.Folding

/-! Folding keeps the meaning of a program, whatever trees may mean, as long as the
meaning of a tree comes from its parts and agrees with the tables of literal operations:
`meaning_fold`. -/
namespace Deadwood

/-- A meaning for each kind of node, from its own data and the meanings of its parts. The
place of a node has no say in it. -/
structure Meaning (D : Type u) where
  number : Number → Bool → D
  string : List Text.Point → D
  boolean : Bool → D
  null : D
  identifier : String → D
  unary : UnaryOp → D → D
  binary : BinaryOp → D → D → D
  argument : Option String → D → D
  call : D → List D → D
  index : D → List D → Bool → D
  member : D → String → D
  block : List D → D
  assign : AssignOp → D → D → D
  cond : D → D → Option D → D
  whileLoop : D → D → D
  repeatLoop : D → D
  forLoop : D → D → D → D
  parameter : String → Option D → D
  function : List D → D → D
  jump : Jump → Option D → D
  program : String → List D → D

namespace Meaning

mutual

def ofNode (M : Meaning D) : Node → D
  | .number _ v i => M.number v i
  | .string _ v => M.string v
  | .boolean _ v => M.boolean v
  | .null _ => M.null
  | .identifier id => M.identifier id.name
  | .unary _ op x => M.unary op (M.ofNode x)
  | .binary _ op l r => M.binary op (M.ofNode l) (M.ofNode r)
  | .call _ f args => M.call (M.ofNode f) (M.ofArguments args)
  | .index _ t xs d => M.index (M.ofNode t) (M.ofNodes xs) d
  | .member _ t name => M.member (M.ofNode t) name
  | .block b => M.ofBlock b
  | .assign _ op t v => M.assign op (M.ofNode t) (M.ofNode v)
  | .cond _ c t none => M.cond (M.ofNode c) (M.ofBlock t) none
  | .cond _ c t (some e) => M.cond (M.ofNode c) (M.ofBlock t) (some (M.ofBlock e))
  | .whileLoop _ c b => M.whileLoop (M.ofNode c) (M.ofBlock b)
  | .repeatLoop _ b => M.repeatLoop (M.ofBlock b)
  | .forLoop _ v x b => M.forLoop (M.identifier v.name) (M.ofNode x) (M.ofBlock b)
  | .function _ ps b => M.function (M.ofParameters ps) (M.ofBlock b)
  | .jump _ k none => M.jump k none
  | .jump _ k (some x) => M.jump k (some (M.ofNode x))

def ofBlock (M : Meaning D) : Block → D
  | ⟨_, ss⟩ => M.block (M.ofNodes ss)

def ofArgument (M : Meaning D) : Argument → D
  | ⟨_, name, v⟩ => M.argument name (M.ofNode v)

def ofParameter (M : Meaning D) : Parameter → D
  | ⟨_, name, none⟩ => M.parameter name none
  | ⟨_, name, some d⟩ => M.parameter name (some (M.ofNode d))

def ofNodes (M : Meaning D) : List Node → List D
  | [] => []
  | n :: ns => M.ofNode n :: M.ofNodes ns

def ofArguments (M : Meaning D) : List Argument → List D
  | [] => []
  | a :: as => M.ofArgument a :: M.ofArguments as

def ofParameters (M : Meaning D) : List Parameter → List D
  | [] => []
  | p :: ps => M.ofParameter p :: M.ofParameters ps

end

def ofProgram (M : Meaning D) (p : Program) : D := M.program p.file (M.ofNodes p.body)

/-- What folding takes for granted: operators on literals mean what the tables say where
they say something, and a left side of `&&` or `||` that decides leaves no say to any
right side. -/
structure Lawful (M : Meaning D) : Prop where
  not_boolean : ∀ v, M.unary .not (M.boolean v) = M.boolean (!v)
  neg_number : ∀ v i, M.unary .neg (M.number v i) = M.number v.neg i
  pos_number : ∀ v i, M.unary .pos (M.number v i) = M.number v i
  arith_numbers : ∀ op a b i j v, Number.evaluate op a b = some v →
    (i && j && Fold.keepsInteger op && v.exceeds integerMax) = false →
    M.binary (.arith op) (M.number a i) (M.number b j) = M.number v (i && j && Fold.keepsInteger op)
  rel_numbers : ∀ r a b i j,
    M.binary (.rel r) (M.number a i) (M.number b j) = M.boolean (r.holds (a.order b))
  eq_strings : ∀ a b, M.binary (.rel .eq) (M.string a) (M.string b) = M.boolean (a == b)
  ne_strings : ∀ a b, M.binary (.rel .ne) (M.string a) (M.string b) = M.boolean (a != b)
  eq_booleans : ∀ a b, M.binary (.rel .eq) (M.boolean a) (M.boolean b) = M.boolean (a == b)
  ne_booleans : ∀ a b, M.binary (.rel .ne) (M.boolean a) (M.boolean b) = M.boolean (a != b)
  and_booleans : ∀ a b, M.binary .lazyAnd (M.boolean a) (M.boolean b) = M.boolean (a && b)
  or_booleans : ∀ a b, M.binary .lazyOr (M.boolean a) (M.boolean b) = M.boolean (a || b)
  false_and : ∀ x : Node, M.binary .lazyAnd (M.boolean false) (M.ofNode x) = M.boolean false
  true_or : ∀ x : Node, M.binary .lazyOr (M.boolean true) (M.ofNode x) = M.boolean true

variable {M : Meaning D}

theorem ofNode_unary (h : M.Lawful) (s : Span) (op : UnaryOp) (x : Node) :
    M.ofNode (Fold.unary s op x) = M.unary op (M.ofNode x) := by
  unfold Fold.unary
  fun_cases Fold.unary? s op x with
  | case1 s' v => simp [ofNode, h.not_boolean]
  | case2 s' v i => simp [ofNode, h.neg_number]
  | case3 s' v i => simp [ofNode, h.pos_number]
  | case4 => rfl

theorem ofNode_arith (h : M.Lawful) {s : Span} {op : Arith} {a b : Number} {i j : Bool} {v : Node}
    (hv : Fold.arith? s op a b (i && j) = some v) :
    M.ofNode v = M.binary (.arith op) (M.number a i) (M.number b j) := by
  obtain ⟨value, heval, hv⟩ := Option.bind_eq_some_iff.1 hv
  dsimp only at hv
  split at hv
  · contradiction
  · next hrange =>
    cases hv
    rw [ofNode, h.arith_numbers op a b i j value heval (by simpa using hrange)]

theorem ofNode_binary (h : M.Lawful) (s : Span) (op : BinaryOp) (l r : Node) :
    M.ofNode (Fold.binary s op l r) = M.binary op (M.ofNode l) (M.ofNode r) := by
  unfold Fold.binary
  fun_cases Fold.binary? s op l r with
  | case1 r s' => simp [ofNode, h.false_and]
  | case2 s' s'' v => simp [ofNode, h.and_booleans]
  | case3 r s' => simp [ofNode, h.true_or]
  | case4 s' s'' v => simp [ofNode, h.or_booleans]
  | case5 op s' a i s'' b j =>
    cases hv : Fold.arith? s op a b (i && j) with
    -- Out of range, or without a result: the operation stays.
    | none => rfl
    | some v => exact ofNode_arith h hv
  | case6 r s' a i s'' b j => simp [ofNode, h.rel_numbers]
  | case7 s' a s'' b => simp [ofNode, h.eq_strings]
  | case8 s' a s'' b => simp [ofNode, h.ne_strings]
  | case9 s' a s'' b => simp [ofNode, h.eq_booleans]
  | case10 s' a s'' b => simp [ofNode, h.ne_booleans]
  | case11 => rfl

mutual

theorem ofNode_fold (h : M.Lawful) : (n : Node) → M.ofNode n.fold = M.ofNode n
  | .number .. | .string .. | .boolean .. | .null .. | .identifier .. => rfl
  | .unary s op x => by rw [Node.fold, ofNode_unary h, ofNode_fold h x, ofNode]
  | .binary s op l r => by rw [Node.fold, ofNode_binary h, ofNode_fold h l, ofNode_fold h r, ofNode]
  | .call s f args => by rw [Node.fold, ofNode, ofNode_fold h f, ofArguments_fold h args, ofNode]
  | .index s t xs d => by rw [Node.fold, ofNode, ofNode_fold h t, ofNodes_fold h xs, ofNode]
  | .member s t name => by rw [Node.fold, ofNode, ofNode_fold h t, ofNode]
  | .block b => by rw [Node.fold, ofNode, ofBlock_fold h b, ofNode]
  | .assign s op t v => by rw [Node.fold, ofNode, ofNode_fold h t, ofNode_fold h v, ofNode]
  | .cond s c t none => by rw [Node.fold, ofNode, ofNode_fold h c, ofBlock_fold h t, ofNode]
  | .cond s c t (some e) => by
    rw [Node.fold, ofNode, ofNode_fold h c, ofBlock_fold h t, ofBlock_fold h e, ofNode]
  | .whileLoop s c b => by rw [Node.fold, ofNode, ofNode_fold h c, ofBlock_fold h b, ofNode]
  | .repeatLoop s b => by rw [Node.fold, ofNode, ofBlock_fold h b, ofNode]
  | .forLoop s v x b => by rw [Node.fold, ofNode, ofNode_fold h x, ofBlock_fold h b, ofNode]
  | .function s ps b => by rw [Node.fold, ofNode, ofParameters_fold h ps, ofBlock_fold h b, ofNode]
  | .jump s k none => rfl
  | .jump s k (some x) => by rw [Node.fold, ofNode, ofNode_fold h x, ofNode]

theorem ofBlock_fold (h : M.Lawful) : (b : Block) → M.ofBlock b.fold = M.ofBlock b
  | ⟨_, ss⟩ => by rw [Block.fold, ofBlock, ofNodes_fold h ss, ofBlock]

theorem ofArgument_fold (h : M.Lawful) : (a : Argument) → M.ofArgument a.fold = M.ofArgument a
  | ⟨_, _, v⟩ => by rw [Argument.fold, ofArgument, ofNode_fold h v, ofArgument]

theorem ofParameter_fold (h : M.Lawful) : (p : Parameter) → M.ofParameter p.fold = M.ofParameter p
  | ⟨_, _, none⟩ => rfl
  | ⟨_, _, some d⟩ => by rw [Parameter.fold, ofParameter, ofNode_fold h d, ofParameter]

theorem ofNodes_fold (h : M.Lawful) : (ns : List Node) → M.ofNodes (foldNodes ns) = M.ofNodes ns
  | [] => rfl
  | n :: ns => by rw [foldNodes, ofNodes, ofNode_fold h n, ofNodes_fold h ns, ofNodes]

theorem ofArguments_fold (h : M.Lawful) :
    (as : List Argument) → M.ofArguments (foldArguments as) = M.ofArguments as
  | [] => rfl
  | a :: as => by rw [foldArguments, ofArguments, ofArgument_fold h a, ofArguments_fold h as, ofArguments]

theorem ofParameters_fold (h : M.Lawful) :
    (ps : List Parameter) → M.ofParameters (foldParameters ps) = M.ofParameters ps
  | [] => rfl
  | p :: ps => by
    rw [foldParameters, ofParameters, ofParameter_fold h p, ofParameters_fold h ps, ofParameters]

end

end Meaning

/-- Operands are given up only for a value they all are literals of, or behind a left
side that decides; never those of `&` and `|`. -/
theorem Fold.binary_keeps (s : Span) (op : BinaryOp) (l r : Node) :
    binary s op l r = .binary s op l r ∨ (decided? op l).isSome ∨
      l.isLiteral ∧ r.isLiteral ∧ op ≠ .and ∧ op ≠ .or := by
  rcases binary_cases s op l r with ⟨v, hv, _⟩ | ⟨_, hkeep⟩
  · right
    cases hl : l.isLiteral with
    | false => simp [binary?_of_left hl] at hv
    | true =>
      cases hr : r.isLiteral with
      | false =>
        rw [binary?_of_right hr] at hv
        obtain ⟨b, hb, _⟩ := Option.map_eq_some_iff.1 hv
        exact .inl (by rw [hb]; rfl)
      | true =>
        refine .inr ⟨rfl, rfl, ?_, ?_⟩
        · rintro rfl
          simp [binary?] at hv
        · rintro rfl
          simp [binary?] at hv
  · exact .inl hkeep

/-- A folded program means what it meant. In particular no operand is lost that could
run: an operation stays with its folded operands unless they are literals or its left
side alone decides. -/
theorem meaning_fold {D : Type u} (M : Meaning D) (h : M.Lawful) :
    (∀ p : Program, M.ofProgram p.fold = M.ofProgram p) ∧
    (∀ s op x, (Node.unary s op x).fold = .unary s op x.fold ∨ x.fold.isLiteral) ∧
    ∀ s op l r, (Node.binary s op l r).fold = .binary s op l.fold r.fold ∨
      (Fold.decided? op l.fold).isSome ∨
      l.fold.isLiteral ∧ r.fold.isLiteral ∧ op ≠ .and ∧ op ≠ .or := by
  refine ⟨fun p => ?_, fun s op x => ?_, fun s op l r => ?_⟩
  · rw [Meaning.ofProgram, Program.fold, Meaning.ofNodes_fold h, Meaning.ofProgram]
  · rw [Node.fold]
    cases hx : x.fold.isLiteral with
    | true => exact .inr rfl
    | false => simp [Fold.unary, Fold.unary?_of_not_isLiteral hx]
  · rw [Node.fold]
    exact Fold.binary_keeps s op l.fold r.fold

/-- What a tree may read: the names in it, in order, without those that a deciding left
side keeps from being looked at. A literal reads nothing and is known. -/
structure Reads where
  literal? : Option Node
  names : List String

namespace Reads

def nowhere : Span := ⟨0, 0, 0, 0, none⟩

def literal (n : Node) : Reads := ⟨some n, []⟩

def all (parts : List Reads) : Reads := ⟨none, parts.flatMap (·.names)⟩

def meaning : Meaning Reads where
  number v i := literal (.number nowhere v i)
  string v := literal (.string nowhere v)
  boolean v := literal (.boolean nowhere v)
  null := all []
  identifier name := ⟨none, [name]⟩
  unary op x :=
    match x.literal?.bind (Fold.unary? nowhere op) with
    | some v => literal v
    | none => all [x]
  binary op l r :=
    match l.literal?.bind fun a => Fold.binary? nowhere op a (r.literal?.getD (.null nowhere)) with
    | some v => literal v
    | none => all [l, r]
  argument _ v := all [v]
  call f args := all (f :: args)
  index t xs _ := all (t :: xs)
  member t _ := all [t]
  block ss := all ss
  assign _ t v := all [t, v]
  cond c t e? := all (c :: t :: e?.toList)
  whileLoop c b := all [c, b]
  repeatLoop b := all [b]
  forLoop v x b := all [v, x, b]
  parameter _ d? := all d?.toList
  function ps b := all (ps ++ [b])
  jump _ x? := all x?.toList
  program _ ss := all ss

theorem meaning_lawful : meaning.Lawful where
  not_boolean _ := rfl
  neg_number _ _ := rfl
  pos_number _ _ := rfl
  arith_numbers op a b i j v heval hrange := by
    have hv : Fold.arith? nowhere op a b (i && j) =
        some (.number nowhere v (i && j && Fold.keepsInteger op)) := by
      simp only [Fold.arith?, heval, Option.bind_eq_bind, Option.bind_some, hrange, Bool.false_eq_true,
        if_false]
    simp [meaning, literal, Fold.binary?, hv]
  rel_numbers _ _ _ _ _ := rfl
  eq_strings _ _ := rfl
  ne_strings _ _ := rfl
  eq_booleans _ _ := rfl
  ne_booleans _ _ := rfl
  and_booleans a b := by cases a <;> rfl
  or_booleans a b := by cases a <;> rfl
  false_and _ := rfl
  true_or _ := rfl

end Reads

/-- `(FALSE && x) | (TRUE && y)` reads `y` alone, and does so when it is folded. -/
theorem meaning_fold_lazy_operands :
    let s := Reads.nowhere
    let x : Node := .identifier ⟨s, "x"⟩
    let y : Node := .identifier ⟨s, "y"⟩
    let p : Program := ⟨s, "<stdin>", [.binary s .or (.binary s .lazyAnd (.boolean s false) x)
      (.binary s .lazyAnd (.boolean s true) y)]⟩
    Reads.meaning.Lawful ∧ Reads.meaning.ofProgram p.fold = Reads.meaning.ofProgram p ∧
      (Reads.meaning.ofProgram p).names = ["y"] ∧
      p.fold.body = [.binary s .or (.boolean s false) (.binary s .lazyAnd (.boolean s true) y)] :=
  ⟨Reads.meaning_lawful, (meaning_fold Reads.meaning Reads.meaning_lawful).1 _, rfl, rfl⟩

end Deadwood
