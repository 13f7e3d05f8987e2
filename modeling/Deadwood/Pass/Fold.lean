import Deadwood.Tree.Basic

/-! Constant folding. An operation whose operands are literals, after folding, becomes
its value. Names are not looked through, and whatever could fail or differ when the
script runs is left alone. -/
namespace Deadwood

namespace Fold

def unary? (span : Span) : UnaryOp → Node → Option Node
  | .not, .boolean _ v => some (.boolean span (!v))
  | .neg, .number _ v isInteger => some (.number span v.neg isInteger)
  | .pos, .number _ v isInteger => some (.number span v isInteger)
  | _, _ => none

/-- Integer literals stay integer literals except under division and power. -/
def keepsInteger : Arith → Bool
  | .div | .pow => false
  | _ => true

/-- The literal an operation on two number literals folds to. An integer literal never
leaves the integer range. -/
def arith? (span : Span) (op : Arith) (a b : Number) (isInteger : Bool) : Option Node := do
  let v ← Number.evaluate op a b
  let isInteger := isInteger && keepsInteger op
  if isInteger && v.exceeds integerMax then none else some (.number span v isInteger)

/-- `&&` and `||` fold on a literal left side that decides, or on two literals. Strings
and booleans are compared for equality only. -/
def binary? (span : Span) : BinaryOp → Node → Node → Option Node
  | .lazyAnd, .boolean _ false, _ => some (.boolean span false)
  | .lazyAnd, .boolean _ true, .boolean _ v => some (.boolean span v)
  | .lazyOr, .boolean _ true, _ => some (.boolean span true)
  | .lazyOr, .boolean _ false, .boolean _ v => some (.boolean span v)
  | .arith op, .number _ a i, .number _ b j => arith? span op a b (i && j)
  | .rel r, .number _ a _, .number _ b _ => some (.boolean span (r.holds (a.order b)))
  | .rel .eq, .string _ a, .string _ b => some (.boolean span (a == b))
  | .rel .ne, .string _ a, .string _ b => some (.boolean span (a != b))
  | .rel .eq, .boolean _ a, .boolean _ b => some (.boolean span (a == b))
  | .rel .ne, .boolean _ a, .boolean _ b => some (.boolean span (a != b))
  | _, _, _ => none

/-- An operation on folded operands: its value if it has one, else itself. -/
def unary (span : Span) (op : UnaryOp) (x : Node) : Node := (unary? span op x).getD (.unary span op x)

def binary (span : Span) (op : BinaryOp) (l r : Node) : Node :=
  (binary? span op l r).getD (.binary span op l r)

end Fold

mutual

def Node.fold : Node → Node
  | .number s v i => .number s v i
  | .string s v => .string s v
  | .boolean s v => .boolean s v
  | .null s => .null s
  | .identifier id => .identifier id
  | .unary s op x => Fold.unary s op x.fold
  | .binary s op l r => Fold.binary s op l.fold r.fold
  | .call s f args => .call s f.fold (foldArguments args)
  | .index s t xs d => .index s t.fold (foldNodes xs) d
  | .member s t name => .member s t.fold name
  | .block b => .block b.fold
  | .assign s op t v => .assign s op t.fold v.fold
  | .cond s c t none => .cond s c.fold t.fold none
  | .cond s c t (some e) => .cond s c.fold t.fold (some e.fold)
  | .whileLoop s c b => .whileLoop s c.fold b.fold
  | .repeatLoop s b => .repeatLoop s b.fold
  | .forLoop s v x b => .forLoop s v x.fold b.fold
  | .function s ps b => .function s (foldParameters ps) b.fold
  | .jump s k none => .jump s k none
  | .jump s k (some x) => .jump s k (some x.fold)

def Block.fold : Block → Block
  | ⟨s, ss⟩ => ⟨s, foldNodes ss⟩

def Argument.fold : Argument → Argument
  | ⟨s, name, v⟩ => ⟨s, name, v.fold⟩

def Parameter.fold : Parameter → Parameter
  | ⟨s, name, none⟩ => ⟨s, name, none⟩
  | ⟨s, name, some d⟩ => ⟨s, name, some d.fold⟩

def foldNodes : List Node → List Node
  | [] => []
  | n :: ns => n.fold :: foldNodes ns

def foldArguments : List Argument → List Argument
  | [] => []
  | a :: as => a.fold :: foldArguments as

def foldParameters : List Parameter → List Parameter
  | [] => []
  | p :: ps => p.fold :: foldParameters ps

end

/-! The number of operations that fold, those inside operands that are then discarded
included. -/

mutual

def Node.foldings : Node → Nat
  | .number .. | .string .. | .boolean .. | .null .. | .identifier .. => 0
  | .unary s op x => x.foldings + if (Fold.unary? s op x.fold).isSome then 1 else 0
  | .binary s op l r =>
    l.foldings + r.foldings + if (Fold.binary? s op l.fold r.fold).isSome then 1 else 0
  | .call _ f args => f.foldings + foldingsArguments args
  | .index _ t xs _ => t.foldings + foldingsNodes xs
  | .member _ t _ => t.foldings
  | .block b => b.foldings
  | .assign _ _ t v => t.foldings + v.foldings
  | .cond _ c t none => c.foldings + t.foldings
  | .cond _ c t (some e) => c.foldings + t.foldings + e.foldings
  | .whileLoop _ c b => c.foldings + b.foldings
  | .repeatLoop _ b => b.foldings
  | .forLoop _ _ x b => x.foldings + b.foldings
  | .function _ ps b => foldingsParameters ps + b.foldings
  | .jump _ _ none => 0
  | .jump _ _ (some x) => x.foldings

def Block.foldings : Block → Nat
  | ⟨_, ss⟩ => foldingsNodes ss

def Argument.foldings : Argument → Nat
  | ⟨_, _, v⟩ => v.foldings

def Parameter.foldings : Parameter → Nat
  | ⟨_, _, none⟩ => 0
  | ⟨_, _, some d⟩ => d.foldings

def foldingsNodes : List Node → Nat
  | [] => 0
  | n :: ns => n.foldings + foldingsNodes ns

def foldingsArguments : List Argument → Nat
  | [] => 0
  | a :: as => a.foldings + foldingsArguments as

def foldingsParameters : List Parameter → Nat
  | [] => 0
  | p :: ps => p.foldings + foldingsParameters ps

end

def Program.fold (p : Program) : Program := { p with body := foldNodes p.body }

def Program.foldings (p : Program) : Nat := foldingsNodes p.body

def Tree.fold : Tree → Tree
  | .program p => .program p.fold
  | .node n => .node n.fold
  | .argument a => .argument a.fold
  | .parameter p => .parameter p.fold

def Tree.foldings : Tree → Nat
  | .program p => p.foldings
  | .node n => n.foldings
  | .argument a => a.foldings
  | .parameter p => p.foldings

end Deadwood
