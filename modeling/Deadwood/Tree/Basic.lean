import Deadwood.Text.Point
import Deadwood.Tree.Operator

/-! Syntax trees of scripts. Statements and expressions share one type, because
every statement of the language is an expression. Each node carries its place. -/
namespace Deadwood

/-- Lines and columns count from one; `endCol` is one past the last character. -/
structure Span where
  startLine : Int
  startCol : Int
  endLine : Int
  endCol : Int
  file : Option String := none
deriving DecidableEq, Repr

/-- How control leaves a statement sequence. -/
inductive Jump where
  | ret | brk | nxt
deriving DecidableEq, Repr

def Jump.word : Jump → String
  | .ret => "return"
  | .brk => "break"
  | .nxt => "next"

structure Identifier where
  span : Span
  name : String
deriving DecidableEq, Repr

mutual

/-- A statement sequence, braced in the source. -/
structure Block where
  span : Span
  statements : List Node

structure Argument where
  span : Span
  name : Option String
  value : Node

structure Parameter where
  span : Span
  name : String
  default? : Option Node

/-- `isInteger` marks a literal with the `L` suffix, `double` the `[[ ]]` form. Bodies
are always blocks, whether or not they were braced. -/
inductive Node where
  | number (span : Span) (value : Number) (isInteger : Bool)
  | string (span : Span) (value : List Text.Point)
  | boolean (span : Span) (value : Bool)
  | null (span : Span)
  | identifier (id : Identifier)
  | unary (span : Span) (op : UnaryOp) (operand : Node)
  | binary (span : Span) (op : BinaryOp) (left right : Node)
  | call (span : Span) (callee : Node) (args : List Argument)
  | index (span : Span) (target : Node) (indices : List Node) (double : Bool)
  | member (span : Span) (target : Node) (name : String)
  | block (block : Block)
  | assign (span : Span) (op : AssignOp) (target value : Node)
  | cond (span : Span) (condition : Node) (thenBlock : Block) (elseBlock? : Option Block)
  | whileLoop (span : Span) (condition : Node) (body : Block)
  | repeatLoop (span : Span) (body : Block)
  | forLoop (span : Span) (loopVar : Identifier) (iterable : Node) (body : Block)
  | function (span : Span) (params : List Parameter) (body : Block)
  | jump (span : Span) (kind : Jump) (payload? : Option Node)

end

structure Program where
  span : Span
  file : String
  body : List Node

/-- Anything that can stand as the root of a tree. -/
inductive Tree where
  | program (p : Program)
  | node (n : Node)
  | argument (a : Argument)
  | parameter (p : Parameter)

def Node.span : Node → Span
  | .number s .. | .string s _ | .boolean s _ | .null s => s
  | .identifier id => id.span
  | .unary s .. | .binary s .. | .call s .. | .index s .. | .member s .. => s
  | .block b => b.span
  | .assign s .. | .cond s .. | .whileLoop s .. | .repeatLoop s .. | .forLoop s ..
  | .function s .. | .jump s .. => s

/-- The name of a node's kind. -/
def Node.kind : Node → String
  | .number .. => "NumberLiteral"
  | .string .. => "StringLiteral"
  | .boolean .. => "BooleanLiteral"
  | .null .. => "NullLiteral"
  | .identifier .. => "Identifier"
  | .unary .. => "UnaryOp"
  | .binary .. => "BinaryOp"
  | .call .. => "FunctionCall"
  | .index .. => "IndexAccess"
  | .member .. => "MemberAccess"
  | .block .. => "Block"
  | .assign .. => "Assignment"
  | .cond .. => "IfStatement"
  | .whileLoop .. => "WhileLoop"
  | .repeatLoop .. => "RepeatLoop"
  | .forLoop .. => "ForLoop"
  | .function .. => "FunctionDef"
  | .jump .. => "Terminator"

def Node.isJump : Node → Bool
  | .jump .. => true
  | _ => false

/-- A condition that is the token `TRUE` or `FALSE`; compound conditions are not
looked into. -/
def Node.literal? : Node → Option Bool
  | .boolean _ v => some v
  | _ => none

/-- A body as a block: a block stands for itself, anything else is its only
statement. -/
def Node.asBlock : Node → Block
  | .block b => b
  | n => ⟨n.span, [n]⟩

/-! Node counts. Arguments, parameters and loop variables count as nodes. -/

mutual

def Node.size : Node → Nat
  | .number .. | .string .. | .boolean .. | .null .. | .identifier .. => 1
  | .unary _ _ x => 1 + x.size
  | .binary _ _ l r => 1 + l.size + r.size
  | .call _ f args => 1 + f.size + sizeArguments args
  | .index _ t xs _ => 1 + t.size + sizeNodes xs
  | .member _ t _ => 1 + t.size
  | .block b => b.size
  | .assign _ _ t v => 1 + t.size + v.size
  | .cond _ c t none => 1 + c.size + t.size
  | .cond _ c t (some e) => 1 + c.size + t.size + e.size
  | .whileLoop _ c b => 1 + c.size + b.size
  | .repeatLoop _ b => 1 + b.size
  | .forLoop _ _ x b => 2 + x.size + b.size
  | .function _ ps b => 1 + sizeParameters ps + b.size
  | .jump _ _ none => 1
  | .jump _ _ (some x) => 1 + x.size

def Block.size : Block → Nat
  | ⟨_, ss⟩ => 1 + sizeNodes ss

def Argument.size : Argument → Nat
  | ⟨_, _, v⟩ => 1 + v.size

def Parameter.size : Parameter → Nat
  | ⟨_, _, none⟩ => 1
  | ⟨_, _, some d⟩ => 1 + d.size

def sizeNodes : List Node → Nat
  | [] => 0
  | n :: ns => n.size + sizeNodes ns

def sizeArguments : List Argument → Nat
  | [] => 0
  | a :: as => a.size + sizeArguments as

def sizeParameters : List Parameter → Nat
  | [] => 0
  | p :: ps => p.size + sizeParameters ps

end

def Program.size (p : Program) : Nat := 1 + sizeNodes p.body

def Tree.size : Tree → Nat
  | .program p => p.size
  | .node n => n.size
  | .argument a => a.size
  | .parameter p => p.size

end Deadwood
