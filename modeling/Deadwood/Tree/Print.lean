import Deadwood.Source.Token
import Deadwood.Text.Escape
import Deadwood.Tree.Basic

/-! Printing trees as script text. The layout is canonical: every body is braced, every
statement has its own line, and parentheses stand only where binding strength asks for
them. -/
namespace Deadwood

inductive PrintError where
  | unknownUnary (op : String)
  | unknownBinary (op : String)
  | infiniteInteger
  | unprintable (kind : String)
deriving DecidableEq, Repr

def PrintError.message : PrintError → String
  | .unknownUnary op => op
  | .unknownBinary op => "Unknown binary operator '" ++ op ++ "'"
  | .infiniteInteger => "cannot convert float infinity to integer"
  | .unprintable kind => "Cannot print node of type '" ++ kind ++ "'"

/-! Binding strengths, loosest first. -/

def UnaryOp.precedence? : UnaryOp → Option Nat
  | .not => some 3
  | .neg | .pos => some 9
  | .unknown _ => none

def BinaryOp.precedence? : BinaryOp → Option Nat
  | .lazyOr | .or => some 1
  | .lazyAnd | .and => some 2
  | .rel _ => some 4
  | .arith .add | .arith .sub => some 5
  | .arith .mul | .arith .div => some 6
  | .arith .mod | .arith .quot | .special _ => some 7
  | .range => some 8
  | .arith .pow => some 10
  | .unknown _ => none

def UnaryOp.precedence (op : UnaryOp) : Except PrintError Nat :=
  match op.precedence? with
  | some n => .ok n
  | none => .error (.unknownUnary op.text)

def BinaryOp.precedence (op : BinaryOp) : Except PrintError Nat :=
  match op.precedence? with
  | some n => .ok n
  | none => .error (.unknownBinary op.text)

/-- The strength of everything that is no operator and no control expression. -/
def atomic : Nat := 100

/-- A negative number binds like the sign it is written with. -/
def Node.precedence : Node → Nat
  | .binary _ op _ _ => op.precedence?.getD atomic
  | .unary _ op _ => op.precedence?.getD atomic
  | .number _ v _ => if v.isNegative then 9 else atomic
  | .assign .. | .cond .. | .whileLoop .. | .repeatLoop .. | .forLoop .. | .function .. => 0
  | _ => atomic

namespace Print

/-- Parenthesise a node's text if the node binds looser than `strength`, or not
tighter when `strict` holds. -/
def wrap (n : Node) (strength : Nat) (strict : Bool) (text : String) : String :=
  if n.precedence < strength || (strict && n.precedence == strength) then "(" ++ text ++ ")" else text

/-- The left side of `^` and both sides of a relation must bind tighter. -/
def strictLeft : BinaryOp → Bool
  | .rel _ | .arith .pow => true
  | _ => false

/-- The right side must bind tighter, except that of `^`. -/
def strictRight : BinaryOp → Bool
  | .arith .pow => false
  | _ => true

/-- `:` is written without spaces. -/
def infixed (op : BinaryOp) (l r : String) : String :=
  match op with
  | .range => l ++ ":" ++ r
  | _ => l ++ " " ++ op.text ++ " " ++ r

/-- Whole doubles below this magnitude are written as integers. -/
def wholeMax : Nat := Nat.pow 10 15

def number (v : Number) (isInteger : Bool) : Except PrintError String :=
  if isInteger then
    match v.truncate? with
    | some n => .ok (toString n ++ "L")
    | none => .error .infiniteInteger
  else match v with
    | .int n => .ok (toString n)
    | .real x =>
      if x.isWhole && x.magnitude < wholeMax * Double.unit then .ok (toString (x.truncate?.getD 0))
      else .ok x.text

/-- A name that needs no quotes; one line feed at its end is not looked at. -/
def isPlainName (s : String) : Bool :=
  let cs := s.toList
  Lexeme.isName cs || (cs.getLast? == some '\n' && Lexeme.isName cs.dropLast)

def argumentName (s : String) : String := if isPlainName s then s else Text.quoted s

/-- The indentation of a level; levels below zero have none. -/
def pad (indent : String) (level : Int) : String := String.join (List.replicate level.toNat indent)

/-- Lines in braces, one level deeper than the braces. -/
def braced (indent : String) (level : Int) (lines : List String) : String :=
  if lines.isEmpty then "\x7b\x7d"
  else "\x7b\n" ++ String.intercalate "\n" (lines.map (pad indent (level + 1) ++ ·)) ++ "\n" ++
    pad indent level ++ "\x7d"

/-- A lone `if` after `else` continues the chain on the same line. -/
def isElseIf : List Node → Bool
  | [.cond ..] => true
  | _ => false

mutual

/-- The text of a node. Its first line starts where the text is put, the others are
indented for `level`. -/
def node (indent : String) (level : Int) : Node → Except PrintError String
  | .number _ v isInteger => number v isInteger
  | .string _ ps => .ok (Text.literal ps)
  | .boolean _ v => .ok (if v then "TRUE" else "FALSE")
  | .null _ => .ok "NULL"
  | .identifier id => .ok id.name
  | .unary _ op x => do
    let strength ← op.precedence
    return op.text ++ wrap x strength false (← node indent level x)
  | .binary _ op l r => do
    let strength ← op.precedence
    let left := wrap l strength (strictLeft op) (← node indent level l)
    let right := wrap r strength (strictRight op) (← node indent level r)
    return infixed op left right
  | .call _ f args => do
    let callee := wrap f atomic false (← node indent level f)
    return callee ++ "(" ++ String.intercalate ", " (← arguments indent level args) ++ ")"
  | .index _ t xs double => do
    let target := wrap t atomic false (← node indent level t)
    let inner := String.intercalate ", " (← nodes indent level xs)
    return target ++ (if double then "[[" ++ inner ++ "]]" else "[" ++ inner ++ "]")
  | .member _ t name => return wrap t atomic false (← node indent level t) ++ "$" ++ name
  | .block b => block indent level b
  | .assign _ op t v =>
    return (← node indent level t) ++ " " ++ op.text ++ " " ++ (← node indent level v)
  | .cond _ c t none =>
    return "if (" ++ (← node indent level c) ++ ") " ++ (← block indent level t)
  | .cond _ c t (some e) =>
    return "if (" ++ (← node indent level c) ++ ") " ++ (← block indent level t) ++ " else " ++
      (← alternative indent level e)
  | .whileLoop _ c b =>
    return "while (" ++ (← node indent level c) ++ ") " ++ (← block indent level b)
  | .repeatLoop _ b => return "repeat " ++ (← block indent level b)
  | .forLoop _ v x b =>
    return "for (" ++ v.name ++ " in " ++ (← node indent level x) ++ ") " ++ (← block indent level b)
  | .function _ ps b =>
    return "function(" ++ String.intercalate ", " (← parameters indent level ps) ++ ") " ++
      (← block indent level b)
  | .jump _ .ret none => .ok "return()"
  | .jump _ .ret (some x) => return "return(" ++ (← node indent level x) ++ ")"
  | .jump _ kind _ => .ok kind.word

def block (indent : String) (level : Int) : Block → Except PrintError String
  | ⟨_, ss⟩ => return braced indent level (← nodes indent (level + 1) ss)

/-- What follows `else`. -/
def alternative (indent : String) (level : Int) : Block → Except PrintError String
  | ⟨_, ss⟩ =>
    if isElseIf ss then return String.join (← nodes indent level ss)
    else return braced indent level (← nodes indent (level + 1) ss)

def nodes (indent : String) (level : Int) : List Node → Except PrintError (List String)
  | [] => .ok []
  | n :: ns => return (← node indent level n) :: (← nodes indent level ns)

def arguments (indent : String) (level : Int) : List Argument → Except PrintError (List String)
  | [] => .ok []
  | ⟨_, none, v⟩ :: as => return (← node indent level v) :: (← arguments indent level as)
  | ⟨_, some name, v⟩ :: as =>
    return (argumentName name ++ " = " ++ (← node indent level v)) :: (← arguments indent level as)

def parameters (indent : String) (level : Int) : List Parameter → Except PrintError (List String)
  | [] => .ok []
  | ⟨_, name, none⟩ :: ps => return name :: (← parameters indent level ps)
  | ⟨_, name, some d⟩ :: ps =>
    return (name ++ " = " ++ (← node indent level d)) :: (← parameters indent level ps)

end

end Print

/-- The indentation used unless another is asked for. -/
def Print.defaultIndent : String := "  "

/-- A program's statements, each ended by a line feed. -/
def Program.print (p : Program) (indent : String := Print.defaultIndent) : Except PrintError String := do
  let lines ← Print.nodes indent 0 p.body
  return String.join (lines.map (· ++ "\n"))

/-- Arguments and parameters have no text of their own. -/
def Tree.print (t : Tree) (indent : String) (level : Int) : Except PrintError String :=
  match t with
  | .program p => p.print indent
  | .node n => Print.node indent level n
  | .argument _ => .error (.unprintable "Argument")
  | .parameter _ => .error (.unprintable "Parameter")

end Deadwood
