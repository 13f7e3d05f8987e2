import Deadwood.Tree.Basic

/-! What pruning guarantees of a program, checked. The first violation is reported with
the path that leads to it. -/
namespace Deadwood

inductive Rule where
  | nestedBlock | literalIf | deadLoop
  | unreachable (kind : Jump)
deriving DecidableEq, Repr

def Rule.text : Rule → String
  | .nestedBlock => "A block directly contains a nested block."
  | .literalIf => "An 'if' with a literal condition was not collapsed."
  | .deadLoop => "A 'while (FALSE)' loop was not removed."
  | .unreachable k => "Unreachable statement after '" ++ k.word ++ "'."

/-- A broken rule, the node it is blamed on, and the path to the statement that was
looked at. -/
structure Violation where
  rule : Rule
  kind : String
  line : Int
  path : List String
deriving DecidableEq, Repr

namespace Violation

def of (rule : Rule) (n : Node) (path : List String) : Violation := ⟨rule, n.kind, n.span.startLine, path⟩

def location (v : Violation) : String :=
  if v.path.isEmpty then "<program>" else String.intercalate " > " v.path

def message (v : Violation) : String :=
  "\n\nAST VALIDATION FAILED at " ++ v.location ++ " (line " ++ toString v.line ++ "):\n--> " ++
    v.rule.text ++ "\n--> Offending Node: " ++ v.kind ++ "\n"

end Violation

namespace Validate

def item (path : List String) (index : Nat) : List String := path ++ ["[" ++ toString index ++ "]"]

/-- The rule a statement breaks, given what follows it in its sequence. -/
def statement? (path : List String) (n : Node) (rest : List Node) : Option Violation :=
  match n, rest with
  | .block _, _ => some (.of .nestedBlock n path)
  | .cond _ c _ _, _ => if c.literal?.isSome then some (.of .literalIf n path) else none
  | .whileLoop _ c _, _ => if c.literal? = some false then some (.of .deadLoop n path) else none
  | .jump _ k _, next :: _ => some (.of (.unreachable k) next path)
  | _, _ => none

mutual

/-- The first violation in a statement sequence, from position `index` on. -/
def sequence (path : List String) (index : Nat) : List Node → Option Violation
  | [] => none
  | n :: ns =>
    let here := item path index
    ((statement? here n ns).or (node here false n)).or (sequence path (index + 1) ns)

/-- The first violation below a node. A block is a statement sequence when a field
holds it; as a list item only what is below its statements counts. Jumps and the
conditions of `if` and `while` are not entered. -/
def node (path : List String) (field : Bool) : Node → Option Violation
  | .number .. | .string .. | .boolean .. | .null .. | .identifier .. | .jump .. => none
  | .unary _ _ x => node (path ++ ["operand"]) true x
  | .binary _ _ l r => (node (path ++ ["left"]) true l).or (node (path ++ ["right"]) true r)
  | .call _ f args =>
    (node (path ++ ["function"]) true f).or (arguments (path ++ ["args"]) 0 args)
  | .index _ t xs _ => (node (path ++ ["target"]) true t).or (items (path ++ ["index"]) 0 xs)
  | .member _ t _ => node (path ++ ["target"]) true t
  | .block ⟨_, ss⟩ => if field then sequence path 0 ss else items (path ++ ["statements"]) 0 ss
  | .assign _ _ t v => (node (path ++ ["target"]) true t).or (node (path ++ ["value"]) true v)
  | .cond _ _ t none => block (path ++ ["then_block"]) t
  | .cond _ _ t (some e) => (block (path ++ ["then_block"]) t).or (block (path ++ ["else_block"]) e)
  | .whileLoop _ _ b => block (path ++ ["body"]) b
  | .repeatLoop _ b => block (path ++ ["body"]) b
  | .forLoop _ _ x b => (node (path ++ ["iterable"]) true x).or (block (path ++ ["body"]) b)
  | .function _ ps b => (parameters (path ++ ["params"]) 0 ps).or (block (path ++ ["body"]) b)

def block (path : List String) : Block → Option Violation
  | ⟨_, ss⟩ => sequence path 0 ss

def items (path : List String) (index : Nat) : List Node → Option Violation
  | [] => none
  | n :: ns => (node (item path index) false n).or (items path (index + 1) ns)

def arguments (path : List String) (index : Nat) : List Argument → Option Violation
  | [] => none
  | ⟨_, _, v⟩ :: as =>
    (node (item path index ++ ["value"]) true v).or (arguments path (index + 1) as)

def parameters (path : List String) (index : Nat) : List Parameter → Option Violation
  | [] => none
  | ⟨_, _, none⟩ :: ps => parameters path (index + 1) ps
  | ⟨_, _, some d⟩ :: ps =>
    (node (item path index ++ ["default"]) true d).or (parameters path (index + 1) ps)

end

end Validate

/-- The first violation of a program, if it has one. -/
def Program.violation? (p : Program) : Option Violation := Validate.sequence ["body"] 0 p.body

end Deadwood
