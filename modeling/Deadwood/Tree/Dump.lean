import Deadwood.Text.Json
import Deadwood.Tree.Basic

/-! Trees as JSON documents. Every node is an object with its span first and the name of
its kind last. -/
namespace Deadwood

def Span.toJson (s : Span) : Json :=
  .object [("s_line", .int s.startLine), ("s_col", .int s.startCol), ("e_line", .int s.endLine),
    ("e_col", .int s.endCol), ("file_path", (s.file.map .string).getD .null)]

namespace Dump

def object (kind : String) (span : Span) (fields : List (String × Json)) : Json :=
  .object (("span", span.toJson) :: fields ++ [("node_type", .string kind)])

def number : Number → Json
  | .int n => .int n
  | .real x => .real x

def identifier (id : Identifier) : Json := object "Identifier" id.span [("name", .string id.name)]

mutual

def node : Node → Json
  | .number s v i => object "NumberLiteral" s [("value", number v), ("is_integer", .bool i)]
  | .string s v => object "StringLiteral" s [("value", .points v)]
  | .boolean s v => object "BooleanLiteral" s [("value", .bool v)]
  | .null s => object "NullLiteral" s []
  | .identifier id => identifier id
  | .unary s op x => object "UnaryOp" s [("op", .string op.text), ("operand", node x)]
  | .binary s op l r =>
    object "BinaryOp" s [("op", .string op.text), ("left", node l), ("right", node r)]
  | .call s f args => object "FunctionCall" s [("function", node f), ("args", .array (arguments args))]
  | .index s t xs d =>
    object "IndexAccess" s [("target", node t), ("index", .array (nodes xs)), ("double", .bool d)]
  | .member s t name => object "MemberAccess" s [("target", node t), ("member", .string name)]
  | .block b => block b
  | .assign s op t v =>
    object "Assignment" s [("op", .string op.text), ("target", node t), ("value", node v)]
  | .cond s c t none =>
    object "IfStatement" s [("condition", node c), ("then_block", block t), ("else_block", .null)]
  | .cond s c t (some e) =>
    object "IfStatement" s [("condition", node c), ("then_block", block t), ("else_block", block e)]
  | .whileLoop s c b => object "WhileLoop" s [("condition", node c), ("body", block b)]
  | .repeatLoop s b => object "RepeatLoop" s [("body", block b)]
  | .forLoop s v x b =>
    object "ForLoop" s [("variable", identifier v), ("iterable", node x), ("body", block b)]
  | .function s ps b => object "FunctionDef" s [("params", .array (parameters ps)), ("body", block b)]
  | .jump s k none => object "Terminator" s [("kind", .string k.word), ("payload", .null)]
  | .jump s k (some x) => object "Terminator" s [("kind", .string k.word), ("payload", node x)]

def block : Block → Json
  | ⟨s, ss⟩ => object "Block" s [("statements", .array (nodes ss))]

def argument : Argument → Json
  | ⟨s, name, v⟩ => object "Argument" s [("name", (name.map .string).getD .null), ("value", node v)]

def parameter : Parameter → Json
  | ⟨s, name, none⟩ => object "Parameter" s [("name", .string name), ("default", .null)]
  | ⟨s, name, some d⟩ => object "Parameter" s [("name", .string name), ("default", node d)]

def nodes : List Node → List Json
  | [] => []
  | n :: ns => node n :: nodes ns

def arguments : List Argument → List Json
  | [] => []
  | a :: as => argument a :: arguments as

def parameters : List Parameter → List Json
  | [] => []
  | p :: ps => parameter p :: parameters ps

end

end Dump

def Program.toJson (p : Program) : Json :=
  Dump.object "Program" p.span [("file_path", .string p.file), ("body", .array (Dump.nodes p.body))]

def Tree.toJson : Tree → Json
  | .program p => p.toJson
  | .node n => Dump.node n
  | .argument a => Dump.argument a
  | .parameter p => Dump.parameter p

end Deadwood
