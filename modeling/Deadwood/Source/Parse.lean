import Deadwood.Source.Expected
import Deadwood.Source.Grammar
import Deadwood.Source.Screen

/-! From script text to a program. -/
namespace Deadwood

inductive ParseError where
  | report (r : Report)
  | misread (m : Misread)
deriving DecidableEq, Repr

namespace Grammar

def read [Text.CharNames] (file : String) (tokens : List Token) : Except (List Token) (List Node × Cursor) :=
  script.run ⟨tokens, none, file⟩

/-- Whether a lexeme can come after all of `tokens`. -/
def expects [Text.CharNames] (tokens : List Token) (l : Lexeme) : Bool :=
  match read "" (tokens ++ [⟨l, ' ', ⟨0, 0⟩, ⟨0, 0⟩⟩]) with
  | .ok _ => true
  | .error rest => rest.isEmpty

/-- One lexeme for each terminal of the grammar. -/
def terminals : List (String × Lexeme) :=
  [("_NL", .newline), ("SEMICOLON", .semicolon), ("EQUAL", .equals), ("ASSIGN_OP", .assign .arrow),
   ("_IF", .keyword .ifWord), ("_ELSE", .keyword .elseWord), ("_WHILE", .keyword .whileWord),
   ("_REPEAT", .keyword .repeatWord), ("_FOR", .keyword .forWord), ("_IN", .keyword .inWord),
   ("_FUNCTION", .keyword .functionWord), ("_BREAK", .keyword .breakWord),
   ("_NEXT", .keyword .nextWord), ("TRUE", .keyword .trueWord), ("FALSE", .keyword .falseWord),
   ("NULL", .keyword .nullWord), ("NAME", .name "x"), ("NUMBER", .number "1"),
   ("STRING", .string "''"), ("COMMA", .comma), ("DOLLAR", .dollar), ("LPAR", .openParen),
   ("RPAR", .closeParen), ("LBRACE", .openBrace), ("RBRACE", .closeBrace), ("LSQB", .openBracket),
   ("RSQB", .closeBracket false), ("__ANON_0", .openDouble), ("NOT_OP", .not),
   ("OR_OP", .op .lazyOr), ("AND_OP", .op .lazyAnd), ("COMP_OP", .op (.rel .eq)),
   ("ADD_OP", .op (.arith .add)), ("MUL_OP", .op (.arith .mul)), ("SPECIAL_OP", .op (.arith .mod)),
   ("RANGE_OP", .op .range), ("POW_OP", .op (.arith .pow))]

/-- The labels of the terminals that can come next. A pair of brackets closes `[[` just
where a single one cannot. -/
def expected [Text.CharNames] (tokens : List Token) : List String :=
  let labels := (terminals.filter fun t => expects tokens t.2).map (·.1)
  if expects tokens (.closeBracket true) && !expects tokens (.closeBracket false) then
    labels ++ ["__ANON_1"]
  else labels

/-- Why reading stopped before `rest`. -/
def stuck [Text.CharNames] (tokens rest : List Token) : Stuck :=
  match rest with
  | [] => .atEnd (expected tokens)
  | t :: _ => .atCharacter (String.singleton t.lead) t.start.line

end Grammar

namespace Program

/-- From the first token to the last. -/
def extent (file : String) (tokens : List Token) : Span :=
  match tokens.head?, tokens.getLast? with
  | some a, some b => .between file a.start b.stop
  | _, _ => .between file ⟨1, 1⟩ ⟨1, 1⟩

/-- Read tokens as a program. -/
def ofTokens [Text.CharNames] (file : String) (tokens : List Token) : Except ParseError Program :=
  match Grammar.read file tokens with
  | .error rest => .error (.report ((Grammar.stuck tokens rest).report file))
  | .ok (body, c) =>
    match c.misread with
    | some m => .error (.misread m)
    | none => .ok ⟨extent file tokens, file, body⟩

/-- Screen a script and read it. -/
def parse [Text.CharNames] (source : String) (file : String) : Except ParseError Program :=
  match Screen.check source file with
  | .error r => .error (.report r)
  | .ok () => ofTokens file (Token.cut source.toList)

end Program
end Deadwood
