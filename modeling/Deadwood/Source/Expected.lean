import Deadwood.Problem

/-! What a reader says when it is stuck: what could have come next, in words. -/
namespace Deadwood

namespace Expected

/-- Words for a terminal of the grammar, where there are better ones than its label. -/
def friendly : String → String
  | "NUMBER" => "a number"
  | "STRING" => "a string literal"
  | "NAME" => "a variable or function name"
  | "LPAR" => "an opening parenthesis '('"
  | "RPAR" => "a closing parenthesis ')'"
  | "LBRACE" => "an opening brace '\x7b'"
  | "RBRACE" => "a closing brace '\x7d'"
  | "LSQB" => "an opening bracket '['"
  | "RSQB" => "a closing bracket ']'"
  | "COMMA" => "a comma ','"
  | "SEMICOLON" => "a semicolon ';'"
  | "ASSIGN_OP" => "an assignment operator '<-'"
  | "EQUAL" => "an equals sign '='"
  | "_NL" => "a new line"
  | "_IF" => "the 'if' keyword"
  | "_ELSE" => "the 'else' keyword"
  | "_WHILE" => "the 'while' keyword"
  | "_FUNCTION" => "the 'function' keyword"
  | "$END" => "the end of the file"
  | label => label

/-- Distinct words in the order of their code points. -/
def sorted (words : List String) : List String :=
  (words.mergeSort fun a b => decide (a ≤ b)).eraseDups

/-- A sentence without its end, or nothing if there is nothing to say. -/
def describe (labels : List String) : String :=
  match (sorted (labels.map friendly)).reverse with
  | [] => ""
  | [w] => "Expected " ++ w
  | last :: ws => "Expected one of: " ++ String.intercalate ", " ws.reverse ++ " or " ++ last

end Expected

/-- Why a reader cannot go on. `expected` lists labels of terminals. -/
inductive Stuck where
  | atEnd (expected : List String)
  | atToken (label value : String) (line : Option Int) (expected : List String)
  | atCharacter (char : String) (line : Int)
  | elsewhere (message : String) (line : Int)
deriving DecidableEq, Repr

namespace Stuck

def endReached : String := "but reached the end of the file instead."

def problem : Stuck → Problem
  | .atEnd expected =>
    let wanted := Expected.describe expected
    .unexpectedToken (if wanted.isEmpty then "Unexpected end of file." else wanted ++ ", " ++ endReached)
  | .atToken label value _ expected =>
    let wanted := Expected.describe expected
    let found := if label == "$END" then endReached else "but found '" ++ value ++ "' instead."
    .unexpectedToken
      (if wanted.isEmpty then "Found unexpected token '" ++ value ++ "'." else wanted ++ ", " ++ found)
  | .atCharacter c _ => .invalidCharacter c
  | .elsewhere m _ => .unparsed m

def line : Stuck → Option Int
  | .atEnd _ => none
  | .atToken _ _ l _ => l
  | .atCharacter _ l | .elsewhere _ l => some l

def report (s : Stuck) (file : String) : Report :=
  { problem := s.problem, file := some file, line := s.line }

end Stuck
end Deadwood
