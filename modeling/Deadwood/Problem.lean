import Deadwood.Tree.Basic

/-! Problems a user can cause, their wording, and where they are reported. -/
namespace Deadwood

inductive Problem where
  | unmatchedBracket (char : String)
  | unclosedString
  | reservedWord (word : String)
  | unexpectedToken (details : String)
  | invalidCharacter (char : String)
  | unparsed (details : String)
  | unknownPass (name available : String)
  | tooFewRounds (value : String)
  | unknownStage (name : String)
deriving DecidableEq, Repr

namespace Problem

def text : Problem → String
  | .unmatchedBracket c => "Syntax Error: Unmatched bracket '" ++ c ++ "'."
  | .unclosedString => "Syntax Error: Unclosed string literal."
  | .reservedWord w => "Syntax Error: Cannot assign to reserved keyword '" ++ w ++ "'."
  | .unexpectedToken d => "Syntax Error: Invalid syntax. " ++ d
  | .invalidCharacter c => "Syntax Error: Invalid character '" ++ c ++ "' found."
  | .unparsed d => "Syntax Error: Could not parse the script. Details: " ++ d
  | .unknownPass n a => "Unknown optimization pass '" ++ n ++ "'. Available passes: " ++ a ++ "."
  | .tooFewRounds v =>
    "The maximum number of optimization rounds must be at least 1, got " ++ v ++ "."
  | .unknownStage n => "Unknown pipeline stage '" ++ n ++ "'."

/-- Problems without their details. -/
inductive Kind where
  | unmatchedBracket | unclosedString | reservedWord
  | unexpectedToken | invalidCharacter | unparsed
  | unknownPass | tooFewRounds | unknownStage
deriving DecidableEq, Repr

def kind : Problem → Kind
  | .unmatchedBracket _ => .unmatchedBracket
  | .unclosedString => .unclosedString
  | .reservedWord _ => .reservedWord
  | .unexpectedToken _ => .unexpectedToken
  | .invalidCharacter _ => .invalidCharacter
  | .unparsed _ => .unparsed
  | .unknownPass .. => .unknownPass
  | .tooFewRounds _ => .tooFewRounds
  | .unknownStage _ => .unknownStage

/-- A detail by name, or the name that is missing. -/
def detail (details : List (String × String)) (name : String) : Except String String :=
  match details.lookup name with
  | some v => .ok v
  | none => .error name

/-- A problem from named details. Details it does not mention are ignored; the first
one that is missing is the error. -/
def Kind.fill (k : Kind) (details : List (String × String)) : Except String Problem :=
  let get := detail details
  match k with
  | .unmatchedBracket => return .unmatchedBracket (← get "char")
  | .unclosedString => return .unclosedString
  | .reservedWord => return .reservedWord (← get "ident")
  | .unexpectedToken => return .unexpectedToken (← get "details")
  | .invalidCharacter => return .invalidCharacter (← get "char")
  | .unparsed => return .unparsed (← get "details")
  | .unknownPass => return .unknownPass (← get "name") (← get "available")
  | .tooFewRounds => return .tooFewRounds (← get "value")
  | .unknownStage => return .unknownStage (← get "name")

end Problem

/-- A problem with what is known of its place. -/
structure Report where
  problem : Problem
  span : Option Span := none
  file : Option String := none
  line : Option Int := none
deriving DecidableEq, Repr

namespace Report

/-- The name scripts have when they come without a file. -/
def unnamed : String := "<stdin>"

/-- A file name, unless it is absent or empty. -/
def named : Option String → Option String
  | some "" => none
  | f => f

/-- The line a report is about: where its span starts, else the line given. -/
def lineNumber (r : Report) : Option Int :=
  match r.span with
  | some s => some s.startLine
  | none => r.line

/-- Where a report points: a span, else a positive line, else a file. -/
def place (r : Report) : String :=
  match r.span with
  | some s =>
    "Error in '" ++ ((named s.file).or (named r.file)).getD unnamed ++ "' (Line: " ++
      toString s.startLine ++ ", Column: " ++ toString s.startCol ++ "):\n"
  | none =>
    if 0 < r.line.getD 0 then
      "Error in '" ++ (named r.file).getD unnamed ++ "' (Line: " ++ toString (r.line.getD 0) ++ "):\n"
    else match named r.file with
      | some f => "Error in '" ++ f ++ "': "
      | none => ""

def message (r : Report) : String := r.place ++ r.problem.text

end Report
end Deadwood
