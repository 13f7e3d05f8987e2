import Deadwood.Problem
import Deadwood.Source.Keyword
import Deadwood.Text.Class
import Deadwood.Text.Lines

/-! Checks that run before parsing, for a precise message on common slips: brackets
that do not match, strings left open at the end of a line, and assignments to
reserved words. -/
namespace Deadwood.Screen
open Text

/-- The characters of a line outside strings and before a comment, and whether the line
ends inside a string. `quote` is the open string's quote. -/
def outside : Option Char → List Char → List Char × Bool
  | quote, [] => ([], quote.isSome)
  | some q, c :: r =>
    if c == '\\' then
      match r with
      | [] => ([], true)
      | _ :: r' => outside (some q) r'
    else outside (if c == q then none else some q) r
  | none, c :: r =>
    if c == '#' then ([], false)
    else if c == '"' || c == '\'' then outside (some c) r
    else
      let (cs, inside) := outside none r
      (c :: cs, inside)

/-- The bracket that closes an opening one. -/
def closer? : Char → Option Char
  | '(' => some ')'
  | '[' => some ']'
  | '{' => some '}'
  | _ => none

def isCloser (c : Char) : Bool := c == ')' || c == ']' || c == '}'

/-- Open brackets with their lines, innermost first. -/
abbrev Opened := List (Char × Nat)

/-- Match the brackets of one line. A closing bracket without its partner is the
error. -/
def matchLine (line : Nat) : Opened → List Char → Except Char Opened
  | opened, [] => .ok opened
  | opened, c :: r =>
    if (closer? c).isSome then matchLine line ((c, line) :: opened) r
    else if isCloser c then
      match opened with
      | (o, _) :: rest => if closer? o == some c then matchLine line rest r else .error c
      | [] => .error c
    else matchLine line opened r

/-- What the scan of brackets and strings finds first, with its line. -/
def scanFrom : Nat → Opened → List (List Char) → Option (Problem × Nat)
  | _, [], [] => none
  | _, (c, n) :: _, [] => some (.unmatchedBracket (String.singleton c), n)
  | line, opened, l :: ls =>
    let (cs, inside) := outside none l
    match matchLine line opened cs with
    | .error c => some (.unmatchedBracket (String.singleton c), line)
    | .ok opened =>
      if inside then some (.unclosedString, line) else scanFrom (line + 1) opened ls

def startsAssignment : List Char → Bool
  | '<' :: '<' :: '-' :: _ => true
  | '<' :: '-' :: _ => true
  | '=' :: '=' :: _ => false
  | '=' :: _ => true
  | _ => false

def continuesWord (c : Char) : Bool := isWord c || c == '.'

/-- The word a statement assigns to, when it starts with one. -/
def assignedWord? (cs : List Char) : Option String :=
  match cs.dropWhile isSpace with
  | [] => none
  | c :: r =>
    if (c.isAlpha || c == '.') && startsAssignment ((r.dropWhile continuesWord).dropWhile isSpace) then
      some (String.ofList (c :: r.takeWhile continuesWord))
    else none

/-- The first reserved word that a line assigns to, comments apart. -/
def reservedIn (line : List Char) : Option String :=
  (splitAt ';' (line.takeWhile (· != '#'))).findSome? fun s =>
    (assignedWord? s).filter fun w => (Keyword.ofText? w).isSome

def reservedFrom : Nat → List (List Char) → Option (Problem × Nat)
  | _, [] => none
  | line, l :: ls =>
    match reservedIn l with
    | some w => some (.reservedWord w, line)
    | none => reservedFrom (line + 1) ls

/-- The first problem found: brackets and strings of the whole text come first. -/
def find (text : List Char) : Option (Problem × Nat) :=
  (scanFrom 1 [] (lines text)).or (reservedFrom 1 (lines text))

/-- Pass a script on to the parser, or report what is wrong with it. -/
def check (source : String) (file : String) : Except Report Unit :=
  match find source.toList with
  | some (p, line) => .error { problem := p, file := some file, line := some line }
  | none => .ok ()

end Deadwood.Screen
