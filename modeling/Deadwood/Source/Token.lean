import Deadwood.Source.Keyword
import Deadwood.Text.Class
import Deadwood.Tree.Basic

/-! Tokens of a script. Text is cut into lexemes, each as long as its class allows;
blanks and comments belong to none. Line breaks are lexemes, because they separate
statements. -/
namespace Deadwood
open Text

/-- `closeBracket` tells whether another `]` follows at once, so that a pair can close
`[[`. `stray` is a character that starts no lexeme. -/
inductive Lexeme where
  | newline | semicolon | comma | equals | dollar
  | openParen | closeParen | openBrace | closeBrace
  | openBracket | openDouble
  | closeBracket (paired : Bool)
  | keyword (word : Keyword)
  | name (text : String)
  | number (text : String)
  | string (text : String)
  | assign (op : AssignOp)
  | not
  | op (op : BinaryOp)
  | stray (char : Char)
deriving DecidableEq, Repr

structure Position where
  line : Nat
  col : Nat
deriving DecidableEq, Repr

def Position.next (p : Position) (c : Char) : Position :=
  if c == '\n' then ⟨p.line + 1, 1⟩ else ⟨p.line, p.col + 1⟩

/-- One column past the last of the characters that start at `p`. -/
def Position.past (p : Position) (cs : List Char) : Position :=
  let last := cs.dropLast.foldl Position.next p
  ⟨last.line, last.col + 1⟩

/-- A lexeme in its place. `lead` is the character to blame when it is unexpected. -/
structure Token where
  lexeme : Lexeme
  lead : Char
  start : Position
  stop : Position
deriving DecidableEq, Repr

namespace Lexeme

def isBlank (c : Char) : Bool := c == ' ' || c == '\t' || c == '\x0c' || c == '\r'

def continuesName (c : Char) : Bool := isWord c || c == '.'

/-- Whether a text is a name: it starts with a letter, or with a point before no ASCII
digit. Reserved words count. -/
def isName : List Char → Bool
  | '.' :: c :: r => !c.isDigit && (c :: r).all continuesName
  | c :: r => (c.isAlpha || c == '.') && r.all continuesName
  | [] => false

/-- The length of a run of line breaks. -/
def newlines : List Char → Nat
  | '\n' :: r => newlines r + 1
  | '\r' :: '\n' :: r => newlines r + 2
  | _ => 0

/-- The length of a string literal after its opening quote, if it is closed. -/
def stringTail (quote : Char) : List Char → Option Nat
  | [] => none
  | '\\' :: c :: r => if c == '\n' then none else (stringTail quote r).map (· + 2)
  | c :: r =>
    if c == quote then some 1
    else if c == '\n' || c == '\\' then none
    else (stringTail quote r).map (· + 1)

/-- The length of a `%name%` operator after its first percent sign, if it is closed. -/
def percentTail : List Char → Option Nat
  | [] => none
  | c :: r =>
    if c == '%' then some 1
    else if isSpace c then none
    else (percentTail r).map (· + 1)

/-- The length of an exponent, zero if there is none. -/
def exponentLength : List Char → Nat
  | e :: s :: r =>
    if e == 'e' || e == 'E' then
      let signed := s == '+' || s == '-'
      let ds := ((if signed then r else s :: r).takeWhile isDecimal).length
      if ds == 0 then 0 else ds + if signed then 2 else 1
    else 0
  | _ => 0

/-- The length of the number at the front of a text, if there is one: digits around an
optional point, an exponent and the suffix `L`. -/
def numberLength? (cs : List Char) : Option Nat :=
  let whole := (cs.takeWhile isDecimal).length
  let mantissa := match cs.drop whole with
    | '.' :: r => whole + 1 + (r.takeWhile isDecimal).length
    | _ => whole
  if whole == 0 && mantissa < 2 then none
  else
    let n := mantissa + exponentLength (cs.drop mantissa)
    some (n + if (cs.drop n).head? == some 'L' then 1 else 0)

def word (cs : List Char) : Lexeme :=
  let s := String.ofList cs
  match Keyword.ofText? s with
  | some k => .keyword k
  | none => .name s

/-- A name or reserved word and its length after the first character. -/
def scanWord (c : Char) (r : List Char) : Lexeme × Nat :=
  let tail := r.takeWhile continuesName
  (word (c :: tail), tail.length)

/-- A number and its length after the first character. -/
def scanNumber (c : Char) (r : List Char) : Option (Lexeme × Nat) :=
  (numberLength? (c :: r)).map fun n => (.number (String.ofList ((c :: r).take n)), n - 1)

/-- A lexeme that starts with a letter, a digit or a point. A point and a digit that is
not ASCII can start a number or a name; the name is taken where the number would be
cut short. -/
def scanWordOrNumber (c : Char) (r : List Char) : Lexeme × Nat :=
  if c.isAlpha then scanWord c r
  else match scanNumber c r with
    | some (l, n) =>
      if c == '.' && isName (c :: r.take 1) && ((r.drop n).head?.map continuesName).getD false
      then scanWord c r else (l, n)
    | none => if c == '.' then scanWord c r else (.stray c, 0)

/-- The lexeme at the front of a text and the number of its further characters.
Blanks and comments give no lexeme. -/
def scan (c : Char) (r : List Char) : Option Lexeme × Nat :=
  let one (l : Lexeme) : Option Lexeme × Nat := (some l, 0)
  let two (l : Lexeme) : Option Lexeme × Nat := (some l, 1)
  let next := r.head?
  if c == '\n' then (some .newline, newlines r)
  else if c == '\r' && next == some '\n' then (some .newline, newlines r)
  else if isBlank c then (none, (r.takeWhile isBlank).length)
  else match c with
    | '#' => (none, (r.takeWhile (· != '\n')).length)
    | ';' => one .semicolon
    | ',' => one .comma
    | '$' => one .dollar
    | '(' => one .openParen
    | ')' => one .closeParen
    | '{' => one .openBrace
    | '}' => one .closeBrace
    | '[' => if next == some '[' then two .openDouble else one .openBracket
    | ']' => one (.closeBracket (next == some ']'))
    | '=' => if next == some '=' then two (.op (.rel .eq)) else one .equals
    | '!' => if next == some '=' then two (.op (.rel .ne)) else one .not
    | '>' => if next == some '=' then two (.op (.rel .ge)) else one (.op (.rel .gt))
    | '<' =>
      if next == some '=' then two (.op (.rel .le))
      else if next == some '-' then two (.assign .arrow)
      else if next == some '<' then
        if (r.drop 1).head? == some '-' then (some (.assign .superArrow), 2) else one (.stray '<')
      else one (.op (.rel .lt))
    | '|' => if next == some '|' then two (.op .lazyOr) else one (.op .or)
    | '&' => if next == some '&' then two (.op .lazyAnd) else one (.op .and)
    | '+' => one (.op (.arith .add))
    | '-' => one (.op (.arith .sub))
    | '*' => one (.op (.arith .mul))
    | '/' => one (.op (.arith .div))
    | '^' => one (.op (.arith .pow))
    | ':' => one (.op .range)
    | '%' =>
      match percentTail r with
      | some n => (some (.op (.ofText (String.ofList ('%' :: r.take n)))), n)
      | none => one (.stray '%')
    | _ =>
      if c == '"' || c == '\'' then
        match stringTail c r with
        | some n => (some (.string (String.ofList (c :: r.take n))), n)
        | none => one (.stray c)
      else
        let (l, n) := scanWordOrNumber c r
        (some l, n)

/-- The name a lexeme can stand for. Some numbers are names too. -/
def name? : Lexeme → Option String
  | .name s => some s
  | .number s => if isName s.toList then some s else none
  | _ => none

end Lexeme

namespace Token

/-- The tokens from position `p` on; the next `skip` characters belong to the lexeme
already cut. A line break is blamed on its line feed. -/
def cutFrom : Nat → Position → List Char → List Token
  | _, _, [] => []
  | skip + 1, p, c :: r => cutFrom skip (p.next c) r
  | 0, p, c :: r =>
    match Lexeme.scan c r with
    | (none, n) => cutFrom n (p.next c) r
    | (some l, n) =>
      ⟨l, if l = .newline then '\n' else c, p, p.past (c :: r.take n)⟩ :: cutFrom n (p.next c) r

def cut (source : List Char) : List Token := cutFrom 0 ⟨1, 1⟩ source

end Token
end Deadwood
