import Deadwood.Text.Point

/-! Escapes in string literals. A literal is first written in characters up to
`U+00FF`, others becoming `\u` or `\U` escapes; escapes are then decoded, and
positions in errors count the characters of that intermediate text. -/
namespace Deadwood.Text

inductive EscapeFault where
  | shortHex2 | shortHex4 | shortHex8
  | outOfRange
  | malformedName | unknownName
deriving DecidableEq, Repr

/-- A fault with the first and the last character it concerns. -/
structure EscapeError where
  fault : EscapeFault
  first : Nat
  last : Nat
deriving DecidableEq, Repr

def EscapeFault.text : EscapeFault → String
  | .shortHex2 => "truncated \\xXX escape"
  | .shortHex4 => "truncated \\uXXXX escape"
  | .shortHex8 => "truncated \\UXXXXXXXX escape"
  | .outOfRange => "illegal Unicode character"
  | .malformedName => "malformed \\N character escape"
  | .unknownName => "unknown Unicode character name"

def hexDigit (n : Nat) : Char := if n < 10 then .ofNat (48 + n) else .ofNat (87 + n)

/-- The lowest `width` hexadecimal digits of a number, lower case. -/
def hex : Nat → Nat → List Char
  | 0, _ => []
  | width + 1, n => hex width (n / 16) ++ [hexDigit (n % 16)]

/-- A character beyond `U+00FF` as an escape. -/
def widen (c : Char) : List Char :=
  if c.toNat < 256 then [c]
  else if c.toNat < 65536 then '\\' :: 'u' :: hex 4 c.toNat
  else '\\' :: 'U' :: hex 8 c.toNat

def hexValue? (c : Char) : Option Nat :=
  if c.isDigit then some (c.toNat - 48)
  else if 'a' ≤ c && c ≤ 'f' then some (c.toNat - 87)
  else if 'A' ≤ c && c ≤ 'F' then some (c.toNat - 55)
  else none

def isOctal (c : Char) : Bool := '0' ≤ c && c ≤ '7'

/-- The number that hexadecimal digits write. -/
def hexNumber (ds : List Char) : Nat := ds.foldl (fun n c => 16 * n + (hexValue? c).getD 0) 0

/-- An escape of exactly `width` hexadecimal digits, after its letter. Two surrogates in a
row do not make a character. -/
def hexEscape (fault : EscapeFault) (width pos : Nat) (r : List Char) :
    Except EscapeError (List Point × Nat) :=
  let ds := ((r.take width).takeWhile fun c => (hexValue? c).isSome)
  if ds.length < width then .error ⟨fault, pos, pos + 1 + ds.length⟩
  else
    let n := hexNumber ds
    if 0x10FFFF < n then .error ⟨.outOfRange, pos, pos + 1 + width⟩
    else .ok ([.ofNat n], width + 1)

/-- A `\N` escape, after its letter. -/
def namedEscape [CharNames] (pos : Nat) (r : List Char) : Except EscapeError (List Point × Nat) :=
  match r with
  | '{' :: s =>
    let name := s.takeWhile (· != '}')
    if name.length == s.length then .error ⟨.malformedName, pos, pos + 2 + name.length⟩
    else if name.isEmpty then .error ⟨.malformedName, pos, pos + 2⟩
    else match CharNames.char? name with
      | some c => .ok ([.char c], name.length + 3)
      | none => .error ⟨.unknownName, pos, pos + 3 + name.length⟩
  | _ => .error ⟨.malformedName, pos, pos + 1⟩

/-- What the escape at `pos` stands for, and how many characters it takes after the
backslash. A backslash before any other character stands for itself. -/
def escape [CharNames] (pos : Nat) : List Char → Except EscapeError (List Point × Nat)
  | [] => .ok ([.char '\\'], 0)
  | c :: r =>
    if c == '\\' || c == '\'' || c == '"' then .ok ([.char c], 1)
    else if c == 'a' then .ok ([.char '\x07'], 1)
    else if c == 'b' then .ok ([.char '\x08'], 1)
    else if c == 'f' then .ok ([.char '\x0c'], 1)
    else if c == 'n' then .ok ([.char '\n'], 1)
    else if c == 'r' then .ok ([.char '\r'], 1)
    else if c == 't' then .ok ([.char '\t'], 1)
    else if c == 'v' then .ok ([.char '\x0b'], 1)
    else if isOctal c then
      let ds := ((c :: r).take 3).takeWhile isOctal
      .ok ([.ofNat (ds.foldl (fun n d => 8 * n + (d.toNat - 48)) 0)], ds.length)
    else if c == 'x' then hexEscape .shortHex2 2 pos r
    else if c == 'u' then hexEscape .shortHex4 4 pos r
    else if c == 'U' then hexEscape .shortHex8 8 pos r
    else if c == 'N' then namedEscape pos r
    else .ok ([.char '\\', .char c], 1)

/-- Decode from position `pos` on; the next `skip` characters belong to an escape
already decoded. -/
def decodeFrom [CharNames] : Nat → Nat → List Char → Except EscapeError (List Point)
  | _, _, [] => .ok []
  | skip + 1, pos, _ :: r => decodeFrom skip (pos + 1) r
  | 0, pos, c :: r =>
    if c == '\\' then do
      let (out, used) ← escape pos r
      return out ++ (← decodeFrom used (pos + 1) r)
    else do
      return .char c :: (← decodeFrom 0 (pos + 1) r)

/-- The value of the text between a literal's quotes. -/
def decode [CharNames] (cs : List Char) : Except EscapeError (List Point) :=
  decodeFrom 0 0 (cs.flatMap widen)

/-- A character of a literal. Backslashes, double quotes, line feeds and tabs are escaped. -/
def escaped (c : Char) : List Char :=
  if c == '\\' then ['\\', '\\']
  else if c == '"' then ['\\', '"']
  else if c == '\n' then ['\\', 'n']
  else if c == '\t' then ['\\', 't']
  else [c]

/-- A code point of a literal. -/
def Point.escaped : Point → List Char
  | .char c => Text.escaped c
  | .lone s => '\\' :: 'u' :: hex 4 s.code

/-- The text that `decode` reads as `ps`. -/
def encode (ps : List Point) : List Char := ps.flatMap Point.escaped

/-- Code points as a double-quoted literal. -/
def literal (ps : List Point) : String := "\"" ++ String.ofList (encode ps) ++ "\""

/-- A string as a double-quoted literal. -/
def quoted (s : String) : String := literal (points s)

end Deadwood.Text
