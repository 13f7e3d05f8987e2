import Deadwood.Number.Decimal
import Deadwood.Text.Escape

/-! JSON text: two spaces a level, ASCII only, fields in the order given. -/
namespace Deadwood

inductive Json where
  | null
  | bool (value : Bool)
  | int (value : Int)
  | real (value : Double)
  | string (value : String)
  | points (value : List Text.Point)
  | array (items : List Json)
  | object (fields : List (String × Json))

namespace Json

def unitEscape (n : Nat) : List Char := '\\' :: 'u' :: Text.hex 4 n

/-- A character inside a JSON string. Characters beyond `U+FFFF` take two units. -/
def escapeChar (c : Char) : List Char :=
  let n := c.toNat
  if c == '"' then ['\\', '"']
  else if c == '\\' then ['\\', '\\']
  else if c == '\n' then ['\\', 'n']
  else if c == '\r' then ['\\', 'r']
  else if c == '\t' then ['\\', 't']
  else if n == 8 then ['\\', 'b']
  else if n == 12 then ['\\', 'f']
  else if 32 ≤ n && n < 127 then [c]
  else if n < 0x10000 then unitEscape n
  else unitEscape (0xD800 + (n - 0x10000) / 0x400) ++ unitEscape (0xDC00 + (n - 0x10000) % 0x400)

def escapePoint : Text.Point → List Char
  | .char c => escapeChar c
  | .lone s => unitEscape s.code

def quotePoints (ps : List Text.Point) : String := "\"" ++ String.ofList (ps.flatMap escapePoint) ++ "\""

def quote (s : String) : String := quotePoints (Text.points s)

def realText (x : Double) : String :=
  match x with
  | .infinite s => if s then "-Infinity" else "Infinity"
  | x => x.text

/-- A line break and the indentation of a level. -/
def breakTo (level : Nat) : String := "\n" ++ String.ofList (List.replicate (2 * level) ' ')

/-- Items between an opening and a closing mark, each on its own line. -/
def enclosed (opening closing : String) (level : Nat) (items : List String) : String :=
  if items.isEmpty then opening ++ closing
  else opening ++ String.intercalate "," (items.map (breakTo (level + 1) ++ ·)) ++ breakTo level ++ closing

mutual

def render (level : Nat) : Json → String
  | .null => "null"
  | .bool v => if v then "true" else "false"
  | .int n => toString n
  | .real x => realText x
  | .string s => quote s
  | .points ps => quotePoints ps
  | .array xs => enclosed "[" "]" level (renderItems (level + 1) xs)
  | .object fs => enclosed "\x7b" "\x7d" level (renderFields (level + 1) fs)

def renderItems (level : Nat) : List Json → List String
  | [] => []
  | x :: xs => render level x :: renderItems level xs

def renderFields (level : Nat) : List (String × Json) → List String
  | [] => []
  | (k, v) :: fs => (quote k ++ ": " ++ render level v) :: renderFields level fs

end

def text (j : Json) : String := j.render 0

end Json
end Deadwood
