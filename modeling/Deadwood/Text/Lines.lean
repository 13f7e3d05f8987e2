/-! Lines of a text. A line ends at a line feed, a carriage return (alone or with
its line feed) or one of the other line boundaries; the last line needs no end. -/
namespace Deadwood.Text

def isLineEnd (c : Char) : Bool :=
  (10 ≤ c.toNat && c.toNat ≤ 13) || (28 ≤ c.toNat && c.toNat ≤ 30) ||
    c.toNat == 133 || c.toNat == 8232 || c.toNat == 8233

/-- Add a character to the front of the first line. -/
def consLine (c : Char) : List (List Char) → List (List Char)
  | [] => [[c]]
  | l :: ls => (c :: l) :: ls

def lines : List Char → List (List Char)
  | [] => []
  | '\r' :: '\n' :: r => [] :: lines r
  | c :: r => if isLineEnd c then [] :: lines r else consLine c (lines r)

/-- The parts of a text between occurrences of a character. -/
def splitAt (sep : Char) : List Char → List (List Char)
  | [] => [[]]
  | c :: r => if c == sep then [] :: splitAt sep r else consLine c (splitAt sep r)

/-- Write every carriage return, alone or with its line feed, as a line feed. -/
def unifyLineEnds : List Char → List Char
  | [] => []
  | '\r' :: '\n' :: r => '\n' :: unifyLineEnds r
  | c :: r => (if c == '\r' then '\n' else c) :: unifyLineEnds r

end Deadwood.Text
