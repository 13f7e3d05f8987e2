import Deadwood.Text.Escape
import Deadwood.Text.Printable

/-! How messages show a text: between quotes, on one line, in printable characters. -/
namespace Deadwood.Text

/-- Single quotes, unless only they occur in the text. -/
def quoteFor (cs : List Char) : Char :=
  if cs.contains '\'' && !cs.contains '"' then '"' else '\''

def showChar (quote c : Char) : List Char :=
  if c == quote || c == '\\' then ['\\', c]
  else if c == '\n' then ['\\', 'n']
  else if c == '\r' then ['\\', 'r']
  else if c == '\t' then ['\\', 't']
  else if isPrintable c then [c]
  else if c.toNat < 256 then '\\' :: 'x' :: hex 2 c.toNat
  else widen c

def shown (s : String) : String :=
  let cs := s.toList
  let quote := quoteFor cs
  String.ofList (quote :: cs.flatMap (showChar quote) ++ [quote])

end Deadwood.Text
