import Deadwood.Text.Lines

/-! Paths. An absolute path is a list of components below the root. -/
namespace Deadwood

/-- An absolute path without empty, `.` and `..` components. A path may keep two slashes
at its front. -/
structure Path where
  parts : List String
  doubled : Bool := false
deriving DecidableEq, Repr

namespace Path

def text (p : Path) : String :=
  (if p.doubled then "//" else "/") ++ String.intercalate "/" p.parts

/-- Go down by one component: `..` goes up, and stays at the root. -/
def enter (parts : List String) (c : String) : List String :=
  if c == "" || c == "." then parts
  else if c == ".." then parts.dropLast
  else parts ++ [c]

/-- The path a text names, seen from a directory. -/
def resolve (cwd : Path) (text : String) : Path :=
  let parts := (Text.splitAt '/' text.toList).map String.ofList
  match text.toList with
  | '/' :: '/' :: '/' :: _ => ⟨parts.foldl enter [], false⟩
  | '/' :: '/' :: _ => ⟨parts.foldl enter [], true⟩
  | '/' :: _ => ⟨parts.foldl enter [], false⟩
  | _ => ⟨parts.foldl enter cwd.parts, cwd.doubled⟩

def parent (p : Path) : Path := { p with parts := p.parts.dropLast }

/-- A path's text without its extension, which starts at the last dot of the last
component. Dots at the front of that component start none. -/
def stem (text : String) : String :=
  let back := text.toList.reverse
  let name := back.takeWhile (· != '/')
  let extension := name.takeWhile (· != '.')
  if (name.drop (extension.length + 1)).all (· == '.') then text
  else String.ofList (back.drop (extension.length + 1)).reverse

end Path
end Deadwood
