/-! Code points. A text is made of characters, but an escape in a string literal can name
any code point, and surrogates are no characters. -/
namespace Deadwood.Text

/-- A code point that is no character. -/
structure Surrogate where
  code : Nat
  low : 0xD800 ≤ code
  high : code < 0xE000
deriving DecidableEq, Repr

def Surrogate.ofNat? (n : Nat) : Option Surrogate :=
  if h : 0xD800 ≤ n ∧ n < 0xE000 then some ⟨n, h.1, h.2⟩ else none

inductive Point where
  | char (c : Char)
  | lone (s : Surrogate)
deriving DecidableEq, Repr

namespace Point

def ofNat (n : Nat) : Point :=
  match Surrogate.ofNat? n with
  | some s => .lone s
  | none => .char (.ofNat n)

def toNat : Point → Nat
  | .char c => c.toNat
  | .lone s => s.code

def char? : Point → Option Char
  | .char c => some c
  | .lone _ => none

end Point

def points (s : String) : List Point := s.toList.map .char

instance : Coe String (List Point) := ⟨points⟩

/-- The names that characters go by in escapes. -/
class CharNames where
  char? : List Char → Option Char

/-- Where no names are given, there are none. -/
instance (priority := low) : CharNames := ⟨fun _ => none⟩

end Deadwood.Text
