import Deadwood.Proofs.Derivation
import Deadwood.Proofs.Screening

/-! Brackets of derived lexemes nest. Each phrase leaves the brackets that were open before it as they are, so none is
left over at the end of a script. -/
namespace Deadwood

/-- The brackets that a lexeme is written with. -/
def Lexeme.brackets : Lexeme → List Char
  | .openParen => ['(']
  | .closeParen => [')']
  | .openBrace => ['\x7b']
  | .closeBrace => ['\x7d']
  | .openBracket => ['[']
  | .openDouble => ['[', '[']
  | .closeBracket _ => [']']
  | _ => []

def Lexeme.isStray : Lexeme → Bool
  | .stray _ => true
  | _ => false

namespace Grammar
open Screen (nests nests_append)

/-- The brackets left open behind some lexemes, if none of these is stray and each closing bracket meets its partner. -/
def nesting (opened : List Char) : List Lexeme → Option (List Char)
  | [] => some opened
  | l :: ts => if l.isStray then none else (nests opened l.brackets).bind (nesting · ts)

/-- Lexemes without brackets that a phrase can hold. -/
def neutral (l : Lexeme) : Bool := !l.isStray && l.brackets.isEmpty

theorem nesting_cons {l : Lexeme} (hl : neutral l) (opened : List Char) (ts : List Lexeme) :
    nesting opened (l :: ts) = nesting opened ts := by
  simp only [neutral, Bool.and_eq_true, Bool.not_eq_true', List.isEmpty_iff] at hl
  rw [nesting, hl.1, hl.2]
  rfl

@[simp] theorem nesting_gap (opened : List Char) (g : Bool) (ts : List Lexeme) :
    nesting opened (gap g ts) = nesting opened ts := by
  cases g with
  | true => exact nesting_cons rfl opened ts
  | false => rfl

@[simp] theorem nesting_openParen (opened : List Char) (ts : List Lexeme) :
    nesting opened (.openParen :: ts) = nesting ('(' :: opened) ts := rfl

@[simp] theorem nesting_closeParen (opened : List Char) (ts : List Lexeme) :
    nesting ('(' :: opened) (.closeParen :: ts) = nesting opened ts := rfl

@[simp] theorem nesting_openBrace (opened : List Char) (ts : List Lexeme) :
    nesting opened (.openBrace :: ts) = nesting ('\x7b' :: opened) ts := rfl

@[simp] theorem nesting_closeBrace (opened : List Char) (ts : List Lexeme) :
    nesting ('\x7b' :: opened) (.closeBrace :: ts) = nesting opened ts := rfl

@[simp] theorem nesting_openBracket (opened : List Char) (ts : List Lexeme) :
    nesting opened (.openBracket :: ts) = nesting ('[' :: opened) ts := rfl

@[simp] theorem nesting_openDouble (opened : List Char) (ts : List Lexeme) :
    nesting opened (.openDouble :: ts) = nesting ('[' :: '[' :: opened) ts := rfl

@[simp] theorem nesting_closeBracket (opened : List Char) (p : Bool) (ts : List Lexeme) :
    nesting ('[' :: opened) (.closeBracket p :: ts) = nesting opened ts := rfl

theorem neutral_of_argumentText? {l : Lexeme} {text : String} (h : argumentText? l = some text) : neutral l := by
  cases l with
  | name | number | string => rfl
  | _ => cases h

theorem neutral_of_separates {l : Lexeme} (h : separates l) : neutral l := by
  cases l with
  | newline | semicolon => rfl
  | _ => cases h

theorem neutral_of_signOp {l : Lexeme} {o : UnaryOp} (h : signOp l = some o) : neutral l := by
  cases l with
  | op => rfl
  | _ => cases h

/-- The closing parenthesis of what is enclosed belongs to the phrase, and the opening one does not. -/
def Phrase.Nests : Phrase → List Lexeme → List Lexeme → Prop
  | .enclosed _, ts, rest => ∀ opened, nesting ('(' :: opened) ts = nesting opened rest
  | _, ts, rest => ∀ opened, nesting opened ts = nesting opened rest

theorem Derives.nests [Text.CharNames] (h : Derives p ts v rest) : p.Nests ts rest := by
  induction h with
  | done | noElse | stop => exact fun _ => rfl
  | separator hl _ ih => exact fun opened => (nesting_cons (neutral_of_separates hl) ..).trans (ih opened)
  | last _ ih | operation _ ih | leaf _ ih | positional _ ih | index _ ih | single _ ih | tighter _ _ ih => exact ih
  | next _ _ _ ihs ihss => exact fun opened => (ihs opened).trans (ihss opened)
  | control _ _ _ ihr ihas => exact fun opened => (ihr opened).trans (ihas opened)
  | assigned _ _ _ iht ihr ihas =>
    intro opened
    rw [iht, nesting_cons rfl, nesting_gap, ihr, ihas]
  | equals _ _ iht ihv =>
    intro opened
    rw [iht, nesting_cons rfl, nesting_gap, ihv]
  | leave => exact fun opened => nesting_cons rfl ..
  | opened _ _ iho ihr => exact fun opened => (iho opened).trans (ihr opened)
  | orElse _ _ ihr ihas =>
    intro opened
    rw [nesting_gap, nesting_cons rfl, nesting_gap, ihr, ihas]
  | cond _ ih | whileLoop _ ih =>
    intro opened
    rw [nesting_cons rfl, nesting_openParen, nesting_gap, ih, nesting_gap, nesting_closeParen, nesting_gap]
  | repeatLoop =>
    intro opened
    rw [nesting_cons rfl, nesting_gap]
  | forLoop hl _ ih =>
    intro opened
    rw [nesting_cons rfl, nesting_openParen, nesting_gap,
      nesting_cons (neutral_of_argumentText? (argumentText?_of_name? hl)), nesting_cons rfl, ih, nesting_gap,
      nesting_closeParen, nesting_gap]
  | function _ ih =>
    intro opened
    rw [nesting_cons rfl, nesting_openParen, ih, nesting_gap]
  | assign _ ih =>
    intro opened
    rw [ih, nesting_cons rfl, nesting_gap]
  | named hl _ ih =>
    intro opened
    rw [nesting_cons (neutral_of_argumentText? hl), nesting_cons rfl, nesting_gap, ih]
  | plain hl => exact fun opened => nesting_cons (neutral_of_argumentText? (argumentText?_of_name? hl)) ..
  | defaulted hl _ ih =>
    intro opened
    rw [nesting_cons (neutral_of_argumentText? (argumentText?_of_name? hl)), nesting_cons rfl, nesting_gap, ih]
  | comma _ _ ihx ihxs =>
    intro opened
    rw [ihx, nesting_gap, nesting_cons rfl, nesting_gap, ihxs]
  | empty =>
    intro opened
    rw [nesting_gap, nesting_gap, nesting_closeParen]
  | filled _ ih =>
    intro opened
    rw [nesting_gap, ih, nesting_gap, nesting_closeParen]
  | grouped _ _ _ ihl ihx => exact fun opened => (ihl opened).trans (ihx opened)
  | related _ _ ihl ihr | power _ _ ihl ihr =>
    intro opened
    rw [ihl, nesting_cons rfl, nesting_gap, ihr]
  | negated _ ih => exact fun opened => (nesting_cons rfl ..).trans (ih opened)
  | signed hl _ ih => exact fun opened => (nesting_cons (neutral_of_signOp hl) ..).trans (ih opened)
  | operator _ _ _ ihr ihx =>
    intro opened
    rw [nesting_cons rfl, nesting_gap, ihr, ihx]
  | call _ _ ihargs ihx =>
    intro opened
    rw [nesting_openParen, ihargs, ihx]
  | brackets _ _ ihxs ihx =>
    intro opened
    rw [nesting_openBracket, nesting_gap, ihxs, nesting_gap, nesting_closeBracket, ihx]
  | doubleBrackets _ _ ihxs ihx =>
    intro opened
    rw [nesting_openDouble, nesting_gap, ihxs, nesting_gap, nesting_closeBracket, nesting_closeBracket, ihx]
  | member hm _ ih =>
    intro opened
    rw [nesting_cons rfl, nesting_cons (neutral_of_argumentText? (argumentText?_of_name? hm)), ih]
  | number | string | constant | name => exact fun opened => nesting_cons rfl ..
  | paren _ ih =>
    intro opened
    rw [nesting_openParen, nesting_gap, ih, nesting_gap, nesting_closeParen]
  | block _ ih =>
    intro opened
    rw [nesting_openBrace, ih, nesting_closeBrace]

theorem nesting_of_derives [Text.CharNames] (h : Derives .statements ts ss []) : nesting [] ts = some [] := h.nests []

/-! Lexemes whose brackets nest. -/

theorem isStray_of_nesting {opened closed : List Char} {ts : List Lexeme} (h : nesting opened ts = some closed) :
    ∀ l ∈ ts, l.isStray = false := by
  induction ts generalizing opened with
  | nil => simp
  | cons l ts ih =>
    rw [nesting] at h
    split at h
    · cases h
    · next hl =>
      obtain ⟨mid, -, h⟩ := Option.bind_eq_some_iff.1 h
      exact List.forall_mem_cons.2 ⟨by simpa using hl, ih h⟩

theorem nests_of_nesting {opened closed : List Char} {ts : List Lexeme} (h : nesting opened ts = some closed) :
    nests opened (ts.flatMap Lexeme.brackets) = some closed := by
  induction ts generalizing opened with
  | nil => exact h
  | cons l ts ih =>
    rw [nesting] at h
    split at h
    · cases h
    · obtain ⟨mid, hl, h⟩ := Option.bind_eq_some_iff.1 h
      rw [List.flatMap_cons, nests_append, hl]
      exact ih h

end Grammar
end Deadwood
