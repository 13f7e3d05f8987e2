/-! Reserved words. -/
namespace Deadwood

inductive Keyword where
  | ifWord | elseWord | whileWord | repeatWord | forWord | inWord | functionWord
  | breakWord | nextWord | trueWord | falseWord | nullWord
deriving DecidableEq, Repr

namespace Keyword

def text : Keyword → String
  | .ifWord => "if"
  | .elseWord => "else"
  | .whileWord => "while"
  | .repeatWord => "repeat"
  | .forWord => "for"
  | .inWord => "in"
  | .functionWord => "function"
  | .breakWord => "break"
  | .nextWord => "next"
  | .trueWord => "TRUE"
  | .falseWord => "FALSE"
  | .nullWord => "NULL"

def ofText? : String → Option Keyword
  | "if" => some .ifWord
  | "else" => some .elseWord
  | "while" => some .whileWord
  | "repeat" => some .repeatWord
  | "for" => some .forWord
  | "in" => some .inWord
  | "function" => some .functionWord
  | "break" => some .breakWord
  | "next" => some .nextWord
  | "TRUE" => some .trueWord
  | "FALSE" => some .falseWord
  | "NULL" => some .nullWord
  | _ => none

@[simp] theorem ofText?_text (k : Keyword) : ofText? k.text = some k := by cases k <;> rfl

end Keyword
end Deadwood
