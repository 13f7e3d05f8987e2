import Deadwood.Number.Basic

/-! Operators of the language and their spelling. A tree from elsewhere may hold a
spelling the language does not have; it is kept as `unknown`. -/
namespace Deadwood

inductive UnaryOp where
  | not | neg | pos
  | unknown (text : String)
deriving DecidableEq, Repr

/-- `lazyOr` and `lazyAnd` decide on their left side alone when they can. `special` is
any other spelling that starts and ends with a percent sign. -/
inductive BinaryOp where
  | lazyOr | or | lazyAnd | and
  | rel (relation : Relation)
  | arith (op : Arith)
  | range
  | special (text : String)
  | unknown (text : String)
deriving DecidableEq, Repr

inductive AssignOp where
  | arrow | superArrow | equals
  | unknown (text : String)
deriving DecidableEq, Repr

namespace UnaryOp

def text : UnaryOp → String
  | .not => "!"
  | .neg => "-"
  | .pos => "+"
  | .unknown s => s

def ofText : String → UnaryOp
  | "!" => .not
  | "-" => .neg
  | "+" => .pos
  | s => .unknown s

end UnaryOp

def Relation.text : Relation → String
  | .eq => "=="
  | .ne => "!="
  | .lt => "<"
  | .gt => ">"
  | .le => "<="
  | .ge => ">="

def Arith.text : Arith → String
  | .add => "+"
  | .sub => "-"
  | .mul => "*"
  | .div => "/"
  | .pow => "^"
  | .mod => "%%"
  | .quot => "%/%"

namespace BinaryOp

def text : BinaryOp → String
  | .lazyOr => "||"
  | .or => "|"
  | .lazyAnd => "&&"
  | .and => "&"
  | .rel r => r.text
  | .arith op => op.text
  | .range => ":"
  | .special s => s
  | .unknown s => s

def ofText (s : String) : BinaryOp :=
  match s with
  | "||" => .lazyOr
  | "|" => .or
  | "&&" => .lazyAnd
  | "&" => .and
  | "==" => .rel .eq
  | "!=" => .rel .ne
  | "<" => .rel .lt
  | ">" => .rel .gt
  | "<=" => .rel .le
  | ">=" => .rel .ge
  | "+" => .arith .add
  | "-" => .arith .sub
  | "*" => .arith .mul
  | "/" => .arith .div
  | "^" => .arith .pow
  | "%%" => .arith .mod
  | "%/%" => .arith .quot
  | ":" => .range
  | s => if s.toList.head? == some '%' && s.toList.getLast? == some '%' then .special s else .unknown s

/-- The relation an operator asks for. One that is no relation asks for "at least". -/
def relation : BinaryOp → Relation
  | .rel r => r
  | _ => .ge

end BinaryOp

namespace AssignOp

def text : AssignOp → String
  | .arrow => "<-"
  | .superArrow => "<<-"
  | .equals => "="
  | .unknown s => s

def ofText : String → AssignOp
  | "<-" => .arrow
  | "<<-" => .superArrow
  | "=" => .equals
  | s => .unknown s

end AssignOp
end Deadwood
