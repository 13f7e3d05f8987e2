import Deadwood.Source.Token

/-! Chains of control expressions. Control expressions, function literals and
assignments end in an expression without a closing mark, so a stretch such as
`if (a) while (b) if (c) x else y` leaves open which `if` an `else` belongs to. The
parser reads such a stretch flat, and this module decides the nesting: the outermost
`if` owns an `else` whenever it can. -/
namespace Deadwood

/-- A node with the stretch of text it takes, parentheses around it included. -/
structure Part where
  node : Node
  start : Position
  stop : Position

/-- The places from `a` to `b` of a file. -/
def Span.between (file : String) (a b : Position) : Span := ⟨a.line, a.col, b.line, b.col, some file⟩

/-- What stands before the body of a nesting expression. -/
inductive Opening where
  | cond (condition : Node)
  | whileLoop (condition : Node)
  | repeatLoop
  | forLoop (loopVar : Identifier) (iterable : Node)
  | function (params : List Parameter)
  | assign (op : AssignOp) (target : Node)

def Opening.isCond : Opening → Bool
  | .cond _ => true
  | _ => false

/-- The node an opening makes of its body. -/
def Opening.close (o : Opening) (span : Span) (body : Node) : Node :=
  match o with
  | .cond c => .cond span c body.asBlock none
  | .whileLoop c => .whileLoop span c body.asBlock
  | .repeatLoop => .repeatLoop span body.asBlock
  | .forLoop v x => .forLoop span v x body.asBlock
  | .function ps => .function span ps body.asBlock
  | .assign op t => .assign span op t body

/-- Openings with their places, and the expression they end in. -/
structure Run where
  openings : List (Position × Opening)
  leaf : Part

/-- The number of `if`s that may still own an `else`. -/
def Run.conds (r : Run) : Nat := r.openings.countP (·.2.isCond)

/-- An `else` and what follows it up to the next one, with the line breaks around it. -/
structure Alternative where
  breakBefore : Bool
  breakAfter : Bool
  run : Run

namespace Chain

/-- Whether every `else` finds an `if`, with `open` ones to start with. -/
def closes : Nat → List Alternative → Bool
  | _, [] => true
  | 0, _ :: _ => false
  | opened + 1, a :: as => closes (opened + a.run.conds) as

/-- The ways to give one of the `else`s to an `if` before a run: the alternatives before
it, that one, and those after it. -/
def owners (conds : Nat) : List Alternative → List Alternative →
    List (List Alternative × Alternative × List Alternative)
  | _, [] => []
  | before, a :: after =>
    let later := owners conds (before ++ [a]) after
    if closes conds before && closes a.run.conds after then (before, a, after) :: later else later

/-- Those with a property, if there are any. -/
def prefer (p : α → Bool) (xs : List α) : List α := if xs.any p then xs.filter p else xs

/-- Of several `else`s the `if` takes one with a line break before it, then one with a
line break after it, then the last. The `else` and the line breaks are optional parts of
one rule, which stands for as many rules as there are ways to leave parts out. Those with
a part come before those without it, the leftmost part counting most, and of two
derivations the one by the earlier rule is taken. Derivations by the same rule differ in
how far the first branch goes, and the longest is taken. -/
def owner? (conds : Nat) (as : List Alternative) :
    Option (List Alternative × Alternative × List Alternative) :=
  (prefer (·.2.1.breakAfter) (prefer (·.2.1.breakBefore) (owners conds [] as))).getLast?

/-- Nest a run and the alternatives after it. `fuel` bounds the openings left. -/
def nest (file : String) : Nat → Run → List Alternative → Part
  | 0, r, _ => r.leaf
  | fuel + 1, r, as =>
    match r.openings with
    | [] => r.leaf
    | (start, o) :: os =>
      let inner : Run := ⟨os, r.leaf⟩
      match o, owner? inner.conds as with
      | .cond c, some (before, a, after) =>
        let yes := nest file fuel inner before
        let no := nest file fuel a.run after
        ⟨.cond (.between file start no.stop) c yes.node.asBlock (some no.node.asBlock), start, no.stop⟩
      | o, _ =>
        let body := nest file fuel inner as
        ⟨o.close (.between file start body.stop) body.node, start, body.stop⟩

/-- The number of openings in a chain. -/
def depth (r : Run) (as : List Alternative) : Nat :=
  r.openings.length + (as.map (·.run.openings.length)).foldr (· + ·) 0

def build (file : String) (r : Run) (as : List Alternative) : Part :=
  nest file (depth r as) r as

end Chain
end Deadwood
