import Deadwood.Source.Chain
import Deadwood.Source.Literal

/-! The grammar of scripts, as a predictive reader of tokens. Each layer is a function
of `self`, the reader of the expressions nested inside brackets; `self true` reads a
statement, where `=` assigns. A reader that stops leaves the tokens from the offending
one on. -/
namespace Deadwood.Grammar

/-- What is still to be read. `misread` is the first literal without a value: it only
counts once the whole script turns out to be well formed. -/
structure Cursor where
  tokens : List Token
  misread : Option Misread
  file : String

abbrev Reader := StateT Cursor (Except (List Token))

def stop : Reader α := fun c => .error c.tokens

def peek : Reader (Option Lexeme) := return (← get).tokens.head?.map (·.lexeme)

/-- The next token, whatever it is. -/
def take : Reader Token := fun c =>
  match c.tokens with
  | [] => .error []
  | t :: r => .ok (t, { c with tokens := r })

/-- The next token and its meaning, if it has one here. -/
def select (f : Lexeme → Option α) : Reader (Option (α × Token)) := fun c =>
  match c.tokens with
  | [] => .ok (none, c)
  | t :: r =>
    match f t.lexeme with
    | some a => .ok (some (a, t), { c with tokens := r })
    | none => .ok (none, c)

def accept (l : Lexeme) : Reader Bool :=
  return (← select fun x => if x = l then some () else none).isSome

def expect (l : Lexeme) : Reader Token := do
  match ← select fun x => if x = l then some () else none with
  | some (_, t) => return t
  | none => stop

/-- One line break, if there is one. -/
def skipBreak : Reader Unit := do
  let _ ← accept .newline

def isSeparator (t : Token) : Bool := t.lexeme = .newline || t.lexeme = .semicolon

def skipSeparators : Reader Unit :=
  modify fun c => { c with tokens := c.tokens.dropWhile isSeparator }

def remaining : Reader Nat := return (← get).tokens.length

def span (a b : Position) : Reader Span := return .between (← get).file a b

/-- The value of a literal. One without a value is noted and stands for nothing. -/
def valued (r : Except Misread α) (node : Span → α → Node) (t : Token) : Reader Part := do
  let s ← span t.start t.stop
  match r with
  | .ok a => return ⟨node s a, t.start, t.stop⟩
  | .error m =>
    modify fun c => { c with misread := c.misread.or (some m) }
    return ⟨.null s, t.start, t.stop⟩

def leafOf (node : Span → Node) (t : Token) : Reader Part := do
  return ⟨node (← span t.start t.stop), t.start, t.stop⟩

def binary (op : BinaryOp) (l r : Part) : Reader Part := do
  return ⟨.binary (← span l.start r.stop) op l.node r.node, l.start, r.stop⟩

/-! Lists and sequences. -/

/-- Items between commas, and the closing mark. One line break may stand on either side
of a comma and before the closing mark. -/
def items (item : Reader α) (close : Reader Token) : Nat → Reader (List α × Token)
  | 0 => stop
  | fuel + 1 => do
    let x ← item
    skipBreak
    if ← accept .comma then
      skipBreak
      let (xs, t) ← items item close fuel
      return (x :: xs, t)
    else return ([x], ← close)

def listed (item : Reader α) (close : Reader Token) : Reader (List α × Token) := do
  items item close (← remaining)

/-- A list in parentheses that may be empty; an empty one may hold two line breaks. -/
def parenList (item : Reader α) : Reader (List α × Token) := do
  skipBreak
  match ← peek with
  | some .closeParen => return ([], ← take)
  | some .newline =>
    skipBreak
    return ([], ← expect .closeParen)
  | _ => listed item (expect .closeParen)

/-- Statements up to a token that neither is nor follows a separator. -/
def sequence (statement : Reader Part) : Nat → Reader (List Node)
  | 0 => return []
  | fuel + 1 => do
    skipSeparators
    match ← peek with
    | none | some .closeBrace => return []
    | some _ =>
      let s ← statement
      match ← peek with
      | some .newline | some .semicolon => return s.node :: (← sequence statement fuel)
      | _ => return [s.node]

def block (statement : Reader Part) : Reader Part := do
  let t ← expect .openBrace
  let ss ← sequence statement (← remaining)
  let u ← expect .closeBrace
  return ⟨.block ⟨← span t.start u.stop, ss⟩, t.start, u.stop⟩

/-! Operands. -/

def atom [Text.CharNames] (self : Bool → Reader Part) : Reader Part := do
  match ← peek with
  | some (.number s) =>
    valued (Literal.number s) (fun sp (v, isInteger) => .number sp v isInteger) (← take)
  | some (.string s) => valued (Literal.string s) .string (← take)
  | some (.keyword .trueWord) => leafOf (.boolean · true) (← take)
  | some (.keyword .falseWord) => leafOf (.boolean · false) (← take)
  | some (.keyword .nullWord) => leafOf .null (← take)
  | some (.name s) => leafOf (.identifier ⟨·, s⟩) (← take)
  | some .openParen =>
    let t ← take
    skipBreak
    let x ← self false
    skipBreak
    let u ← expect .closeParen
    return ⟨x.node, t.start, u.stop⟩
  | some .openBrace => block (self true)
  | _ => stop

/-- The name of a named argument: a name or a string right before `=`. The text of a
string is taken as it is written. -/
def argumentName? : List Token → Option String
  | t :: u :: _ =>
    if u.lexeme = .equals then
      match t.lexeme with
      | .string s => some (String.ofList (Literal.unquoted s))
      | l => l.name?
    else none
  | _ => none

def argument (self : Bool → Reader Part) : Reader Argument := do
  match argumentName? (← get).tokens with
  | some name =>
    let t ← take
    let _ ← take
    skipBreak
    let x ← self false
    return ⟨← span t.start x.stop, some name, x.node⟩
  | none =>
    let x ← self false
    return ⟨← span x.start x.stop, none, x.node⟩

/-- A call. `return` with at most one plain argument leaves the function instead. -/
def called (callee : Node) (args : List Argument) (s : Span) : Node :=
  match callee, args with
  | .identifier ⟨_, "return"⟩, [] => .jump s .ret none
  | .identifier ⟨_, "return"⟩, [⟨_, none, x⟩] => .jump s .ret (some x)
  | _, _ => .call s callee args

def closeBracket : Reader Token := do
  match ← select fun | .closeBracket _ => some () | _ => none with
  | some (_, t) => return t
  | none => stop

def closeDouble : Reader Token := do
  let _ ← expect (.closeBracket true)
  closeBracket

/-- The name expected next. -/
def name : Reader (String × Token) := do
  match ← select Lexeme.name? with
  | some r => return r
  | none => stop

/-- Calls, indexing and member access, applied from the left. -/
def postfixed (self : Bool → Reader Part) : Nat → Part → Reader Part
  | 0, x => return x
  | fuel + 1, x => do
    match ← peek with
    | some .openParen =>
      let _ ← take
      let (args, t) ← parenList (argument self)
      postfixed self fuel ⟨called x.node args (← span x.start t.stop), x.start, t.stop⟩
    | some .openBracket =>
      let _ ← take
      skipBreak
      let (xs, t) ← listed (self false) closeBracket
      postfixed self fuel
        ⟨.index (← span x.start t.stop) x.node (xs.map (·.node)) false, x.start, t.stop⟩
    | some .openDouble =>
      let _ ← take
      skipBreak
      let (xs, t) ← listed (self false) closeDouble
      postfixed self fuel
        ⟨.index (← span x.start t.stop) x.node (xs.map (·.node)) true, x.start, t.stop⟩
    | some .dollar =>
      let _ ← take
      let (s, t) ← name
      postfixed self fuel ⟨.member (← span x.start t.stop) x.node s, x.start, t.stop⟩
    | _ => return x

def operand [Text.CharNames] (self : Bool → Reader Part) : Reader Part := do
  let x ← atom self
  postfixed self (← remaining) x

/-! Operators, tightest first. -/

def powOp : Lexeme → Option BinaryOp
  | .op (.arith .pow) => some (.arith .pow)
  | _ => none

def signOp : Lexeme → Option UnaryOp
  | .op (.arith .add) => some .pos
  | .op (.arith .sub) => some .neg
  | _ => none

def rangeOp : Lexeme → Option BinaryOp
  | .op .range => some .range
  | _ => none

def specialOp : Lexeme → Option BinaryOp
  | .op (.arith .mod) => some (.arith .mod)
  | .op (.arith .quot) => some (.arith .quot)
  | .op (.special s) => some (.special s)
  | _ => none

def productOp : Lexeme → Option BinaryOp
  | .op (.arith .mul) => some (.arith .mul)
  | .op (.arith .div) => some (.arith .div)
  | _ => none

def sumOp : Lexeme → Option BinaryOp
  | .op (.arith .add) => some (.arith .add)
  | .op (.arith .sub) => some (.arith .sub)
  | _ => none

def relationOp : Lexeme → Option BinaryOp
  | .op (.rel r) => some (.rel r)
  | _ => none

def notOp : Lexeme → Option UnaryOp
  | .not => some .not
  | _ => none

def andOp : Lexeme → Option BinaryOp
  | .op .lazyAnd => some .lazyAnd
  | .op .and => some .and
  | _ => none

def orOp : Lexeme → Option BinaryOp
  | .op .lazyOr => some .lazyOr
  | .op .or => some .or
  | _ => none

/-- At most one operator, its right side read by `right`. -/
def once (op : Lexeme → Option BinaryOp) (left right : Reader Part) : Reader Part := do
  let l ← left
  match ← select op with
  | some (o, _) =>
    skipBreak
    binary o l (← right)
  | none => return l

/-- Any number of operators, grouped from the left. -/
def leftFrom (op : Lexeme → Option BinaryOp) (item : Reader Part) : Nat → Part → Reader Part
  | 0, l => return l
  | fuel + 1, l => do
    match ← select op with
    | some (o, _) =>
      skipBreak
      leftFrom op item fuel (← binary o l (← item))
    | none => return l

def leftGrouped (op : Lexeme → Option BinaryOp) (item : Reader Part) : Reader Part := do
  let l ← item
  leftFrom op item (← remaining) l

/-- Any number of leading operators; `item` may read further ones to its right. -/
def leading (op : Lexeme → Option UnaryOp) (item : Reader Part → Reader Part) : Nat → Reader Part
  | 0 => stop
  | fuel + 1 => do
    match ← select op with
    | some (o, t) =>
      let x ← leading op item fuel
      return ⟨.unary (← span t.start x.stop) o x.node, t.start, x.stop⟩
    | none => item (leading op item fuel)

/-- A sign binds looser than a power on its right, and an exponent may be signed. -/
def signed [Text.CharNames] (self : Bool → Reader Part) : Reader Part := do
  leading signOp (once powOp (operand self)) ((← remaining) + 1)

def sum [Text.CharNames] (self : Bool → Reader Part) : Reader Part :=
  leftGrouped sumOp (leftGrouped productOp (leftGrouped specialOp (leftGrouped rangeOp (signed self))))

def comparison [Text.CharNames] (self : Bool → Reader Part) : Reader Part := once relationOp (sum self) (sum self)

def negated [Text.CharNames] (self : Bool → Reader Part) : Reader Part := do
  leading notOp (fun _ => comparison self) ((← remaining) + 1)

def disjunction [Text.CharNames] (self : Bool → Reader Part) : Reader Part :=
  leftGrouped orOp (leftGrouped andOp (negated self))

/-! Control expressions and assignments. -/

/-- A parenthesised condition and the line break that may follow. -/
def condition (self : Bool → Reader Part) : Reader Node := do
  let _ ← expect .openParen
  skipBreak
  let c ← self false
  skipBreak
  let _ ← expect .closeParen
  skipBreak
  return c.node

def parameter (self : Bool → Reader Part) : Reader Parameter := do
  let (s, t) ← name
  if ← accept .equals then
    skipBreak
    let x ← self false
    return ⟨← span t.start x.stop, s, some x.node⟩
  else return ⟨← span t.start t.stop, s, none⟩

def forHeader (self : Bool → Reader Part) : Reader Opening := do
  let _ ← expect .openParen
  skipBreak
  let (s, t) ← name
  let _ ← expect (.keyword .inWord)
  let x ← self false
  skipBreak
  let _ ← expect .closeParen
  skipBreak
  return .forLoop ⟨← span t.start t.stop, s⟩ x.node

def functionHeader (self : Bool → Reader Part) : Reader Opening := do
  let _ ← expect .openParen
  let (ps, _) ← parenList (parameter self)
  skipBreak
  return .function ps

/-- The opening after its keyword. -/
def header (self : Bool → Reader Part) : Keyword → Option (Reader Opening)
  | .ifWord => some (return .cond (← condition self))
  | .whileWord => some (return .whileLoop (← condition self))
  | .repeatWord => some do
    skipBreak
    return .repeatLoop
  | .forWord => some (forHeader self)
  | .functionWord => some (functionHeader self)
  | _ => none

def keyword? : Option Lexeme → Option Keyword
  | some (.keyword k) => some k
  | _ => none

def assignOp : Lexeme → Option AssignOp
  | .assign op => some op
  | _ => none

/-- The next opening, or the expression that ends a run. -/
def link [Text.CharNames] (self : Bool → Reader Part) : Reader (Position × Opening ⊕ Part) := do
  match ← peek with
  | some (.keyword .breakWord) => return .inr (← leafOf (.jump · .brk none) (← take))
  | some (.keyword .nextWord) => return .inr (← leafOf (.jump · .nxt none) (← take))
  | l =>
    match keyword? l >>= header self with
    | some h =>
      let t ← take
      return .inl (t.start, ← h)
    | none =>
      let x ← disjunction self
      match ← select assignOp with
      | some (op, _) =>
        skipBreak
        return .inl (x.start, .assign op x.node)
      | none => return .inr x

/-- Openings up to the expression they end in. -/
def run [Text.CharNames] (self : Bool → Reader Part) : Nat → List (Position × Opening) → Reader Run
  | 0, _ => stop
  | fuel + 1, os => do
    match ← link self with
    | .inl o => run self fuel (os ++ [o])
    | .inr x => return ⟨os, x⟩

/-- Whether an `else` comes next, and after a line break. -/
def elseNext : List Token → Option Bool
  | t :: u :: _ =>
    if t.lexeme = .keyword .elseWord then some false
    else if t.lexeme = .newline && u.lexeme = .keyword .elseWord then some true
    else none
  | [t] => if t.lexeme = .keyword .elseWord then some false else none
  | [] => none

/-- Further `else`s, while `opened` counts the `if`s that can own one. -/
def alternatives [Text.CharNames] (self : Bool → Reader Part) : Nat → Nat → Reader (List Alternative)
  | 0, _ => return []
  | _, 0 => return []
  | fuel + 1, opened + 1 => do
    match elseNext (← get).tokens with
    | none => return []
    | some before =>
      skipBreak
      let _ ← take
      let after ← accept .newline
      let r ← run self (← remaining) []
      return ⟨before, after, r⟩ :: (← alternatives self fuel (opened + r.conds))

/-- A chain that begins with the given openings. -/
def chain [Text.CharNames] (self : Bool → Reader Part) (os : List (Position × Opening)) : Reader Part := do
  let r ← run self (← remaining) os
  let as ← alternatives self (← remaining) r.conds
  return Chain.build (← get).file r as

def startsControl (l : Option Lexeme) : Bool :=
  match keyword? l with
  | some .ifWord | some .whileWord | some .repeatWord | some .forWord | some .functionWord
  | some .breakWord | some .nextWord => true
  | _ => false

/-- An expression, or a statement when `statement` holds. -/
def expressionOf [Text.CharNames] (self : Bool → Reader Part) (statement : Bool) : Reader Part := do
  if startsControl (← peek) then chain self []
  else
    let x ← disjunction self
    match ← peek with
    | some (.assign op) =>
      let _ ← take
      skipBreak
      chain self [(x.start, .assign op x.node)]
    | some .equals =>
      if statement then
        let _ ← take
        skipBreak
        let v ← self false
        return ⟨.assign (← span x.start v.stop) .equals x.node v.node, x.start, v.stop⟩
      else return x
    | _ => return x

/-- Expressions with at most `depth` levels of nesting. -/
def expression [Text.CharNames] : Nat → Bool → Reader Part
  | 0 => fun _ => stop
  | depth + 1 => expressionOf (expression depth)

/-- All statements of a script. -/
def script [Text.CharNames] : Reader (List Node) := do
  let n ← remaining
  let ss ← sequence (expression (n + 1) true) (n + 1)
  if (← remaining) == 0 then return ss else stop

end Deadwood.Grammar
