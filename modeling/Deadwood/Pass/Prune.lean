import Deadwood.Tree.Basic

/-! Dead code. Statements after a jump in the same sequence go, and so do the branches
of `if` and `while` that a literal condition rules out. What such an `if` leaves is
spliced into the sequence around it, so a jump it carries cuts off the rest of that
sequence too. -/
namespace Deadwood

/-- What pruning makes of a statement: a node in its place, or a block whose statements
join the sequence around it. -/
inductive Pruned where
  | single (node : Node)
  | splice (block : Block)

namespace Pruned

def isSplice : Pruned → Bool
  | .single _ => false
  | .splice _ => true

/-- The statements given to the sequence around. -/
def statements : Pruned → List Node
  | .single n => [n]
  | .splice b => b.statements

/-- The result where an expression must stand: there a splice stays a block. -/
def node : Pruned → Node
  | .single n => n
  | .splice b => .block b

end Pruned

/-- A sequence followed by another, cut off after its first jump. -/
def appendToJump : List Node → List Node → List Node
  | [], rest => rest
  | n :: ns, rest => if n.isJump then [n] else n :: appendToJump ns rest

mutual

/-- Conditions, the payload of a jump and the parameters of a function are left alone.
`while (TRUE)` stays, because its breaks decide whether it ends. -/
def Node.prune : Node → Pruned
  | .number s v i => .single (.number s v i)
  | .string s v => .single (.string s v)
  | .boolean s v => .single (.boolean s v)
  | .null s => .single (.null s)
  | .identifier id => .single (.identifier id)
  | .unary s op x => .single (.unary s op x.prune.node)
  | .binary s op l r => .single (.binary s op l.prune.node r.prune.node)
  | .call s f args => .single (.call s f.prune.node (pruneArguments args))
  | .index s t xs d => .single (.index s t.prune.node (pruneItems xs) d)
  | .member s t name => .single (.member s t.prune.node name)
  | .block b => .splice b.prune
  | .assign s op t v => .single (.assign s op t.prune.node v.prune.node)
  | .cond s c t none =>
    match c.literal? with
    | some true => .splice t.prune
    | some false => .splice ⟨s, []⟩
    | none => .single (.cond s c t.prune none)
  | .cond s c t (some e) =>
    match c.literal? with
    | some true => .splice t.prune
    | some false => .splice e.prune
    | none => .single (.cond s c t.prune (some e.prune))
  | .whileLoop s c b =>
    if c.literal? = some false then .splice ⟨s, []⟩ else .single (.whileLoop s c b.prune)
  | .repeatLoop s b => .single (.repeatLoop s b.prune)
  | .forLoop s v x b => .single (.forLoop s v x.prune.node b.prune)
  | .function s ps b => .single (.function s ps b.prune)
  | .jump s k x => .single (.jump s k x)

def Block.prune : Block → Block
  | ⟨s, ss⟩ => ⟨s, pruneNodes ss⟩

/-- A statement sequence. -/
def pruneNodes : List Node → List Node
  | [] => []
  | n :: ns => appendToJump n.prune.statements (pruneNodes ns)

/-- A list of expressions. -/
def pruneItems : List Node → List Node
  | [] => []
  | n :: ns => n.prune.node :: pruneItems ns

def pruneArguments : List Argument → List Argument
  | [] => []
  | ⟨s, name, v⟩ :: as => ⟨s, name, v.prune.node⟩ :: pruneArguments as

end

/-- What pruning did, in the order it was done. -/
inductive PruneNote where
  | collapsed (verdict : Bool) (line : Int)
  | removedLoop (line : Int)
  | dropped (count : Nat) (kind : Jump) (line : Int)
deriving DecidableEq, Repr

namespace PruneNote

def text : PruneNote → String
  | .collapsed v line =>
    "Collapsing 'if (" ++ (if v then "TRUE" else "FALSE") ++ ")' at line " ++ toString line
  | .removedLoop line => "Removing 'while (FALSE)' at line " ++ toString line
  | .dropped n kind line =>
    "Dropping " ++ toString n ++ " statement(s) after '" ++ kind.word ++ "' at line " ++ toString line

def droppedCount : PruneNote → Nat
  | .dropped n _ _ => n
  | _ => 0

def collapsedCount : PruneNote → Nat
  | .dropped .. => 0
  | _ => 1

end PruneNote

/-- The first jump of a sequence and its line. -/
def firstJump? : List Node → Option (Jump × Int)
  | [] => none
  | .jump s k _ :: _ => some (k, s.startLine)
  | _ :: ns => firstJump? ns

/-- The note on the statements behind a jump, if there are any. -/
def droppedNote (rest : List Node) (jump : Jump × Int) : List PruneNote :=
  if rest.isEmpty then [] else [.dropped rest.length jump.1 jump.2]

/-- The note on an `if` with a literal condition. -/
def collapseNote (s : Span) (c : Node) : List PruneNote :=
  match c.literal? with
  | some v => [.collapsed v s.startLine]
  | none => []

mutual

def Node.pruneNotes : Node → List PruneNote
  | .number .. | .string .. | .boolean .. | .null .. | .identifier .. | .jump .. => []
  | .unary _ _ x => x.pruneNotes
  | .binary _ _ l r => l.pruneNotes ++ r.pruneNotes
  | .call _ f args => f.pruneNotes ++ argumentNotes args
  | .index _ t xs _ => t.pruneNotes ++ itemNotes xs
  | .member _ t _ => t.pruneNotes
  | .block b => b.pruneNotes
  | .assign _ _ t v => t.pruneNotes ++ v.pruneNotes
  | .cond s c t none => t.pruneNotes ++ collapseNote s c
  | .cond s c t (some e) => t.pruneNotes ++ e.pruneNotes ++ collapseNote s c
  | .whileLoop s c b =>
    b.pruneNotes ++ if c.literal? = some false then [.removedLoop s.startLine] else []
  | .repeatLoop _ b => b.pruneNotes
  | .forLoop _ _ x b => x.pruneNotes ++ b.pruneNotes
  | .function _ _ b => b.pruneNotes

def Block.pruneNotes : Block → List PruneNote
  | ⟨_, ss⟩ => sequenceNotes ss

/-- Statements behind a jump are dropped unseen. -/
def sequenceNotes : List Node → List PruneNote
  | [] => []
  | n :: ns =>
    n.pruneNotes ++
      match firstJump? n.prune.statements with
      | some jump => droppedNote ns jump
      | none => sequenceNotes ns

def itemNotes : List Node → List PruneNote
  | [] => []
  | n :: ns => n.pruneNotes ++ itemNotes ns

def argumentNotes : List Argument → List PruneNote
  | [] => []
  | ⟨_, _, v⟩ :: as => v.pruneNotes ++ argumentNotes as

end

/-! A node is inert when pruning gives it back untouched: it is a jump, or it holds no
statement sequence outside of jumps. -/

mutual

def Node.isInert : Node → Bool
  | .number .. | .string .. | .boolean .. | .null .. | .identifier .. | .jump .. => true
  | .unary _ _ x => x.isInert
  | .binary _ _ l r => l.isInert && r.isInert
  | .call _ f args => f.isInert && inertArguments args
  | .index _ t xs _ => t.isInert && inertItems xs
  | .member _ t _ => t.isInert
  | .assign _ _ t v => t.isInert && v.isInert
  | .block _ | .cond .. | .whileLoop .. | .repeatLoop .. | .forLoop .. | .function .. => false

def inertItems : List Node → Bool
  | [] => true
  | n :: ns => n.isInert && inertItems ns

def inertArguments : List Argument → Bool
  | [] => true
  | ⟨_, _, v⟩ :: as => v.isInert && inertArguments as

end

namespace Program

def prune (p : Program) : Program := { p with body := pruneNodes p.body }

def pruneNotes (p : Program) : List PruneNote := sequenceNotes p.body

def droppedCount (p : Program) : Nat := (p.pruneNotes.map (·.droppedCount)).foldr (· + ·) 0

def collapsedCount (p : Program) : Nat := (p.pruneNotes.map (·.collapsedCount)).foldr (· + ·) 0

/-- Whether pruning takes nodes away. -/
def pruneShrinks (p : Program) : Bool := p.prune.size < p.size

end Program
end Deadwood
