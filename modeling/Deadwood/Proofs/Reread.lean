import Deadwood.Proofs.Printed

/-! What a printed tree is read as. It is the tree itself, but for numbers, which have the value of their numeral, for
infinity, which is written as a name, and for quoted names of arguments, whose escapes are not read back. -/
namespace Deadwood
open Print

/-- The name that an argument has once it is printed and read. -/
def Print.rereadName (name : String) : String :=
  if Lexeme.isName name.toList then name else String.ofList (Text.encode (Text.points name))

def Number.reread (s : Span) (v : Number) (isInteger : Bool) : Node :=
  if numeral v isInteger == "inf" then .identifier ⟨s, "inf"⟩
  else match Literal.number (numeral v isInteger) with
    | .ok (w, j) => .number s w j
    | .error _ => .number s v isInteger

mutual

def Node.reread : Node → Node
  | .number s v i => v.reread s i
  | .unary s op x => .unary s op x.reread
  | .binary s op l r => .binary s op l.reread r.reread
  | .call s f args => .call s f.reread (rereadArguments args)
  | .index s t xs d => .index s t.reread (rereadNodes xs) d
  | .member s t name => .member s t.reread name
  | .block b => .block b.reread
  | .assign s op t v => .assign s op t.reread v.reread
  | .cond s c t none => .cond s c.reread t.reread none
  | .cond s c t (some e) => .cond s c.reread t.reread (some e.reread)
  | .whileLoop s c b => .whileLoop s c.reread b.reread
  | .repeatLoop s b => .repeatLoop s b.reread
  | .forLoop s v x b => .forLoop s v x.reread b.reread
  | .function s ps b => .function s (rereadParameters ps) b.reread
  | .jump s k (some x) => .jump s k (some x.reread)
  | n => n

def Block.reread : Block → Block
  | ⟨s, ss⟩ => ⟨s, rereadNodes ss⟩

def rereadNodes : List Node → List Node
  | [] => []
  | n :: ns => n.reread :: rereadNodes ns

def rereadArguments : List Argument → List Argument
  | [] => []
  | ⟨s, name, v⟩ :: as => ⟨s, name.map rereadName, v.reread⟩ :: rereadArguments as

def rereadParameters : List Parameter → List Parameter
  | [] => []
  | ⟨s, name, none⟩ :: ps => ⟨s, name, none⟩ :: rereadParameters ps
  | ⟨s, name, some d⟩ :: ps => ⟨s, name, some d.reread⟩ :: rereadParameters ps

end

/-! Spelled trees are read as they are. -/

theorem Number.reread_of_isSpelled {v : Number} {i : Bool} (h : v.isSpelled i) (s : Span) :
    v.reread s i = .number s v i := by
  obtain ⟨-, -, htext, hread⟩ := isSpelled_iff.1 h
  have hinf : (numeral v i == "inf") = false := by
    refine beq_eq_false_iff_ne.2 fun hinf => ?_
    rw [hinf] at htext
    revert htext
    decide
  simp [reread, hread, hinf]

mutual

theorem Node.reread_of_isSpelled : (n : Node) → n.all Node.isSpelled → n.reread = n
  | .number s v i, h => Number.reread_of_isSpelled h s
  | .string .., _ | .boolean .., _ | .null _, _ | .identifier _, _ => rfl
  | .unary s op x, h => by
    simp only [Node.all, Bool.and_eq_true] at h
    rw [Node.reread, x.reread_of_isSpelled h.2]
  | .binary s op l r, h => by
    simp only [Node.all, Bool.and_eq_true] at h
    rw [Node.reread, l.reread_of_isSpelled h.1.2, r.reread_of_isSpelled h.2]
  | .call s f args, h => by
    simp only [Node.all, Node.isSpelled, Bool.and_eq_true] at h
    rw [Node.reread, f.reread_of_isSpelled h.1.2, rereadArguments_of_isSpelled args h.1.1.1.2 h.2]
  | .index s t xs d, h => by
    simp only [Node.all, Bool.and_eq_true] at h
    rw [Node.reread, t.reread_of_isSpelled h.1.2, rereadNodes_of_isSpelled xs h.2]
  | .member s t name, h => by
    simp only [Node.all, Bool.and_eq_true] at h
    rw [Node.reread, t.reread_of_isSpelled h.2]
  | .block b, h => by
    simp only [Node.all, Bool.and_eq_true] at h
    rw [Node.reread, b.reread_of_isSpelled h.2]
  | .assign s op t v, h => by
    simp only [Node.all, Bool.and_eq_true] at h
    rw [Node.reread, t.reread_of_isSpelled h.1.2, v.reread_of_isSpelled h.2]
  | .cond s c t none, h => by
    simp only [Node.all, Bool.and_eq_true] at h
    rw [Node.reread, c.reread_of_isSpelled h.1.2, t.reread_of_isSpelled h.2]
  | .cond s c t (some e), h => by
    simp only [Node.all, Bool.and_eq_true] at h
    rw [Node.reread, c.reread_of_isSpelled h.1.1.2, t.reread_of_isSpelled h.1.2, e.reread_of_isSpelled h.2]
  | .whileLoop s c b, h => by
    simp only [Node.all, Bool.and_eq_true] at h
    rw [Node.reread, c.reread_of_isSpelled h.1.2, b.reread_of_isSpelled h.2]
  | .repeatLoop s b, h => by
    simp only [Node.all, Bool.and_eq_true] at h
    rw [Node.reread, b.reread_of_isSpelled h.2]
  | .forLoop s v x b, h => by
    simp only [Node.all, Bool.and_eq_true] at h
    rw [Node.reread, x.reread_of_isSpelled h.1.2, b.reread_of_isSpelled h.2]
  | .function s ps b, h => by
    simp only [Node.all, Bool.and_eq_true] at h
    rw [Node.reread, rereadParameters_of_isSpelled ps h.1.2, b.reread_of_isSpelled h.2]
  | .jump s k none, _ => rfl
  | .jump s k (some x), h => by
    simp only [Node.all, Bool.and_eq_true] at h
    rw [Node.reread, x.reread_of_isSpelled h.2]

theorem Block.reread_of_isSpelled : (b : Block) → b.all Node.isSpelled → b.reread = b
  | ⟨_, ss⟩, h => by rw [Block.reread, rereadNodes_of_isSpelled ss h]

theorem rereadNodes_of_isSpelled : (ns : List Node) → allNodes Node.isSpelled ns → rereadNodes ns = ns
  | [], _ => rfl
  | n :: ns, h => by
    simp only [allNodes, Bool.and_eq_true] at h
    rw [rereadNodes, n.reread_of_isSpelled h.1, rereadNodes_of_isSpelled ns h.2]

theorem rereadArguments_of_isSpelled : (as : List Argument) → as.all Argument.isSpelled →
    allArguments Node.isSpelled as → rereadArguments as = as
  | [], _, _ => rfl
  | ⟨_, none, v⟩ :: as, hnames, h => by
    simp only [allArguments, List.all_cons, Bool.and_eq_true] at h hnames
    rw [rereadArguments, v.reread_of_isSpelled h.1, rereadArguments_of_isSpelled as hnames.2 h.2]
    rfl
  | ⟨_, some name, v⟩ :: as, hnames, h => by
    simp only [allArguments, List.all_cons, Argument.isSpelled, Option.map_some, Option.getD_some,
      Bool.and_eq_true] at h hnames
    have hname : rereadName name = name := if_pos (Lexeme.isName_of_isNameText hnames.1.2)
    rw [rereadArguments, v.reread_of_isSpelled h.1, rereadArguments_of_isSpelled as hnames.2 h.2, Option.map_some,
      hname]

theorem rereadParameters_of_isSpelled : (ps : List Parameter) → allParameters Node.isSpelled ps →
    rereadParameters ps = ps
  | [], _ => rfl
  | ⟨_, _, none⟩ :: ps, h => by rw [rereadParameters, rereadParameters_of_isSpelled ps h]
  | ⟨_, _, some d⟩ :: ps, h => by
    simp only [allParameters, Bool.and_eq_true] at h
    rw [rereadParameters, d.reread_of_isSpelled h.1, rereadParameters_of_isSpelled ps h.2]

end

/-- Reading makes no call one that leaves a function. -/
theorem Node.isReturn_reread (f : Node) (args : List Argument) :
    isReturn f.reread (rereadArguments args) = isReturn f args := by
  cases f with
  | identifier id =>
    obtain ⟨span, name⟩ := id
    by_cases hname : name = "return"
    · subst hname
      match args with
      | [] | [⟨_, none, x⟩] | [⟨_, some name, x⟩] => rfl
      | ⟨_, _, _⟩ :: ⟨_, _, _⟩ :: as => simp [isReturn, Grammar.called, Node.reread, rereadArguments, Node.isJump]
    · simp only [isReturn, Node.reread, Grammar.called_of_ne hname]
      rfl
  | number s v i =>
    rw [Node.reread, Number.reread]
    split
    · have hname : "inf" ≠ "return" := by decide
      rw [isReturn, Grammar.called_of_ne hname]
      rfl
    · split <;> rfl
  | cond s c t e? => cases e? <;> rfl
  | jump s k x? => cases x? <;> rfl
  | _ => rfl

end Deadwood
