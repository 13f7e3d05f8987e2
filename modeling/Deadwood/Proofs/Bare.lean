import Deadwood.Proofs.Chain
import Deadwood.Source.Grammar
import Deadwood.Tree.Print

/-! Trees up to places. A bare tree is one whose spans are all the same; two trees that are
equal up to places have the same bare tree. -/
namespace Deadwood

def Span.blank : Span := ⟨0, 0, 0, 0, none⟩

mutual

def Node.bare : Node → Node
  | .number _ v i => .number .blank v i
  | .string _ v => .string .blank v
  | .boolean _ v => .boolean .blank v
  | .null _ => .null .blank
  | .identifier ⟨_, name⟩ => .identifier ⟨.blank, name⟩
  | .unary _ op x => .unary .blank op x.bare
  | .binary _ op l r => .binary .blank op l.bare r.bare
  | .call _ f args => .call .blank f.bare (bareArguments args)
  | .index _ t xs d => .index .blank t.bare (bareNodes xs) d
  | .member _ t name => .member .blank t.bare name
  | .block b => .block b.bare
  | .assign _ op t v => .assign .blank op t.bare v.bare
  | .cond _ c t none => .cond .blank c.bare t.bare none
  | .cond _ c t (some e) => .cond .blank c.bare t.bare (some e.bare)
  | .whileLoop _ c b => .whileLoop .blank c.bare b.bare
  | .repeatLoop _ b => .repeatLoop .blank b.bare
  | .forLoop _ ⟨_, name⟩ x b => .forLoop .blank ⟨.blank, name⟩ x.bare b.bare
  | .function _ ps b => .function .blank (bareParameters ps) b.bare
  | .jump _ k none => .jump .blank k none
  | .jump _ k (some x) => .jump .blank k (some x.bare)

def Block.bare : Block → Block
  | ⟨_, ss⟩ => ⟨.blank, bareNodes ss⟩

def Argument.bare : Argument → Argument
  | ⟨_, name, v⟩ => ⟨.blank, name, v.bare⟩

def Parameter.bare : Parameter → Parameter
  | ⟨_, name, none⟩ => ⟨.blank, name, none⟩
  | ⟨_, name, some d⟩ => ⟨.blank, name, some d.bare⟩

def bareNodes : List Node → List Node
  | [] => []
  | n :: ns => n.bare :: bareNodes ns

def bareArguments : List Argument → List Argument
  | [] => []
  | a :: as => a.bare :: bareArguments as

def bareParameters : List Parameter → List Parameter
  | [] => []
  | p :: ps => p.bare :: bareParameters ps

end

def Program.bare (p : Program) : Program := ⟨.blank, p.file, bareNodes p.body⟩

mutual

@[simp] theorem Node.bare_bare : (n : Node) → n.bare.bare = n.bare
  | .number .. | .string .. | .boolean .. | .null .. | .identifier .. => rfl
  | .unary s op x => by simp only [Node.bare, Node.bare_bare x]
  | .binary s op l r => by simp only [Node.bare, Node.bare_bare l, Node.bare_bare r]
  | .call s f args => by simp only [Node.bare, Node.bare_bare f, bareArguments_bareArguments args]
  | .index s t xs d => by simp only [Node.bare, Node.bare_bare t, bareNodes_bareNodes xs]
  | .member s t name => by simp only [Node.bare, Node.bare_bare t]
  | .block b => by simp only [Node.bare, Block.bare_bare b]
  | .assign s op t v => by simp only [Node.bare, Node.bare_bare t, Node.bare_bare v]
  | .cond s c t none => by simp only [Node.bare, Node.bare_bare c, Block.bare_bare t]
  | .cond s c t (some e) => by simp only [Node.bare, Node.bare_bare c, Block.bare_bare t, Block.bare_bare e]
  | .whileLoop s c b => by simp only [Node.bare, Node.bare_bare c, Block.bare_bare b]
  | .repeatLoop s b => by simp only [Node.bare, Block.bare_bare b]
  | .forLoop s v x b => by simp only [Node.bare, Node.bare_bare x, Block.bare_bare b]
  | .function s ps b => by simp only [Node.bare, bareParameters_bareParameters ps, Block.bare_bare b]
  | .jump s k none => rfl
  | .jump s k (some x) => by simp only [Node.bare, Node.bare_bare x]

@[simp] theorem Block.bare_bare : (b : Block) → b.bare.bare = b.bare
  | ⟨_, ss⟩ => by simp only [Block.bare, bareNodes_bareNodes ss]

@[simp] theorem bareNodes_bareNodes : (ns : List Node) → bareNodes (bareNodes ns) = bareNodes ns
  | [] => rfl
  | n :: ns => by simp only [bareNodes, Node.bare_bare n, bareNodes_bareNodes ns]

@[simp] theorem bareArguments_bareArguments : (as : List Argument) →
    bareArguments (bareArguments as) = bareArguments as
  | [] => rfl
  | ⟨_, _, v⟩ :: as => by
    simp only [bareArguments, Argument.bare, Node.bare_bare v, bareArguments_bareArguments as]

@[simp] theorem bareParameters_bareParameters : (ps : List Parameter) →
    bareParameters (bareParameters ps) = bareParameters ps
  | [] => rfl
  | ⟨_, _, none⟩ :: ps => by simp only [bareParameters, Parameter.bare, bareParameters_bareParameters ps]
  | ⟨_, _, some d⟩ :: ps => by
    simp only [bareParameters, Parameter.bare, Node.bare_bare d, bareParameters_bareParameters ps]

end

theorem bareNodes_eq_map (ns : List Node) : bareNodes ns = ns.map Node.bare := by
  induction ns with
  | nil => rfl
  | cons n ns ih => rw [bareNodes, ih, List.map_cons]

theorem bareArguments_eq_map (as : List Argument) : bareArguments as = as.map Argument.bare := by
  induction as with
  | nil => rfl
  | cons a as ih => rw [bareArguments, ih, List.map_cons]

theorem bareParameters_eq_map (ps : List Parameter) : bareParameters ps = ps.map Parameter.bare := by
  induction ps with
  | nil => rfl
  | cons p ps ih => rw [bareParameters, ih, List.map_cons]

theorem Node.asBlock_bare (n : Node) : n.bare.asBlock = n.asBlock.bare := by
  cases n with
  | block b => rfl
  | cond s c t e? => cases e? <;> rfl
  | jump s k x? => cases x? <;> rfl
  | _ => rfl

/-! Printing does not look at places. -/

theorem Node.precedence_bare (n : Node) : n.bare.precedence = n.precedence := by
  cases n with
  | cond s c t e? => cases e? <;> rfl
  | jump s k x? => cases x? <;> rfl
  | _ => rfl

theorem Print.wrap_bare (n : Node) (strength : Nat) (strict : Bool) (text : String) :
    wrap n.bare strength strict text = wrap n strength strict text := by
  simp [wrap, Node.precedence_bare]

theorem Print.isElseIf_bare (ss : List Node) : isElseIf (bareNodes ss) = isElseIf ss := by
  match ss with
  | [] => rfl
  | [n] =>
    cases n with
    | cond s c t e? => cases e? <;> rfl
    | jump s k x? => cases x? <;> rfl
    | _ => rfl
  | n :: m :: ss => simp [bareNodes, isElseIf]

mutual

theorem Print.node_bare (indent : String) (level : Int) : (n : Node) →
    node indent level n.bare = node indent level n
  | .number .. | .string .. | .boolean .. | .null .. | .identifier .. => rfl
  | .unary s op x => by simp only [Node.bare, node, node_bare indent level x, wrap_bare]
  | .binary s op l r => by
    simp only [Node.bare, node, node_bare indent level l, node_bare indent level r, wrap_bare]
  | .call s f args => by
    simp only [Node.bare, node, node_bare indent level f, arguments_bare indent level args, wrap_bare]
  | .index s t xs d => by
    simp only [Node.bare, node, node_bare indent level t, nodes_bare indent level xs, wrap_bare]
  | .member s t name => by simp only [Node.bare, node, node_bare indent level t, wrap_bare]
  | .block b => by simp only [Node.bare, node, block_bare indent level b]
  | .assign s op t v => by simp only [Node.bare, node, node_bare indent level t, node_bare indent level v]
  | .cond s c t none => by simp only [Node.bare, node, node_bare indent level c, block_bare indent level t]
  | .cond s c t (some e) => by
    simp only [Node.bare, node, node_bare indent level c, block_bare indent level t,
      alternative_bare indent level e]
  | .whileLoop s c b => by simp only [Node.bare, node, node_bare indent level c, block_bare indent level b]
  | .repeatLoop s b => by simp only [Node.bare, node, block_bare indent level b]
  | .forLoop s v x b => by simp only [Node.bare, node, node_bare indent level x, block_bare indent level b]
  | .function s ps b => by
    simp only [Node.bare, node, parameters_bare indent level ps, block_bare indent level b]
  | .jump s k none => by cases k <;> rfl
  | .jump s k (some x) => by
    cases k with
    | ret => simp only [Node.bare, node, node_bare indent level x]
    | _ => rfl

theorem Print.block_bare (indent : String) (level : Int) : (b : Block) →
    block indent level b.bare = block indent level b
  | ⟨_, ss⟩ => by simp only [Block.bare, block, nodes_bare indent (level + 1) ss]

theorem Print.alternative_bare (indent : String) (level : Int) : (b : Block) →
    alternative indent level b.bare = alternative indent level b
  | ⟨_, ss⟩ => by
    simp only [Block.bare, alternative, nodes_bare indent level ss, nodes_bare indent (level + 1) ss,
      isElseIf_bare]

theorem Print.nodes_bare (indent : String) (level : Int) : (ns : List Node) →
    nodes indent level (bareNodes ns) = nodes indent level ns
  | [] => rfl
  | n :: ns => by simp only [bareNodes, nodes, node_bare indent level n, nodes_bare indent level ns]

theorem Print.arguments_bare (indent : String) (level : Int) : (as : List Argument) →
    arguments indent level (bareArguments as) = arguments indent level as
  | [] => rfl
  | ⟨_, none, v⟩ :: as => by
    simp only [bareArguments, Argument.bare, arguments, node_bare indent level v,
      arguments_bare indent level as]
  | ⟨_, some name, v⟩ :: as => by
    simp only [bareArguments, Argument.bare, arguments, node_bare indent level v,
      arguments_bare indent level as]

theorem Print.parameters_bare (indent : String) (level : Int) : (ps : List Parameter) →
    parameters indent level (bareParameters ps) = parameters indent level ps
  | [] => rfl
  | ⟨_, name, none⟩ :: ps => by
    simp only [bareParameters, Parameter.bare, parameters, parameters_bare indent level ps]
  | ⟨_, name, some d⟩ :: ps => by
    simp only [bareParameters, Parameter.bare, parameters, node_bare indent level d,
      parameters_bare indent level ps]

end

/-! Calls and chains, the nodes that are not built by a constructor alone. -/

theorem Grammar.called_of_ne {name : String} (h : name ≠ "return") (id : Span) (args : List Argument)
    (s : Span) : called (.identifier ⟨id, name⟩) args s = .call s (.identifier ⟨id, name⟩) args := by
  unfold called
  split <;> simp_all

theorem Grammar.called_bare (f : Node) (args : List Argument) (s : Span) :
    (called f args s).bare = called f.bare (bareArguments args) .blank := by
  cases f with
  | identifier id =>
    obtain ⟨sp, name⟩ := id
    by_cases h : name = "return"
    · subst h
      match args with
      | [] => rfl
      | [⟨_, none, x⟩] => rfl
      | [⟨_, some name, x⟩] => rfl
      | ⟨_, _, _⟩ :: ⟨_, _, _⟩ :: as => simp [called, bareArguments, Argument.bare, Node.bare]
    · simp only [called_of_ne h, Node.bare]
  | cond s c t e? => cases e? <;> rfl
  | jump s k x? => cases x? <;> rfl
  | _ => rfl

def Opening.bare : Opening → Opening
  | .cond c => .cond c.bare
  | .whileLoop c => .whileLoop c.bare
  | .repeatLoop => .repeatLoop
  | .forLoop v x => .forLoop ⟨.blank, v.name⟩ x.bare
  | .function ps => .function (bareParameters ps)
  | .assign op t => .assign op t.bare

def Part.bare (p : Part) : Part := ⟨p.node.bare, ⟨0, 0⟩, ⟨0, 0⟩⟩

def Run.bare (r : Run) : Run := ⟨r.openings.map fun o => (⟨0, 0⟩, o.2.bare), r.leaf.bare⟩

def Alternative.bare (a : Alternative) : Alternative := ⟨a.breakBefore, a.breakAfter, a.run.bare⟩

@[simp] theorem Opening.isCond_bare (o : Opening) : o.bare.isCond = o.isCond := by cases o <;> rfl

theorem Opening.bare_bare (o : Opening) : o.bare.bare = o.bare := by
  cases o <;> simp [Opening.bare]

theorem Opening.close_bare (o : Opening) (s : Span) (n : Node) :
    (o.close s n).bare = o.bare.close .blank n.bare := by
  cases o <;> simp [Opening.close, Opening.bare, Node.bare, Node.asBlock_bare]

@[simp] theorem Run.conds_bare (r : Run) : r.bare.conds = r.conds := by
  simp [Run.conds, Run.bare, List.countP_map, Function.comp_def]

theorem Run.bare_opened (r : Run) (start : Position) (o : Opening) :
    (r.opened start o).bare = r.bare.opened ⟨0, 0⟩ o.bare := rfl

namespace Chain

theorem closes_bare (k : Nat) (as : List Alternative) :
    closes k (as.map Alternative.bare) = closes k as := by
  induction as generalizing k with
  | nil => cases k <;> rfl
  | cons a as ih =>
    cases k with
    | zero => rfl
    | succ k => simp [closes, Alternative.bare, ih]

def bareOwner (o : List Alternative × Alternative × List Alternative) :
    List Alternative × Alternative × List Alternative :=
  (o.1.map Alternative.bare, o.2.1.bare, o.2.2.map Alternative.bare)

theorem owners_bare (conds : Nat) (before as : List Alternative) :
    owners conds (before.map Alternative.bare) (as.map Alternative.bare) =
      (owners conds before as).map bareOwner := by
  induction as generalizing before with
  | nil => rfl
  | cons a as ih =>
    have hlater := ih (before ++ [a])
    simp only [List.map_append, List.map_cons, List.map_nil] at hlater
    simp only [List.map_cons, owners, hlater, closes_bare]
    rw [show a.bare.run.conds = a.run.conds from Run.conds_bare a.run]
    split <;> rfl

theorem owner?_bare (conds : Nat) (as : List Alternative) :
    owner? conds (as.map Alternative.bare) = (owner? conds as).map bareOwner := by
  have howners := owners_bare conds [] as
  rw [List.map_nil] at howners
  simp only [owner?, howners, prefer_map, List.getLast?_map]
  rfl

/-- What a chain means does not hang on where it stands. -/
theorem nest_bare (file : String) (fuel : Nat) (r : Run) (as : List Alternative) :
    (nest "" fuel r.bare (as.map Alternative.bare)).node.bare = (nest file fuel r as).node.bare := by
  induction fuel generalizing r as with
  | zero => exact Node.bare_bare r.leaf.node
  | succ fuel ih =>
    cases r using Run.openedCases with
    | leaf x => exact Node.bare_bare x.node
    | opened start o r =>
      have howner := owner?_bare r.conds as
      rw [← Run.conds_bare] at howner
      rw [Run.bare_opened]
      cases hfound : owner? r.conds as with
      | none =>
        rw [Run.conds_bare, hfound, ← Run.conds_bare] at howner
        rw [nest_unowned fun _ => hfound, nest_unowned fun _ => howner]
        simp only [Opening.close_bare, Opening.bare_bare, ih]
      | some owner =>
        obtain ⟨before, a, after⟩ := owner
        rw [Run.conds_bare, hfound, ← Run.conds_bare] at howner
        by_cases hcond : o.isCond
        · obtain ⟨c, rfl⟩ : ∃ c, o = .cond c := by cases o <;> simp_all [Opening.isCond]
          rw [nest_owned hfound, Opening.bare, nest_owned howner]
          have hno : (nest "" fuel a.bare.run (after.map Alternative.bare)).node.bare =
            (nest file fuel a.run after).node.bare := ih a.run after
          simp only [Node.bare, ← Node.asBlock_bare, Node.bare_bare, ih, hno]
        · rw [nest_unowned (absurd · hcond), nest_unowned fun h => absurd (o.isCond_bare ▸ h) hcond]
          simp only [Opening.close_bare, Opening.bare_bare, ih]

theorem build_bare (file : String) (r : Run) (as : List Alternative) :
    (build "" r.bare (as.map Alternative.bare)).node.bare = (build file r as).node.bare := by
  have hdepth : depth r.bare (as.map Alternative.bare) = depth r as := by
    simp [depth, Run.bare, Alternative.bare, Function.comp_def]
  rw [build, hdepth, nest_bare file, build]

end Chain
end Deadwood
