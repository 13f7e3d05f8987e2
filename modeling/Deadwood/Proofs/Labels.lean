import Deadwood.Proofs.Pruning

/-! Pruning keeps what it keeps in order. The nodes of a pruned program, blocks apart, are nodes of
the program as they were, and come in the order that they had. -/
namespace Deadwood
open List (Sublist)

/-- A node without the nodes below it. -/
inductive Label where
  | program (span : Span) (file : String)
  | number (span : Span) (value : Number) (isInteger : Bool)
  | string (span : Span) (value : List Text.Point)
  | boolean (span : Span) (value : Bool)
  | null (span : Span)
  | identifier (id : Identifier)
  | unary (span : Span) (op : UnaryOp)
  | binary (span : Span) (op : BinaryOp)
  | call (span : Span)
  | argument (span : Span) (name : Option String)
  | index (span : Span) (double : Bool)
  | member (span : Span) (name : String)
  | assign (span : Span) (op : AssignOp)
  | cond (span : Span)
  | whileLoop (span : Span)
  | repeatLoop (span : Span)
  | forLoop (span : Span)
  | function (span : Span)
  | parameter (span : Span) (name : String)
  | jump (span : Span) (kind : Jump)
deriving DecidableEq, Repr

mutual

/-- The labels of a node and of those below it, each before those below. Blocks have none. -/
def Node.labels : Node → List Label
  | .number s v i => [.number s v i]
  | .string s v => [.string s v]
  | .boolean s v => [.boolean s v]
  | .null s => [.null s]
  | .identifier id => [.identifier id]
  | .unary s op x => .unary s op :: x.labels
  | .binary s op l r => .binary s op :: (l.labels ++ r.labels)
  | .call s f args => .call s :: (f.labels ++ labelsArguments args)
  | .index s t xs d => .index s d :: (t.labels ++ labelsNodes xs)
  | .member s t name => .member s name :: t.labels
  | .block b => b.labels
  | .assign s op t v => .assign s op :: (t.labels ++ v.labels)
  | .cond s c t none => .cond s :: (c.labels ++ t.labels)
  | .cond s c t (some e) => .cond s :: (c.labels ++ (t.labels ++ e.labels))
  | .whileLoop s c b => .whileLoop s :: (c.labels ++ b.labels)
  | .repeatLoop s b => .repeatLoop s :: b.labels
  | .forLoop s v x b => .forLoop s :: .identifier v :: (x.labels ++ b.labels)
  | .function s ps b => .function s :: (labelsParameters ps ++ b.labels)
  | .jump s k none => [.jump s k]
  | .jump s k (some x) => .jump s k :: x.labels

def Block.labels : Block → List Label
  | ⟨_, ss⟩ => labelsNodes ss

def labelsNodes : List Node → List Label
  | [] => []
  | n :: ns => n.labels ++ labelsNodes ns

def labelsArguments : List Argument → List Label
  | [] => []
  | ⟨s, name, v⟩ :: as => .argument s name :: (v.labels ++ labelsArguments as)

def labelsParameters : List Parameter → List Label
  | [] => []
  | ⟨s, name, none⟩ :: ps => .parameter s name :: labelsParameters ps
  | ⟨s, name, some d⟩ :: ps => .parameter s name :: (d.labels ++ labelsParameters ps)

end

def Program.labels (p : Program) : List Label := .program p.span p.file :: labelsNodes p.body

/-- Splicing a block loses no label. -/
theorem Pruned.labelsNodes_statements (p : Pruned) : labelsNodes p.statements = p.node.labels := by
  cases p with
  | single n => simp [labelsNodes]
  | splice b =>
    cases b
    simp [Node.labels, Block.labels]

/-- What stands behind a jump is left out. -/
theorem labelsNodes_appendToJump (ss rest : List Node) :
    Sublist (labelsNodes (appendToJump ss rest)) (labelsNodes ss ++ labelsNodes rest) := by
  induction ss with
  | nil => exact .refl _
  | cons n ns ih =>
    rw [appendToJump, labelsNodes, List.append_assoc]
    split
    · rw [labelsNodes, labelsNodes]
      exact (List.nil_sublist _).append_left _
    · rw [labelsNodes]
      exact ih.append_left _

mutual

theorem Node.labels_prune : (n : Node) → Sublist n.prune.node.labels n.labels
  | .number .. | .string .. | .boolean .. | .null .. | .identifier .. | .jump .. => .refl _
  | .unary s op x => x.labels_prune.cons_cons _
  | .binary s op l r => (l.labels_prune.append r.labels_prune).cons_cons _
  | .call s f args => (f.labels_prune.append (labelsArguments_prune args)).cons_cons _
  | .index s t xs d => (t.labels_prune.append (labelsNodes_pruneItems xs)).cons_cons _
  | .member s t name => t.labels_prune.cons_cons _
  | .block b => b.labels_prune
  | .assign s op t v => (t.labels_prune.append v.labels_prune).cons_cons _
  | .cond s c t none => by
    have ht := t.labels_prune
    rw [Node.prune_cond, Node.labels]
    cases c.literal? with
    | none => exact (ht.append_left _).cons_cons _
    | some v =>
      cases v with
      | true => exact (ht.trans (List.sublist_append_right _ _)).cons _
      | false => exact List.nil_sublist _
  | .cond s c t (some e) => by
    have ht := t.labels_prune
    have he := e.labels_prune
    rw [Node.prune_cond, Node.labels]
    cases c.literal? with
    | none => exact ((ht.append he).append_left _).cons_cons _
    | some v =>
      -- The branch that is selected stands behind the condition, and the other one around it goes.
      cases v with
      | true =>
        have hbranch := ht.trans (List.sublist_append_left t.labels e.labels)
        exact (hbranch.trans (List.sublist_append_right _ _)).cons _
      | false =>
        have hbranch := he.trans (List.sublist_append_right t.labels e.labels)
        exact (hbranch.trans (List.sublist_append_right _ _)).cons _
  | .whileLoop s c b => by
    rw [Node.prune, Node.labels]
    split
    · exact List.nil_sublist _
    · exact (b.labels_prune.append_left _).cons_cons _
  | .repeatLoop s b => b.labels_prune.cons_cons _
  | .forLoop s v x b => ((x.labels_prune.append b.labels_prune).cons_cons _).cons_cons _
  | .function s ps b => (b.labels_prune.append_left _).cons_cons _

theorem Block.labels_prune : (b : Block) → Sublist b.prune.labels b.labels
  | ⟨_, ss⟩ => labelsNodes_prune ss

theorem labelsNodes_prune : (ss : List Node) → Sublist (labelsNodes (pruneNodes ss)) (labelsNodes ss)
  | [] => .refl _
  | n :: ns => by
    have happend := labelsNodes_appendToJump n.prune.statements (pruneNodes ns)
    rw [Pruned.labelsNodes_statements] at happend
    rw [pruneNodes, labelsNodes]
    exact happend.trans (n.labels_prune.append (labelsNodes_prune ns))

theorem labelsNodes_pruneItems : (xs : List Node) → Sublist (labelsNodes (pruneItems xs)) (labelsNodes xs)
  | [] => .refl _
  | x :: xs => x.labels_prune.append (labelsNodes_pruneItems xs)

theorem labelsArguments_prune : (as : List Argument) →
    Sublist (labelsArguments (pruneArguments as)) (labelsArguments as)
  | [] => .refl _
  | ⟨_, _, v⟩ :: as => (v.labels_prune.append (labelsArguments_prune as)).cons_cons _

end

/-- Pruning reorders, duplicates and invents nothing: the labels of a pruned program are labels of
the program, in their order. -/
theorem prune_keeps_order (p : Program) : Sublist p.prune.labels p.labels :=
  (labelsNodes_prune p.body).cons_cons _

end Deadwood
