import Deadwood.Proofs.Folding

/-! The passes look at neither names nor places. Whatever is put in their stead, before a pass or
behind it, the pass takes the same decisions. -/
namespace Deadwood

section
variable (f : String → String) (g : Span → Span)

mutual

/-- The tree with other names and places. Names may fall together, and any word may become one. -/
def Node.rename : Node → Node
  | .number s v i => .number (g s) v i
  | .string s v => .string (g s) v
  | .boolean s v => .boolean (g s) v
  | .null s => .null (g s)
  | .identifier ⟨s, name⟩ => .identifier ⟨g s, f name⟩
  | .unary s op x => .unary (g s) op x.rename
  | .binary s op l r => .binary (g s) op l.rename r.rename
  | .call s c args => .call (g s) c.rename (renameArguments args)
  | .index s t xs d => .index (g s) t.rename (renameNodes xs) d
  | .member s t name => .member (g s) t.rename (f name)
  | .block b => .block b.rename
  | .assign s op t v => .assign (g s) op t.rename v.rename
  | .cond s c t none => .cond (g s) c.rename t.rename none
  | .cond s c t (some e) => .cond (g s) c.rename t.rename (some e.rename)
  | .whileLoop s c b => .whileLoop (g s) c.rename b.rename
  | .repeatLoop s b => .repeatLoop (g s) b.rename
  | .forLoop s ⟨t, name⟩ x b => .forLoop (g s) ⟨g t, f name⟩ x.rename b.rename
  | .function s ps b => .function (g s) (renameParameters ps) b.rename
  | .jump s k none => .jump (g s) k none
  | .jump s k (some x) => .jump (g s) k (some x.rename)

def Block.rename : Block → Block
  | ⟨s, ss⟩ => ⟨g s, renameNodes ss⟩

def Argument.rename : Argument → Argument
  | ⟨s, name, v⟩ => ⟨g s, name.map f, v.rename⟩

def Parameter.rename : Parameter → Parameter
  | ⟨s, name, none⟩ => ⟨g s, f name, none⟩
  | ⟨s, name, some d⟩ => ⟨g s, f name, some d.rename⟩

def renameNodes : List Node → List Node
  | [] => []
  | n :: ns => n.rename :: renameNodes ns

def renameArguments : List Argument → List Argument
  | [] => []
  | a :: as => a.rename :: renameArguments as

def renameParameters : List Parameter → List Parameter
  | [] => []
  | p :: ps => p.rename :: renameParameters ps

end

def Program.rename (p : Program) : Program := ⟨g p.span, p.file, renameNodes f g p.body⟩

def Pruned.rename : Pruned → Pruned
  | .single n => .single (n.rename f g)
  | .splice b => .splice (b.rename f g)

end

/-- A note without its line. -/
def PruneNote.unplaced : PruneNote → PruneNote
  | .collapsed v _ => .collapsed v 0
  | .removedLoop _ => .removedLoop 0
  | .dropped n kind _ => .dropped n kind 0

section
variable {f : String → String} {g : Span → Span}

/-! What the passes ask of a node: whether it is a jump, and which literal it is. -/

@[simp] theorem Node.isJump_rename (n : Node) : (n.rename f g).isJump = n.isJump := by
  cases n with
  | cond s c t e? => cases e? <;> rfl
  | jump s k x? => cases x? <;> rfl
  | _ => rfl

@[simp] theorem Node.literal?_rename (n : Node) : (n.rename f g).literal? = n.literal? := by
  cases n with
  | cond s c t e? => cases e? <;> rfl
  | jump s k x? => cases x? <;> rfl
  | _ => rfl

@[simp] theorem Node.isLiteral_rename (n : Node) : (n.rename f g).isLiteral = n.isLiteral := by
  cases n with
  | cond s c t e? => cases e? <;> rfl
  | jump s k x? => cases x? <;> rfl
  | _ => rfl

theorem Node.cases_of_isLiteral {n : Node} (h : n.isLiteral) :
    (∃ s v i, n = .number s v i) ∨ (∃ s v, n = .string s v) ∨ ∃ s v, n = .boolean s v := by
  cases n with
  | number s v i => exact .inl ⟨s, v, i, rfl⟩
  | string s v => exact .inr (.inl ⟨s, v, rfl⟩)
  | boolean s v => exact .inr (.inr ⟨s, v, rfl⟩)
  | _ => cases h

/-! Folding. An operation folds under new names just where it did, and to the same value. -/

namespace Fold

theorem unary?_rename (s : Span) (op : UnaryOp) (x : Node) :
    unary? (g s) op (x.rename f g) = (unary? s op x).map (·.rename f g) := by
  cases hx : x.isLiteral with
  | false => rw [unary?_of_not_isLiteral hx, unary?_of_not_isLiteral (by simp [hx]), Option.map_none]
  | true =>
    obtain ⟨_, a, i, rfl⟩ | ⟨_, a, rfl⟩ | ⟨_, a, rfl⟩ := Node.cases_of_isLiteral hx <;> cases op <;> rfl

theorem arith?_rename (s : Span) (op : Arith) (a b : Number) (isInteger : Bool) :
    arith? (g s) op a b isInteger = (arith? s op a b isInteger).map (·.rename f g) := by
  unfold arith?
  cases Number.evaluate op a b with
  | none => rfl
  | some v =>
    simp only [Option.bind_eq_bind, Option.bind_some]
    split <;> rfl

theorem decided?_rename (op : BinaryOp) (l : Node) : decided? op (l.rename f g) = decided? op l := by
  cases hl : l.isLiteral with
  | true =>
    obtain ⟨_, a, i, rfl⟩ | ⟨_, a, rfl⟩ | ⟨_, a, rfl⟩ := Node.cases_of_isLiteral hl
    · cases op <;> rfl
    · cases op <;> rfl
    · cases a <;> cases op <;> rfl
  | false =>
    have hnone : ∀ m : Node, m.isLiteral = false → decided? op m = none := by
      intro m hm
      unfold decided?
      split <;> simp_all [Node.isLiteral]
    rw [hnone l hl, hnone _ (by simp [hl])]

theorem binary?_rename (s : Span) (op : BinaryOp) (l r : Node) :
    binary? (g s) op (l.rename f g) (r.rename f g) = (binary? s op l r).map (·.rename f g) := by
  cases hl : l.isLiteral with
  | false => rw [binary?_of_left hl, binary?_of_left (by simp [hl]), Option.map_none]
  | true =>
    cases hr : r.isLiteral with
    | false =>
      rw [binary?_of_right hr, binary?_of_right (by simp [hr]), decided?_rename, Option.map_map]
      rfl
    | true =>
      have hright := Node.cases_of_isLiteral hr
      obtain ⟨_, a, i, rfl⟩ | ⟨_, a, rfl⟩ | ⟨_, a, rfl⟩ := Node.cases_of_isLiteral hl
      · obtain ⟨_, b, j, rfl⟩ | ⟨_, b, rfl⟩ | ⟨_, b, rfl⟩ := hright
        · cases op with
          | arith op => exact arith?_rename s op a b (i && j)
          | _ => rfl
        all_goals
          cases op with
          | rel rel => cases rel <;> rfl
          | _ => rfl
      · obtain ⟨_, b, j, rfl⟩ | ⟨_, b, rfl⟩ | ⟨_, b, rfl⟩ := hright
        all_goals
          cases op with
          | rel rel => cases rel <;> rfl
          | _ => rfl
      · obtain ⟨_, b, j, rfl⟩ | ⟨_, b, rfl⟩ | ⟨_, b, rfl⟩ := hright
        all_goals
          cases a <;>
            cases op with
            | rel rel => cases rel <;> rfl
            | _ => rfl

theorem unary_rename (s : Span) (op : UnaryOp) (x : Node) :
    unary (g s) op (x.rename f g) = (unary s op x).rename f g := by
  unfold unary
  rw [unary?_rename]
  cases unary? s op x <;> rfl

theorem binary_rename (s : Span) (op : BinaryOp) (l r : Node) :
    binary (g s) op (l.rename f g) (r.rename f g) = (binary s op l r).rename f g := by
  unfold binary
  rw [binary?_rename]
  cases binary? s op l r <;> rfl

end Fold

mutual

theorem Node.fold_rename : (n : Node) → (n.rename f g).fold = n.fold.rename f g
  | .number .. | .string .. | .boolean .. | .null .. | .identifier .. => rfl
  | .unary s op x => by rw [Node.rename, Node.fold, Node.fold, x.fold_rename, Fold.unary_rename]
  | .binary s op l r => by
    rw [Node.rename, Node.fold, Node.fold, l.fold_rename, r.fold_rename, Fold.binary_rename]
  | .call s c args => by simp only [Node.rename, Node.fold, c.fold_rename, foldArguments_rename args]
  | .index s t xs d => by simp only [Node.rename, Node.fold, t.fold_rename, foldNodes_rename xs]
  | .member s t name => by simp only [Node.rename, Node.fold, t.fold_rename]
  | .block b => by simp only [Node.rename, Node.fold, b.fold_rename]
  | .assign s op t v => by simp only [Node.rename, Node.fold, t.fold_rename, v.fold_rename]
  | .cond s c t none => by simp only [Node.rename, Node.fold, c.fold_rename, t.fold_rename]
  | .cond s c t (some e) => by simp only [Node.rename, Node.fold, c.fold_rename, t.fold_rename, e.fold_rename]
  | .whileLoop s c b => by simp only [Node.rename, Node.fold, c.fold_rename, b.fold_rename]
  | .repeatLoop s b => by simp only [Node.rename, Node.fold, b.fold_rename]
  | .forLoop s v x b => by simp only [Node.rename, Node.fold, x.fold_rename, b.fold_rename]
  | .function s ps b => by simp only [Node.rename, Node.fold, foldParameters_rename ps, b.fold_rename]
  | .jump s k none => rfl
  | .jump s k (some x) => by simp only [Node.rename, Node.fold, x.fold_rename]

theorem Block.fold_rename : (b : Block) → (b.rename f g).fold = b.fold.rename f g
  | ⟨_, ss⟩ => by simp only [Block.rename, Block.fold, foldNodes_rename ss]

theorem Argument.fold_rename : (a : Argument) → (a.rename f g).fold = a.fold.rename f g
  | ⟨_, _, v⟩ => by simp only [Argument.rename, Argument.fold, v.fold_rename]

theorem Parameter.fold_rename : (p : Parameter) → (p.rename f g).fold = p.fold.rename f g
  | ⟨_, _, none⟩ => rfl
  | ⟨_, _, some d⟩ => by simp only [Parameter.rename, Parameter.fold, d.fold_rename]

theorem foldNodes_rename : (ns : List Node) → foldNodes (renameNodes f g ns) = renameNodes f g (foldNodes ns)
  | [] => rfl
  | n :: ns => by simp only [renameNodes, foldNodes, n.fold_rename, foldNodes_rename ns]

theorem foldArguments_rename : (as : List Argument) →
    foldArguments (renameArguments f g as) = renameArguments f g (foldArguments as)
  | [] => rfl
  | a :: as => by simp only [renameArguments, foldArguments, a.fold_rename, foldArguments_rename as]

theorem foldParameters_rename : (ps : List Parameter) →
    foldParameters (renameParameters f g ps) = renameParameters f g (foldParameters ps)
  | [] => rfl
  | p :: ps => by simp only [renameParameters, foldParameters, p.fold_rename, foldParameters_rename ps]

end

mutual

theorem Node.foldings_rename : (n : Node) → (n.rename f g).foldings = n.foldings
  | .number .. | .string .. | .boolean .. | .null .. | .identifier .. => rfl
  | .unary s op x => by
    rw [Node.rename, Node.foldings, Node.foldings, x.foldings_rename, x.fold_rename, Fold.unary?_rename,
      Option.isSome_map]
  | .binary s op l r => by
    rw [Node.rename, Node.foldings, Node.foldings, l.foldings_rename, r.foldings_rename, l.fold_rename,
      r.fold_rename, Fold.binary?_rename, Option.isSome_map]
  | .call s c args => by simp only [Node.rename, Node.foldings, c.foldings_rename, foldingsArguments_rename args]
  | .index s t xs d => by simp only [Node.rename, Node.foldings, t.foldings_rename, foldingsNodes_rename xs]
  | .member s t name => by simp only [Node.rename, Node.foldings, t.foldings_rename]
  | .block b => by simp only [Node.rename, Node.foldings, b.foldings_rename]
  | .assign s op t v => by simp only [Node.rename, Node.foldings, t.foldings_rename, v.foldings_rename]
  | .cond s c t none => by simp only [Node.rename, Node.foldings, c.foldings_rename, t.foldings_rename]
  | .cond s c t (some e) => by
    simp only [Node.rename, Node.foldings, c.foldings_rename, t.foldings_rename, e.foldings_rename]
  | .whileLoop s c b => by simp only [Node.rename, Node.foldings, c.foldings_rename, b.foldings_rename]
  | .repeatLoop s b => by simp only [Node.rename, Node.foldings, b.foldings_rename]
  | .forLoop s v x b => by simp only [Node.rename, Node.foldings, x.foldings_rename, b.foldings_rename]
  | .function s ps b => by
    simp only [Node.rename, Node.foldings, foldingsParameters_rename ps, b.foldings_rename]
  | .jump s k none => rfl
  | .jump s k (some x) => by simp only [Node.rename, Node.foldings, x.foldings_rename]

theorem Block.foldings_rename : (b : Block) → (b.rename f g).foldings = b.foldings
  | ⟨_, ss⟩ => by simp only [Block.rename, Block.foldings, foldingsNodes_rename ss]

theorem Argument.foldings_rename : (a : Argument) → (a.rename f g).foldings = a.foldings
  | ⟨_, _, v⟩ => by simp only [Argument.rename, Argument.foldings, v.foldings_rename]

theorem Parameter.foldings_rename : (p : Parameter) → (p.rename f g).foldings = p.foldings
  | ⟨_, _, none⟩ => rfl
  | ⟨_, _, some d⟩ => by simp only [Parameter.rename, Parameter.foldings, d.foldings_rename]

theorem foldingsNodes_rename : (ns : List Node) → foldingsNodes (renameNodes f g ns) = foldingsNodes ns
  | [] => rfl
  | n :: ns => by simp only [renameNodes, foldingsNodes, n.foldings_rename, foldingsNodes_rename ns]

theorem foldingsArguments_rename : (as : List Argument) →
    foldingsArguments (renameArguments f g as) = foldingsArguments as
  | [] => rfl
  | a :: as => by simp only [renameArguments, foldingsArguments, a.foldings_rename, foldingsArguments_rename as]

theorem foldingsParameters_rename : (ps : List Parameter) →
    foldingsParameters (renameParameters f g ps) = foldingsParameters ps
  | [] => rfl
  | p :: ps => by simp only [renameParameters, foldingsParameters, p.foldings_rename, foldingsParameters_rename ps]

end

/-! Pruning. Only jumps and literal conditions decide, so the same statements go. -/

theorem Pruned.rename_single (n : Node) : (single n).rename f g = single (n.rename f g) := rfl

theorem Pruned.rename_splice (b : Block) : (splice b).rename f g = splice (b.rename f g) := rfl

@[simp] theorem Pruned.node_rename (p : Pruned) : (p.rename f g).node = p.node.rename f g := by
  cases p <;> rfl

@[simp] theorem Pruned.statements_rename (p : Pruned) :
    (p.rename f g).statements = renameNodes f g p.statements := by
  cases p with
  | single n => rfl
  | splice b =>
    cases b
    rfl

theorem appendToJump_rename (ss rest : List Node) :
    appendToJump (renameNodes f g ss) (renameNodes f g rest) = renameNodes f g (appendToJump ss rest) := by
  induction ss with
  | nil => rfl
  | cons n ns ih =>
    simp only [renameNodes, appendToJump, Node.isJump_rename, ih]
    split <;> rfl

mutual

theorem Node.prune_rename : (n : Node) → (n.rename f g).prune = n.prune.rename f g
  | .number .. | .string .. | .boolean .. | .null .. | .identifier .. | .jump _ _ none | .jump _ _ (some _) => rfl
  | .unary s op x => by simp only [Node.rename, Node.prune, x.prune_rename, Pruned.node_rename, Pruned.rename_single]
  | .binary s op l r => by
    simp only [Node.rename, Node.prune, l.prune_rename, r.prune_rename, Pruned.node_rename, Pruned.rename_single]
  | .call s c args => by
    simp only [Node.rename, Node.prune, c.prune_rename, pruneArguments_rename args, Pruned.node_rename,
      Pruned.rename_single]
  | .index s t xs d => by
    simp only [Node.rename, Node.prune, t.prune_rename, pruneItems_rename xs, Pruned.node_rename, Pruned.rename_single]
  | .member s t name => by simp only [Node.rename, Node.prune, t.prune_rename, Pruned.node_rename, Pruned.rename_single]
  | .block b => by simp only [Node.rename, Node.prune, b.prune_rename, Pruned.rename_splice]
  | .assign s op t v => by
    simp only [Node.rename, Node.prune, t.prune_rename, v.prune_rename, Pruned.node_rename, Pruned.rename_single]
  | .cond s c t none => by
    simp only [Node.rename, Node.prune, Node.literal?_rename, t.prune_rename]
    split <;> rfl
  | .cond s c t (some e) => by
    simp only [Node.rename, Node.prune, Node.literal?_rename, t.prune_rename, e.prune_rename]
    split <;> rfl
  | .whileLoop s c b => by
    simp only [Node.rename, Node.prune, Node.literal?_rename, b.prune_rename]
    split <;> rfl
  | .repeatLoop s b => by simp only [Node.rename, Node.prune, b.prune_rename, Pruned.rename_single]
  | .forLoop s v x b => by
    simp only [Node.rename, Node.prune, x.prune_rename, b.prune_rename, Pruned.node_rename, Pruned.rename_single]
  | .function s ps b => by simp only [Node.rename, Node.prune, b.prune_rename, Pruned.rename_single]

theorem Block.prune_rename : (b : Block) → (b.rename f g).prune = b.prune.rename f g
  | ⟨_, ss⟩ => by simp only [Block.rename, Block.prune, pruneNodes_rename ss]

theorem pruneNodes_rename : (ss : List Node) → pruneNodes (renameNodes f g ss) = renameNodes f g (pruneNodes ss)
  | [] => rfl
  | n :: ns => by
    simp only [renameNodes, pruneNodes, n.prune_rename, pruneNodes_rename ns, Pruned.statements_rename,
      appendToJump_rename]

theorem pruneItems_rename : (xs : List Node) → pruneItems (renameNodes f g xs) = renameNodes f g (pruneItems xs)
  | [] => rfl
  | x :: xs => by simp only [renameNodes, pruneItems, x.prune_rename, pruneItems_rename xs, Pruned.node_rename]

theorem pruneArguments_rename : (as : List Argument) →
    pruneArguments (renameArguments f g as) = renameArguments f g (pruneArguments as)
  | [] => rfl
  | ⟨_, _, v⟩ :: as => by
    simp only [renameArguments, Argument.rename, pruneArguments, v.prune_rename, pruneArguments_rename as,
      Pruned.node_rename]

end

/-! Notes. A renamed program has the notes of the program, at other lines. -/

theorem firstJump?_rename (ss : List Node) :
    (firstJump? (renameNodes f g ss)).map (·.1) = (firstJump? ss).map (·.1) := by
  induction ss with
  | nil => rfl
  | cons n ns ih =>
    cases n with
    | jump s k x? => cases x? <;> rfl
    | cond s c t e? => cases e? <;> exact ih
    | _ => exact ih

theorem length_renameNodes (ns : List Node) : (renameNodes f g ns).length = ns.length := by
  induction ns with
  | nil => rfl
  | cons n ns ih => rw [renameNodes, List.length_cons, List.length_cons, ih]

theorem droppedNote_rename (rest : List Node) {jump jump' : Jump × Int} (h : jump.1 = jump'.1) :
    (droppedNote (renameNodes f g rest) jump).map (·.unplaced) = (droppedNote rest jump').map (·.unplaced) := by
  cases rest with
  | nil => rfl
  | cons n ns => simp [droppedNote, renameNodes, PruneNote.unplaced, length_renameNodes, h]

theorem collapseNote_rename (s : Span) (c : Node) :
    (collapseNote (g s) (c.rename f g)).map (·.unplaced) = (collapseNote s c).map (·.unplaced) := by
  unfold collapseNote
  rw [Node.literal?_rename]
  cases c.literal? <;> rfl

mutual

theorem Node.pruneNotes_rename : (n : Node) →
    (n.rename f g).pruneNotes.map (·.unplaced) = n.pruneNotes.map (·.unplaced)
  | .number .. | .string .. | .boolean .. | .null .. | .identifier .. | .jump _ _ none | .jump _ _ (some _) => rfl
  | .unary s op x => by simp only [Node.rename, Node.pruneNotes, x.pruneNotes_rename]
  | .binary s op l r => by
    simp only [Node.rename, Node.pruneNotes, List.map_append, l.pruneNotes_rename, r.pruneNotes_rename]
  | .call s c args => by
    simp only [Node.rename, Node.pruneNotes, List.map_append, c.pruneNotes_rename, argumentNotes_rename args]
  | .index s t xs d => by
    simp only [Node.rename, Node.pruneNotes, List.map_append, t.pruneNotes_rename, itemNotes_rename xs]
  | .member s t name => by simp only [Node.rename, Node.pruneNotes, t.pruneNotes_rename]
  | .block b => by simp only [Node.rename, Node.pruneNotes, b.pruneNotes_rename]
  | .assign s op t v => by
    simp only [Node.rename, Node.pruneNotes, List.map_append, t.pruneNotes_rename, v.pruneNotes_rename]
  | .cond s c t none => by
    simp only [Node.rename, Node.pruneNotes, List.map_append, t.pruneNotes_rename, collapseNote_rename]
  | .cond s c t (some e) => by
    simp only [Node.rename, Node.pruneNotes, List.map_append, t.pruneNotes_rename, e.pruneNotes_rename,
      collapseNote_rename]
  | .whileLoop s c b => by
    simp only [Node.rename, Node.pruneNotes, List.map_append, b.pruneNotes_rename, Node.literal?_rename]
    split <;> rfl
  | .repeatLoop s b => by simp only [Node.rename, Node.pruneNotes, b.pruneNotes_rename]
  | .forLoop s v x b => by
    simp only [Node.rename, Node.pruneNotes, List.map_append, x.pruneNotes_rename, b.pruneNotes_rename]
  | .function s ps b => by simp only [Node.rename, Node.pruneNotes, b.pruneNotes_rename]

theorem Block.pruneNotes_rename : (b : Block) →
    (b.rename f g).pruneNotes.map (·.unplaced) = b.pruneNotes.map (·.unplaced)
  | ⟨_, ss⟩ => sequenceNotes_rename ss

theorem sequenceNotes_rename : (ss : List Node) →
    (sequenceNotes (renameNodes f g ss)).map (·.unplaced) = (sequenceNotes ss).map (·.unplaced)
  | [] => rfl
  | n :: ns => by
    have hjump := firstJump?_rename (f := f) (g := g) n.prune.statements
    simp only [renameNodes, sequenceNotes, List.map_append, n.pruneNotes_rename, n.prune_rename,
      Pruned.statements_rename]
    -- Both sequences are cut at the same jump, or neither is.
    cases hnew : firstJump? (renameNodes f g n.prune.statements) with
    | none =>
      rw [hnew] at hjump
      rw [Option.map_eq_none_iff.1 hjump.symm, sequenceNotes_rename ns]
    | some jump =>
      rw [hnew] at hjump
      obtain ⟨jump', hold, hkind⟩ := Option.map_eq_some_iff.1 hjump.symm
      rw [hold, droppedNote_rename ns hkind.symm]

theorem itemNotes_rename : (xs : List Node) →
    (itemNotes (renameNodes f g xs)).map (·.unplaced) = (itemNotes xs).map (·.unplaced)
  | [] => rfl
  | x :: xs => by
    simp only [renameNodes, itemNotes, List.map_append, x.pruneNotes_rename, itemNotes_rename xs]

theorem argumentNotes_rename : (as : List Argument) →
    (argumentNotes (renameArguments f g as)).map (·.unplaced) = (argumentNotes as).map (·.unplaced)
  | [] => rfl
  | ⟨_, _, v⟩ :: as => by
    simp only [renameArguments, Argument.rename, argumentNotes, List.map_append, v.pruneNotes_rename,
      argumentNotes_rename as]

end
end

namespace Program
variable (f : String → String) (g : Span → Span) (p : Program)

theorem fold_rename : (p.rename f g).fold = p.fold.rename f g := by
  simp only [fold, rename, foldNodes_rename]

theorem prune_rename : (p.rename f g).prune = p.prune.rename f g := by
  simp only [prune, rename, pruneNodes_rename]

/-- What is counted in the notes does not hang on their lines. -/
theorem map_pruneNotes_rename {count : PruneNote → Nat}
    (hcount : ∀ note, count note.unplaced = count note) :
    (p.rename f g).pruneNotes.map count = p.pruneNotes.map count := by
  have hplaced : ∀ notes : List PruneNote, notes.map count = (notes.map (·.unplaced)).map count := by
    intro notes
    simp [hcount]
  rw [hplaced, hplaced p.pruneNotes]
  exact congrArg _ (sequenceNotes_rename p.body)

end Program

/-- With other names and other places a pass makes the same changes: renaming before or behind it
gives the same program, and as much is folded, dropped and collapsed. -/
theorem passes_rename (f : String → String) (g : Span → Span) (p : Program) :
    (p.rename f g).fold = p.fold.rename f g ∧ (p.rename f g).foldings = p.foldings ∧
      (p.rename f g).prune = p.prune.rename f g ∧ (p.rename f g).droppedCount = p.droppedCount ∧
      (p.rename f g).collapsedCount = p.collapsedCount := by
  refine ⟨p.fold_rename f g, foldingsNodes_rename p.body, p.prune_rename f g, ?_, ?_⟩
  · unfold Program.droppedCount
    rw [Program.map_pruneNotes_rename]
    intro note
    cases note <;> rfl
  · unfold Program.collapsedCount
    rw [Program.map_pruneNotes_rename]
    intro note
    cases note <;> rfl

end Deadwood
