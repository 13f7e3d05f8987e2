import Deadwood.Proofs.Folding
import Deadwood.Proofs.Places
import Mathlib.Data.List.Forall2
import Mathlib.Data.Prod.Lex

/-! Spans of nested nodes. In a well nested tree the span of a node holds those of its children, which
follow one another. The passes keep trees well nested: a literal takes the span of the operation that
it stands for, and what pruning puts in the place of a node lies within the node. -/
namespace Deadwood

namespace Span

/-- Where a span starts. Lines count before columns. -/
def start (s : Span) : Int ×ₗ Int := toLex (s.startLine, s.startCol)

/-- Where a span ends. -/
def stop (s : Span) : Int ×ₗ Int := toLex (s.endLine, s.endCol)

def Within (inner outer : Span) : Prop := outer.start ≤ inner.start ∧ inner.stop ≤ outer.stop

/-- Spans between two positions, each of them behind those before it. -/
def InRow (lo hi : Int ×ₗ Int) (spans : List Span) : Prop :=
  (∀ c ∈ spans, lo ≤ c.start ∧ c.stop ≤ hi) ∧ spans.Pairwise fun a b => a.stop ≤ b.start

/-- A span that starts no later than it ends, with the spans of its children in a row within it. -/
def Holds (s : Span) (children : List Span) : Prop := s.start ≤ s.stop ∧ InRow s.start s.stop children

instance (s : Span) (children : List Span) : Decidable (s.Holds children) :=
  inferInstanceAs (Decidable (_ ∧ (∀ c ∈ children, _ ∧ _) ∧ List.Pairwise _ children))

end Span

mutual

/-- Every span in the tree holds those of the children, in the order of fields and lists. -/
def Node.isWellNested : Node → Bool
  | .number s .. | .string s _ | .boolean s _ | .null s => decide (s.Holds [])
  | .identifier id => decide (id.span.Holds [])
  | .unary s _ x => decide (s.Holds [x.span]) && x.isWellNested
  | .binary s _ l r => decide (s.Holds [l.span, r.span]) && l.isWellNested && r.isWellNested
  | .call s f args => decide (s.Holds (f.span :: args.map (·.span))) && f.isWellNested && wellNestedArguments args
  | .index s t xs _ => decide (s.Holds (t.span :: xs.map (·.span))) && t.isWellNested && wellNestedNodes xs
  | .member s t _ => decide (s.Holds [t.span]) && t.isWellNested
  | .block b => b.isWellNested
  | .assign s _ t v => decide (s.Holds [t.span, v.span]) && t.isWellNested && v.isWellNested
  | .cond s c t none => decide (s.Holds [c.span, t.span]) && c.isWellNested && t.isWellNested
  | .cond s c t (some e) =>
    decide (s.Holds [c.span, t.span, e.span]) && c.isWellNested && t.isWellNested && e.isWellNested
  | .whileLoop s c b => decide (s.Holds [c.span, b.span]) && c.isWellNested && b.isWellNested
  | .repeatLoop s b => decide (s.Holds [b.span]) && b.isWellNested
  | .forLoop s v x b =>
    decide (s.Holds [v.span, x.span, b.span]) && decide (v.span.Holds []) && x.isWellNested && b.isWellNested
  | .function s ps b =>
    decide (s.Holds (ps.map (·.span) ++ [b.span])) && wellNestedParameters ps && b.isWellNested
  | .jump s _ none => decide (s.Holds [])
  | .jump s _ (some x) => decide (s.Holds [x.span]) && x.isWellNested

def Block.isWellNested : Block → Bool
  | ⟨s, ss⟩ => decide (s.Holds (ss.map (·.span))) && wellNestedNodes ss

def Argument.isWellNested : Argument → Bool
  | ⟨s, _, v⟩ => decide (s.Holds [v.span]) && v.isWellNested

def Parameter.isWellNested : Parameter → Bool
  | ⟨s, _, none⟩ => decide (s.Holds [])
  | ⟨s, _, some d⟩ => decide (s.Holds [d.span]) && d.isWellNested

def wellNestedNodes : List Node → Bool
  | [] => true
  | n :: ns => n.isWellNested && wellNestedNodes ns

def wellNestedArguments : List Argument → Bool
  | [] => true
  | a :: as => a.isWellNested && wellNestedArguments as

def wellNestedParameters : List Parameter → Bool
  | [] => true
  | p :: ps => p.isWellNested && wellNestedParameters ps

end

def Program.isWellNested (p : Program) : Bool := decide (p.span.Holds (p.body.map (·.span))) && wellNestedNodes p.body

/-! Rows of spans. -/

namespace Span

theorem Within.refl (s : Span) : s.Within s := ⟨le_refl _, le_refl _⟩

instance : Std.Refl Within := ⟨Within.refl⟩

theorem Within.trans {a b c : Span} (hab : a.Within b) (hbc : b.Within c) : a.Within c :=
  ⟨hbc.1.trans hab.1, hab.2.trans hbc.2⟩

theorem InRow.sublist {lo hi : Int ×ₗ Int} {xs ys : List Span} (h : InRow lo hi ys) (hsub : xs.Sublist ys) :
    InRow lo hi xs :=
  ⟨fun c hc => h.1 c (hsub.subset hc), h.2.sublist hsub⟩

theorem InRow.append {lo mid hi : Int ×ₗ Int} {xs ys : List Span} (hlo : lo ≤ mid) (hhi : mid ≤ hi)
    (hx : InRow lo mid xs) (hy : InRow mid hi ys) : InRow lo hi (xs ++ ys) := by
  refine ⟨?_, List.pairwise_append.2 ⟨hx.2, hy.2, ?_⟩⟩
  · intro c hc
    obtain hc | hc := List.mem_append.1 hc
    · exact ⟨(hx.1 c hc).1, (hx.1 c hc).2.trans hhi⟩
    · exact ⟨hlo.trans (hy.1 c hc).1, (hy.1 c hc).2⟩
  · intro a ha b hb
    exact (hx.1 a ha).2.trans (hy.1 b hb).1

theorem InRow.lower {lo mid hi : Int ×ₗ Int} {spans : List Span} (h : InRow mid hi spans) (hlo : lo ≤ mid) :
    InRow lo hi spans :=
  ⟨fun c hc => ⟨hlo.trans (h.1 c hc).1, (h.1 c hc).2⟩, h.2⟩

theorem InRow.tail {lo hi : Int ×ₗ Int} {s : Span} {spans : List Span} (h : InRow lo hi (s :: spans)) :
    InRow s.stop hi spans := by
  obtain ⟨hfirst, hrest⟩ := List.pairwise_cons.1 h.2
  exact ⟨fun c hc => ⟨hfirst c hc, (h.1 c (List.mem_cons_of_mem s hc)).2⟩, hrest⟩

/-- Spans may shrink, each within the one whose place it takes. -/
theorem InRow.shrink {lo hi : Int ×ₗ Int} {xs ys : List Span} (h : InRow lo hi ys)
    (hwithin : List.Forall₂ Within xs ys) : InRow lo hi xs := by
  induction hwithin generalizing lo with
  | nil => exact h
  | @cons x y xs ys hxy hwithin ih =>
    have hy := h.1 y List.mem_cons_self
    have hrest := ih (h.sublist (List.sublist_cons_self y ys))
    have hbehind := ih h.tail
    refine ⟨List.forall_mem_cons.2 ⟨⟨hy.1.trans hxy.1, hxy.2.trans hy.2⟩, hrest.1⟩, ?_⟩
    refine List.pairwise_cons.2 ⟨?_, hrest.2⟩
    intro c hc
    exact hxy.2.trans (hbehind.1 c hc).1

theorem Holds.sublist {s : Span} {xs ys : List Span} (h : s.Holds ys) (hsub : xs.Sublist ys) : s.Holds xs :=
  ⟨h.1, h.2.sublist hsub⟩

theorem Holds.shrink {s : Span} {xs ys : List Span} (h : s.Holds ys) (hwithin : List.Forall₂ Within xs ys) :
    s.Holds xs :=
  ⟨h.1, h.2.shrink hwithin⟩

theorem Holds.nil {s : Span} {children : List Span} (h : s.Holds children) : s.Holds [] :=
  h.sublist (List.nil_sublist children)

theorem Holds.within {s c : Span} {children : List Span} (h : s.Holds children) (hc : c ∈ children) :
    c.Within s :=
  h.2.1 c hc

end Span

/-! Folding keeps every span, and a literal holds nothing. -/

namespace Fold

theorem span_of_unary? {s : Span} {op : UnaryOp} {x v : Node} (h : unary? s op x = some v) : v.span = s := by
  unfold unary? at h
  split at h <;> cases h <;> rfl

theorem span_of_arith? {s : Span} {op : Arith} {a b : Number} {i : Bool} {v : Node}
    (h : arith? s op a b i = some v) : v.span = s := by
  obtain ⟨value, _, h⟩ := Option.bind_eq_some_iff.1 h
  dsimp only at h
  split at h <;> cases h
  rfl

theorem span_of_binary? {s : Span} {op : BinaryOp} {l r v : Node} (h : binary? s op l r = some v) :
    v.span = s := by
  unfold binary? at h
  split at h
  case h_5 => exact span_of_arith? h
  all_goals cases h <;> rfl

end Fold

@[simp] theorem Node.span_fold (n : Node) : n.fold.span = n.span := by
  cases n with
  | unary s op x =>
    obtain ⟨v, hv, -, heq⟩ | ⟨-, heq⟩ := Fold.unary_cases s op x.fold
    · rw [fold, heq, Fold.span_of_unary? hv, span]
    · rw [fold, heq, span, span]
  | binary s op l r =>
    obtain ⟨v, hv, -, heq⟩ | ⟨-, heq⟩ := Fold.binary_cases s op l.fold r.fold
    · rw [fold, heq, Fold.span_of_binary? hv, span]
    · rw [fold, heq, span, span]
  | block b => cases b; rfl
  | cond s c t e? => cases e? <;> rfl
  | jump s k x? => cases x? <;> rfl
  | _ => rfl

theorem foldNodes_eq_map (ns : List Node) : foldNodes ns = ns.map Node.fold := by
  induction ns with
  | nil => rfl
  | cons n ns ih => rw [foldNodes, ih, List.map_cons]

theorem foldArguments_eq_map (as : List Argument) : foldArguments as = as.map Argument.fold := by
  induction as with
  | nil => rfl
  | cons a as ih => rw [foldArguments, ih, List.map_cons]

theorem foldParameters_eq_map (ps : List Parameter) : foldParameters ps = ps.map Parameter.fold := by
  induction ps with
  | nil => rfl
  | cons p ps ih => rw [foldParameters, ih, List.map_cons]

@[simp] theorem Block.span_fold (b : Block) : b.fold.span = b.span := by cases b; rfl

@[simp] theorem Argument.span_fold (a : Argument) : a.fold.span = a.span := by cases a; rfl

@[simp] theorem Parameter.span_fold (p : Parameter) : p.fold.span = p.span := by
  obtain ⟨s, name, _ | d⟩ := p <;> rfl

@[simp] theorem map_span_foldNodes (ns : List Node) : (foldNodes ns).map (·.span) = ns.map (·.span) := by
  simp [foldNodes_eq_map]

@[simp] theorem map_span_foldArguments (as : List Argument) :
    (foldArguments as).map (·.span) = as.map (·.span) := by
  simp [foldArguments_eq_map]

@[simp] theorem map_span_foldParameters (ps : List Parameter) :
    (foldParameters ps).map (·.span) = ps.map (·.span) := by
  simp [foldParameters_eq_map]

theorem isWellNested_of_isLiteral {n : Node} (hn : n.isLiteral) (h : n.span.Holds []) : n.isWellNested := by
  unfold Node.isLiteral at hn
  split at hn
  · exact decide_eq_true h
  · exact decide_eq_true h
  · exact decide_eq_true h
  · cases hn

mutual

theorem Node.isWellNested_fold : (n : Node) → n.isWellNested → n.fold.isWellNested
  | .number .., h | .string .., h | .boolean .., h | .null .., h | .identifier .., h => h
  | .unary s op x, h => by
    simp only [Node.isWellNested, Bool.and_eq_true, decide_eq_true_eq] at h
    have hspan := (Node.unary s op x).span_fold
    rw [Node.fold] at hspan ⊢
    obtain ⟨v, -, hliteral, heq⟩ | ⟨-, heq⟩ := Fold.unary_cases s op x.fold
    · rw [heq] at hspan ⊢
      exact isWellNested_of_isLiteral hliteral (hspan ▸ h.1.nil)
    · rw [heq]
      simp [Node.isWellNested, h.1, x.isWellNested_fold h.2]
  | .binary s op l r, h => by
    simp only [Node.isWellNested, Bool.and_eq_true, decide_eq_true_eq] at h
    have hspan := (Node.binary s op l r).span_fold
    rw [Node.fold] at hspan ⊢
    obtain ⟨v, -, hliteral, heq⟩ | ⟨-, heq⟩ := Fold.binary_cases s op l.fold r.fold
    · rw [heq] at hspan ⊢
      exact isWellNested_of_isLiteral hliteral (hspan ▸ h.1.1.nil)
    · rw [heq]
      simp [Node.isWellNested, h.1.1, l.isWellNested_fold h.1.2, r.isWellNested_fold h.2]
  | .call s f args, h => by
    simp only [Node.isWellNested, Bool.and_eq_true, decide_eq_true_eq] at h
    simp [Node.fold, Node.isWellNested, h.1.1, f.isWellNested_fold h.1.2, wellNestedArguments_fold args h.2]
  | .index s t xs d, h => by
    simp only [Node.isWellNested, Bool.and_eq_true, decide_eq_true_eq] at h
    simp [Node.fold, Node.isWellNested, h.1.1, t.isWellNested_fold h.1.2, wellNestedNodes_fold xs h.2]
  | .member s t name, h => by
    simp only [Node.isWellNested, Bool.and_eq_true, decide_eq_true_eq] at h
    simp [Node.fold, Node.isWellNested, h.1, t.isWellNested_fold h.2]
  | .block b, h => b.isWellNested_fold h
  | .assign s op t v, h => by
    simp only [Node.isWellNested, Bool.and_eq_true, decide_eq_true_eq] at h
    simp [Node.fold, Node.isWellNested, h.1.1, t.isWellNested_fold h.1.2, v.isWellNested_fold h.2]
  | .cond s c t none, h => by
    simp only [Node.isWellNested, Bool.and_eq_true, decide_eq_true_eq] at h
    simp [Node.fold, Node.isWellNested, h.1.1, c.isWellNested_fold h.1.2, t.isWellNested_fold h.2]
  | .cond s c t (some e), h => by
    simp only [Node.isWellNested, Bool.and_eq_true, decide_eq_true_eq] at h
    simp [Node.fold, Node.isWellNested, h.1.1.1, c.isWellNested_fold h.1.1.2, t.isWellNested_fold h.1.2,
      e.isWellNested_fold h.2]
  | .whileLoop s c b, h => by
    simp only [Node.isWellNested, Bool.and_eq_true, decide_eq_true_eq] at h
    simp [Node.fold, Node.isWellNested, h.1.1, c.isWellNested_fold h.1.2, b.isWellNested_fold h.2]
  | .repeatLoop s b, h => by
    simp only [Node.isWellNested, Bool.and_eq_true, decide_eq_true_eq] at h
    simp [Node.fold, Node.isWellNested, h.1, b.isWellNested_fold h.2]
  | .forLoop s v x b, h => by
    simp only [Node.isWellNested, Bool.and_eq_true, decide_eq_true_eq] at h
    simp [Node.fold, Node.isWellNested, h.1.1.1, h.1.1.2, x.isWellNested_fold h.1.2, b.isWellNested_fold h.2]
  | .function s ps b, h => by
    simp only [Node.isWellNested, Bool.and_eq_true, decide_eq_true_eq] at h
    simp [Node.fold, Node.isWellNested, h.1.1, wellNestedParameters_fold ps h.1.2, b.isWellNested_fold h.2]
  | .jump s k none, h => h
  | .jump s k (some x), h => by
    simp only [Node.isWellNested, Bool.and_eq_true, decide_eq_true_eq] at h
    simp [Node.fold, Node.isWellNested, h.1, x.isWellNested_fold h.2]

theorem Block.isWellNested_fold : (b : Block) → b.isWellNested → b.fold.isWellNested
  | ⟨s, ss⟩, h => by
    simp only [Block.isWellNested, Bool.and_eq_true, decide_eq_true_eq] at h
    simp [Block.fold, Block.isWellNested, h.1, wellNestedNodes_fold ss h.2]

theorem Argument.isWellNested_fold : (a : Argument) → a.isWellNested → a.fold.isWellNested
  | ⟨s, name, v⟩, h => by
    simp only [Argument.isWellNested, Bool.and_eq_true, decide_eq_true_eq] at h
    simp [Argument.fold, Argument.isWellNested, h.1, v.isWellNested_fold h.2]

theorem Parameter.isWellNested_fold : (p : Parameter) → p.isWellNested → p.fold.isWellNested
  | ⟨s, name, none⟩, h => h
  | ⟨s, name, some d⟩, h => by
    simp only [Parameter.isWellNested, Bool.and_eq_true, decide_eq_true_eq] at h
    simp [Parameter.fold, Parameter.isWellNested, h.1, d.isWellNested_fold h.2]

theorem wellNestedNodes_fold : (ns : List Node) → wellNestedNodes ns → wellNestedNodes (foldNodes ns)
  | [], _ => rfl
  | n :: ns, h => by
    simp only [wellNestedNodes, Bool.and_eq_true] at h
    simp [foldNodes, wellNestedNodes, n.isWellNested_fold h.1, wellNestedNodes_fold ns h.2]

theorem wellNestedArguments_fold :
    (as : List Argument) → wellNestedArguments as → wellNestedArguments (foldArguments as)
  | [], _ => rfl
  | a :: as, h => by
    simp only [wellNestedArguments, Bool.and_eq_true] at h
    simp [foldArguments, wellNestedArguments, a.isWellNested_fold h.1, wellNestedArguments_fold as h.2]

theorem wellNestedParameters_fold :
    (ps : List Parameter) → wellNestedParameters ps → wellNestedParameters (foldParameters ps)
  | [], _ => rfl
  | p :: ps, h => by
    simp only [wellNestedParameters, Bool.and_eq_true] at h
    simp [foldParameters, wellNestedParameters, p.isWellNested_fold h.1, wellNestedParameters_fold ps h.2]

end

/-! Pruning puts within a node what takes its place. -/

theorem appendToJump_sublist (ss rest : List Node) : (appendToJump ss rest).Sublist (ss ++ rest) := by
  induction ss with
  | nil => exact List.Sublist.refl rest
  | cons n ns ih =>
    rw [appendToJump]
    split
    · exact (List.nil_sublist _).cons_cons n
    · exact ih.cons_cons n

theorem wellNestedNodes_iff {ns : List Node} : wellNestedNodes ns ↔ ∀ n ∈ ns, n.isWellNested := by
  induction ns with
  | nil => simp [wellNestedNodes]
  | cons n ns ih => simp [wellNestedNodes, ih]

/-- The statements that a pruned node gives to the sequence around stand where the node stood. -/
theorem Pruned.inRow_statements {r : Pruned} {s : Span} (hnested : r.node.isWellNested)
    (hwithin : r.node.span.Within s) : Span.InRow s.start s.stop (r.statements.map (·.span)) := by
  cases r with
  | single n =>
    refine ⟨?_, List.pairwise_singleton _ _⟩
    intro c hc
    rw [List.mem_singleton.1 hc]
    exact hwithin
  | splice b =>
    obtain ⟨sb, ss⟩ := b
    simp only [node, Node.isWellNested, Block.isWellNested, Bool.and_eq_true, decide_eq_true_eq] at hnested
    obtain ⟨⟨-, hrow⟩, -⟩ := hnested
    refine ⟨?_, hrow.2⟩
    intro c hc
    exact Span.Within.trans (hrow.1 c hc) hwithin

theorem Pruned.wellNestedNodes_statements {r : Pruned} (h : r.node.isWellNested) : wellNestedNodes r.statements := by
  cases r with
  | single n => simpa [wellNestedNodes] using h
  | splice b =>
    obtain ⟨s, ss⟩ := b
    simp only [node, Node.isWellNested, Block.isWellNested, Bool.and_eq_true] at h
    exact h.2

@[simp] theorem Block.span_prune (b : Block) : b.prune.span = b.span := by cases b; rfl

@[simp] theorem map_span_pruneArguments (as : List Argument) :
    (pruneArguments as).map (·.span) = as.map (·.span) := by
  induction as with
  | nil => rfl
  | cons a as ih =>
    cases a
    simp [pruneArguments, ih]

theorem Node.span_le_of_isWellNested {n : Node} (h : n.isWellNested) : n.span.start ≤ n.span.stop := by
  cases n with
  | block b =>
    cases b
    simp only [isWellNested, Block.isWellNested, Bool.and_eq_true, decide_eq_true_eq] at h
    exact h.1.1
  | cond s c t e? =>
    cases e? <;> simp only [isWellNested, Bool.and_eq_true, decide_eq_true_eq] at h <;> grind [Span.Holds, span]
  | jump s k x? =>
    cases x? <;> simp only [isWellNested, Bool.and_eq_true, decide_eq_true_eq] at h <;> grind [Span.Holds, span]
  | _ =>
    simp only [isWellNested, Bool.and_eq_true, decide_eq_true_eq] at h
    grind [Span.Holds, span]

mutual

theorem Node.isWellNested_prune :
    (n : Node) → n.isWellNested → n.prune.node.isWellNested ∧ n.prune.node.span.Within n.span
  | .number .., h | .string .., h | .boolean .., h | .null .., h | .identifier .., h | .jump .., h =>
    ⟨h, .refl _⟩
  | .unary s op x, h => by
    simp only [Node.isWellNested, Bool.and_eq_true, decide_eq_true_eq] at h
    obtain ⟨hx, hxs⟩ := x.isWellNested_prune h.2
    refine ⟨?_, .refl _⟩
    simp [Node.prune, Node.isWellNested, hx, h.1.shrink (.cons hxs .nil)]
  | .binary s op l r, h => by
    simp only [Node.isWellNested, Bool.and_eq_true, decide_eq_true_eq] at h
    obtain ⟨hl, hls⟩ := l.isWellNested_prune h.1.2
    obtain ⟨hr, hrs⟩ := r.isWellNested_prune h.2
    refine ⟨?_, .refl _⟩
    simp [Node.prune, Node.isWellNested, hl, hr, h.1.1.shrink (.cons hls (.cons hrs .nil))]
  | .call s f args, h => by
    simp only [Node.isWellNested, Bool.and_eq_true, decide_eq_true_eq] at h
    obtain ⟨hf, hfs⟩ := f.isWellNested_prune h.1.2
    have hspans : List.Forall₂ Span.Within _ _ := List.forall₂_refl (args.map (·.span))
    refine ⟨?_, .refl _⟩
    simp [Node.prune, Node.isWellNested, hf, wellNestedArguments_prune args h.2, h.1.1.shrink (.cons hfs hspans)]
  | .index s t xs d, h => by
    simp only [Node.isWellNested, Bool.and_eq_true, decide_eq_true_eq] at h
    obtain ⟨ht, hts⟩ := t.isWellNested_prune h.1.2
    obtain ⟨hxs, hspans⟩ := wellNestedNodes_pruneItems xs h.2
    refine ⟨?_, .refl _⟩
    simp [Node.prune, Node.isWellNested, ht, hxs, h.1.1.shrink (.cons hts hspans)]
  | .member s t name, h => by
    simp only [Node.isWellNested, Bool.and_eq_true, decide_eq_true_eq] at h
    obtain ⟨ht, hts⟩ := t.isWellNested_prune h.2
    refine ⟨?_, .refl _⟩
    simp [Node.prune, Node.isWellNested, ht, h.1.shrink (.cons hts .nil)]
  | .block b, h => by
    simp only [Node.isWellNested] at h
    refine ⟨b.isWellNested_prune h, ?_⟩
    simp [Node.prune, Node.span, Span.Within.refl]
  | .assign s op t v, h => by
    simp only [Node.isWellNested, Bool.and_eq_true, decide_eq_true_eq] at h
    obtain ⟨ht, hts⟩ := t.isWellNested_prune h.1.2
    obtain ⟨hv, hvs⟩ := v.isWellNested_prune h.2
    refine ⟨?_, .refl _⟩
    simp [Node.prune, Node.isWellNested, ht, hv, h.1.1.shrink (.cons hts (.cons hvs .nil))]
  | .cond s c t none, h => by
    simp only [Node.isWellNested, Bool.and_eq_true, decide_eq_true_eq] at h
    have ht := t.isWellNested_prune h.2
    unfold Node.prune
    split
    · refine ⟨ht, ?_⟩
      rw [Pruned.node_splice, Node.span, Block.span_prune]
      exact h.1.1.within (by simp)
    · exact ⟨by simp [Node.isWellNested, Block.isWellNested, wellNestedNodes, h.1.1.nil], .refl _⟩
    · exact ⟨by simp [Node.isWellNested, h.1, ht], .refl _⟩
  | .cond s c t (some e), h => by
    simp only [Node.isWellNested, Bool.and_eq_true, decide_eq_true_eq] at h
    have ht := t.isWellNested_prune h.1.2
    have he := e.isWellNested_prune h.2
    unfold Node.prune
    split
    · refine ⟨ht, ?_⟩
      rw [Pruned.node_splice, Node.span, Block.span_prune]
      exact h.1.1.1.within (by simp)
    · refine ⟨he, ?_⟩
      rw [Pruned.node_splice, Node.span, Block.span_prune]
      exact h.1.1.1.within (by simp)
    · exact ⟨by simp [Node.isWellNested, h.1.1, ht, he], .refl _⟩
  | .whileLoop s c b, h => by
    simp only [Node.isWellNested, Bool.and_eq_true, decide_eq_true_eq] at h
    unfold Node.prune
    split
    · exact ⟨by simp [Node.isWellNested, Block.isWellNested, wellNestedNodes, h.1.1.nil], .refl _⟩
    · exact ⟨by simp [Node.isWellNested, h.1, b.isWellNested_prune h.2], .refl _⟩
  | .repeatLoop s b, h => by
    simp only [Node.isWellNested, Bool.and_eq_true, decide_eq_true_eq] at h
    exact ⟨by simp [Node.prune, Node.isWellNested, h.1, b.isWellNested_prune h.2], .refl _⟩
  | .forLoop s v x b, h => by
    simp only [Node.isWellNested, Bool.and_eq_true, decide_eq_true_eq] at h
    obtain ⟨hx, hxs⟩ := x.isWellNested_prune h.1.2
    have hspans := h.1.1.1.shrink (.cons (.refl _) (.cons hxs (.cons (.refl _) .nil)))
    refine ⟨?_, .refl _⟩
    simp [Node.prune, Node.isWellNested, hspans, h.1.1.2, hx, b.isWellNested_prune h.2]
  | .function s ps b, h => by
    simp only [Node.isWellNested, Bool.and_eq_true, decide_eq_true_eq] at h
    exact ⟨by simp [Node.prune, Node.isWellNested, h.1, b.isWellNested_prune h.2], .refl _⟩

theorem Block.isWellNested_prune : (b : Block) → b.isWellNested → b.prune.isWellNested
  | ⟨s, ss⟩, h => by
    simp only [Block.isWellNested, Bool.and_eq_true, decide_eq_true_eq] at h
    obtain ⟨hss, hrow⟩ := wellNestedNodes_prune ss h.2
    have hholds : s.Holds ((pruneNodes ss).map (·.span)) := ⟨h.1.1, hrow _ _ h.1.2⟩
    simp [Block.prune, Block.isWellNested, hss, hholds]

/-- The row of a sequence stays between the same two positions, whatever is spliced into it or cut off
from it. The tail of a row lies behind its first span, which is where the tail is taken from. -/
theorem wellNestedNodes_prune : (ns : List Node) → wellNestedNodes ns → wellNestedNodes (pruneNodes ns) ∧
    ∀ lo hi, Span.InRow lo hi (ns.map (·.span)) → Span.InRow lo hi ((pruneNodes ns).map (·.span))
  | [], _ => ⟨rfl, fun _ _ h => h⟩
  | n :: ns, h => by
    simp only [wellNestedNodes, Bool.and_eq_true] at h
    obtain ⟨hn, hwithin⟩ := n.isWellNested_prune h.1
    obtain ⟨hns, hrow⟩ := wellNestedNodes_prune ns h.2
    have hsub := appendToJump_sublist n.prune.statements (pruneNodes ns)
    constructor
    · have hstatements := Pruned.wellNestedNodes_statements hn
      rw [wellNestedNodes_iff] at hstatements hns ⊢
      intro m hm
      obtain hm | hm := List.mem_append.1 (hsub.subset hm)
      · exact hstatements m hm
      · exact hns m hm
    · intro lo hi hin
      have hfirst := hin.1 n.span List.mem_cons_self
      have hle := Node.span_le_of_isWellNested h.1
      have hstatements := Pruned.inRow_statements hn hwithin
      have htail := hrow n.span.stop hi hin.tail
      have happend := (hstatements.lower hfirst.1).append (hfirst.1.trans hle) hfirst.2 htail
      rw [← List.map_append] at happend
      exact happend.sublist (hsub.map _)

theorem wellNestedNodes_pruneItems : (ns : List Node) → wellNestedNodes ns → wellNestedNodes (pruneItems ns) ∧
    List.Forall₂ Span.Within ((pruneItems ns).map (·.span)) (ns.map (·.span))
  | [], _ => ⟨rfl, .nil⟩
  | n :: ns, h => by
    simp only [wellNestedNodes, Bool.and_eq_true] at h
    obtain ⟨hn, hwithin⟩ := n.isWellNested_prune h.1
    obtain ⟨hns, hspans⟩ := wellNestedNodes_pruneItems ns h.2
    exact ⟨by simp [pruneItems, wellNestedNodes, hn, hns], .cons hwithin hspans⟩

theorem wellNestedArguments_prune :
    (as : List Argument) → wellNestedArguments as → wellNestedArguments (pruneArguments as)
  | [], _ => rfl
  | ⟨s, name, v⟩ :: as, h => by
    simp only [wellNestedArguments, Argument.isWellNested, Bool.and_eq_true, decide_eq_true_eq] at h
    obtain ⟨hv, hvs⟩ := v.isWellNested_prune h.1.2
    simp [pruneArguments, wellNestedArguments, Argument.isWellNested, hv, h.1.1.shrink (.cons hvs .nil),
      wellNestedArguments_prune as h.2]

end

namespace Place

/-- A place of the folded program. -/
def fold : Place → Place
  | .program p => .program p.fold
  | .sequence ss => .sequence (foldNodes ss)
  | .element n behind => .element n.fold (foldNodes behind)
  | .node n => .node n.fold
  | .items xs => .items (foldNodes xs)
  | .arguments as => .arguments (foldArguments as)
  | .argument a => .argument a.fold
  | .parameters ps => .parameters (foldParameters ps)
  | .parameter p => .parameter p.fold

def node? : Place → Option Node
  | .element n _ | .node n => some n
  | _ => none

theorem node?_fold (pl : Place) : pl.fold.node? = pl.node?.map Node.fold := by
  cases pl <;> rfl

theorem ofField_of_isLiteral {n : Node} (h : n.isLiteral) : ofField n = .node n := by
  unfold ofField
  split
  · cases h
  · rfl

theorem fields_of_isLiteral {n : Node} (h : n.isLiteral) : fields n = [] := by
  unfold Node.isLiteral at h
  split at h
  · rfl
  · rfl
  · rfl
  · cases h

theorem ofField_fold (n : Node) : ofField n.fold = (ofField n).fold := by
  cases n with
  | unary s op x =>
    obtain ⟨v, -, hv, heq⟩ | ⟨-, heq⟩ := Fold.unary_cases s op x.fold
    · rw [Node.fold, heq, ofField_of_isLiteral hv]
      simp [ofField, fold, Node.fold, heq]
    · simp [ofField, fold, Node.fold, heq]
  | binary s op l r =>
    obtain ⟨v, -, hv, heq⟩ | ⟨-, heq⟩ := Fold.binary_cases s op l.fold r.fold
    · rw [Node.fold, heq, ofField_of_isLiteral hv]
      simp [ofField, fold, Node.fold, heq]
    · simp [ofField, fold, Node.fold, heq]
  | block b => cases b; rfl
  | cond s c t e? => cases e? <;> rfl
  | jump s k x? => cases x? <;> rfl
  | _ => rfl

theorem statements_fold (b : Block) : b.fold.statements = foldNodes b.statements := by cases b; rfl

/-- A folded node is a literal without fields, or its fields are those of the node, folded. -/
theorem fields_fold (n : Node) :
    fields n.fold = [] ∨ fields n.fold = (fields n).map (Prod.map id fold) := by
  cases n with
  | unary s op x =>
    obtain ⟨v, -, hv, heq⟩ | ⟨-, heq⟩ := Fold.unary_cases s op x.fold
    · left
      rw [Node.fold, heq, fields_of_isLiteral hv]
    · right
      simp [fields, Node.fold, heq, ofField_fold]
  | binary s op l r =>
    obtain ⟨v, -, hv, heq⟩ | ⟨-, heq⟩ := Fold.binary_cases s op l.fold r.fold
    · left
      rw [Node.fold, heq, fields_of_isLiteral hv]
    · right
      simp [fields, Node.fold, heq, ofField_fold]
  | cond s c t e? => cases e? <;> simp [fields, Node.fold, ofField_fold, statements_fold, fold]
  | jump s k x? => cases x? <;> simp [fields, Node.fold, ofField_fold]
  | _ => simp [fields, Node.fold, ofField_fold, statements_fold, fold]

theorem numbered_map {f : α → α} {place : α → List α → Place}
    (hplace : ∀ x xs, place (f x) (xs.map f) = (place x xs).fold) (i : Nat) (xs : List α) :
    numbered place i (xs.map f) = (numbered place i xs).map (Prod.map id fold) := by
  induction xs generalizing i with
  | nil => rfl
  | cons x xs ih => rw [List.map_cons, numbered, hplace, ih, numbered, List.map_cons, Prod.map, id]

theorem parts_fold (pl : Place) :
    pl.fold.parts = [] ∨ pl.fold.parts = pl.parts.map (Prod.map id fold) := by
  cases pl with
  | element n behind => exact fields_fold n
  | node n => exact fields_fold n
  | program p => exact .inr rfl
  | sequence ss =>
    right
    rw [fold, parts, parts, foldNodes_eq_map]
    exact numbered_map (by simp [fold, foldNodes_eq_map]) 0 ss
  | items xs =>
    right
    rw [fold, parts, parts, foldNodes_eq_map]
    exact numbered_map (by simp [fold]) 0 xs
  | arguments as =>
    right
    rw [fold, parts, parts, foldArguments_eq_map]
    exact numbered_map (by simp [fold]) 0 as
  | parameters ps =>
    right
    rw [fold, parts, parts, foldParameters_eq_map]
    exact numbered_map (by simp [fold]) 0 ps
  | argument a =>
    right
    cases a
    simp [fold, parts, Argument.fold, ofField_fold]
  | parameter p =>
    right
    obtain ⟨s, name, _ | d⟩ := p <;> simp [fold, parts, Parameter.fold, ofField_fold]

/-- A path into the folded program leads to what was there before, folded. -/
theorem follow_fold (pl : Place) {q : Place} {path : List String} (h : pl.fold.follow path = some q) :
    ∃ r, pl.follow path = some r ∧ q = r.fold := by
  induction path generalizing pl with
  | nil => exact ⟨pl, rfl, (Option.some.inj h).symm⟩
  | cons name path ih =>
    obtain ⟨q', hlookup, hq⟩ := Option.bind_eq_some_iff.1 h
    have hmem := lookup_parts_iff.1 hlookup
    obtain hnil | hmap := pl.parts_fold
    · rw [hnil] at hmem
      cases hmem
    · rw [hmap] at hmem
      obtain ⟨⟨label, r⟩, hr, heq⟩ := List.mem_map.1 hmem
      cases heq
      obtain ⟨found, hfound, rfl⟩ := ih r hq
      refine ⟨found, ?_, rfl⟩
      rw [id, follow, lookup_parts_iff.2 hr, Option.bind_some, hfound]

end Place

/-- The node that a path from the root leads to. -/
def Program.nodeAt? (p : Program) (path : List String) : Option Node :=
  ((Place.program p).follow path).bind Place.node?

/-- The passes keep a program well nested and keep its span. What stands somewhere in the folded program
has the span of what stood there before, whether it was folded to a literal or not. -/
theorem passes_isWellNested {p : Program} (h : p.isWellNested) :
    p.fold.isWellNested ∧ p.fold.span = p.span ∧ p.prune.isWellNested ∧ p.prune.span = p.span ∧
      ∀ path m, p.fold.nodeAt? path = some m → ∃ n, p.nodeAt? path = some n ∧ m = n.fold ∧ m.span = n.span := by
  simp only [Program.isWellNested, Bool.and_eq_true, decide_eq_true_eq] at h
  obtain ⟨hholds, hbody⟩ := h
  refine ⟨?_, rfl, ?_, rfl, ?_⟩
  · simp [Program.isWellNested, Program.fold, hholds, wellNestedNodes_fold p.body hbody]
  · obtain ⟨hpruned, hrow⟩ := wellNestedNodes_prune p.body hbody
    have hspans : p.span.Holds ((pruneNodes p.body).map (·.span)) := ⟨hholds.1, hrow _ _ hholds.2⟩
    simp [Program.isWellNested, Program.prune, hspans, hpruned]
  · intro path m hm
    obtain ⟨q, hq, hnode⟩ := Option.bind_eq_some_iff.1 hm
    obtain ⟨r, hr, rfl⟩ := Place.follow_fold (.program p) hq
    rw [Place.node?_fold] at hnode
    obtain ⟨n, hn, rfl⟩ := Option.map_eq_some_iff.1 hnode
    exact ⟨n, by rw [Program.nodeAt?, hr, Option.bind_some, hn], rfl, n.span_fold⟩

/-- In `x <- 1L + 2L; if (TRUE) { break; y }; z` the sum folds, and the `break` takes the place of the
`if` and of all behind it. -/
theorem passes_isWellNested_branch :
    let cols (a b : Int) : Span := ⟨1, a, 1, b, none⟩
    let sum : Node := .binary (cols 6 13) (.arith .add) (.number (cols 6 8) (.int 1) true)
      (.number (cols 11 13) (.int 2) true)
    let branch : Block := ⟨cols 25 37, [.jump (cols 27 32) .brk none, .identifier ⟨cols 34 35, "y"⟩]⟩
    let p : Program := ⟨cols 1 40, "<stdin>",
      [.assign (cols 1 13) .arrow (.identifier ⟨cols 1 2, "x"⟩) sum,
        .cond (cols 15 37) (.boolean (cols 19 23) true) branch none, .identifier ⟨cols 39 40, "z"⟩]⟩
    let path := ["body", "[0]", "value"]
    p.isWellNested ∧ p.fold.isWellNested ∧ p.prune.isWellNested ∧
      p.prune.body.map (·.span) = [cols 1 13, cols 27 32] ∧
      ∃ m n, p.fold.nodeAt? path = some m ∧ m.isLiteral ∧ p.nodeAt? path = some n ∧ m = n.fold ∧
        m.span = n.span := by
  intro cols sum branch p path
  have hp : p.isWellNested := by decide
  obtain ⟨hfold, -, hprune, -, hspan⟩ := passes_isWellNested hp
  have hm : p.fold.nodeAt? path = some sum.fold := rfl
  obtain ⟨n, hn, heq, hsame⟩ := hspan path sum.fold hm
  exact ⟨hp, hfold, hprune, rfl, sum.fold, n, hm, rfl, hn, heq, hsame⟩

end Deadwood
