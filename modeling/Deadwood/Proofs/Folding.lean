import Deadwood.Pass.Fold
import Deadwood.Proofs.Pruning

/-! Folding leaves nothing to fold, and each folding takes a node away. -/
namespace Deadwood

/-- The literals that operators are folded on. -/
def Node.isLiteral : Node → Bool
  | .number .. | .string .. | .boolean .. => true
  | _ => false

namespace Fold

theorem isLiteral_of_unary? {s : Span} {op : UnaryOp} {x v : Node} (h : unary? s op x = some v) :
    v.isLiteral := by
  unfold unary? at h
  split at h <;> cases h <;> rfl

theorem isLiteral_of_arith? {s : Span} {op : Arith} {a b : Number} {i : Bool} {v : Node}
    (h : arith? s op a b i = some v) : v.isLiteral := by
  obtain ⟨value, _, h⟩ := Option.bind_eq_some_iff.1 h
  dsimp only at h
  split at h <;> cases h
  rfl

theorem isLiteral_of_binary? {s : Span} {op : BinaryOp} {l r v : Node}
    (h : binary? s op l r = some v) : v.isLiteral := by
  unfold binary? at h
  split at h
  case h_5 => exact isLiteral_of_arith? h
  all_goals cases h <;> rfl

/-- An operation either folds to a literal or stays. -/
theorem unary_cases (s : Span) (op : UnaryOp) (x : Node) :
    (∃ v, unary? s op x = some v ∧ v.isLiteral ∧ unary s op x = v) ∨
      (unary? s op x = none ∧ unary s op x = .unary s op x) := by
  cases h : unary? s op x with
  | none => exact .inr ⟨rfl, by simp [unary, h]⟩
  | some v => exact .inl ⟨v, rfl, isLiteral_of_unary? h, by simp [unary, h]⟩

theorem binary_cases (s : Span) (op : BinaryOp) (l r : Node) :
    (∃ v, binary? s op l r = some v ∧ v.isLiteral ∧ binary s op l r = v) ∨
      (binary? s op l r = none ∧ binary s op l r = .binary s op l r) := by
  cases h : binary? s op l r with
  | none => exact .inr ⟨rfl, by simp [binary, h]⟩
  | some v => exact .inl ⟨v, rfl, isLiteral_of_binary? h, by simp [binary, h]⟩

theorem unary?_of_not_isLiteral {x : Node} (h : x.isLiteral = false) (s : Span) (op : UnaryOp) :
    unary? s op x = none := by
  unfold unary?
  split <;> simp_all [Node.isLiteral]

theorem binary?_of_left {l : Node} (h : l.isLiteral = false) (s : Span) (op : BinaryOp) (r : Node) :
    binary? s op l r = none := by
  unfold binary?
  split <;> simp_all [Node.isLiteral]

/-- The value of `&&` and `||` that the left side alone decides. -/
def decided? : BinaryOp → Node → Option Bool
  | .lazyAnd, .boolean _ false => some false
  | .lazyOr, .boolean _ true => some true
  | _, _ => none

/-- Beside a right side that is no literal only the left side can decide. -/
theorem binary?_of_right {r : Node} (h : r.isLiteral = false) (s : Span) (op : BinaryOp) (l : Node) :
    binary? s op l r = (decided? op l).map (.boolean s) := by
  fun_cases decided? op l with
  | case1 | case2 => rfl
  | case3 hand hor =>
    unfold binary?
    split <;> simp_all [Node.isLiteral]

end Fold

namespace Node

theorem size_of_isLiteral {n : Node} (h : n.isLiteral) : n.size = 1 := by
  cases n <;> simp_all [isLiteral, size]

theorem foldings_of_isLiteral {n : Node} (h : n.isLiteral) : n.foldings = 0 := by
  cases n <;> simp_all [isLiteral, foldings]

end Node

mutual

theorem Node.fold_of_foldings : (n : Node) → n.foldings = 0 → n.fold = n
  | .number .., _ | .string .., _ | .boolean .., _ | .null .., _ | .identifier .., _ => rfl
  | .unary s op x, h => by
    simp only [Node.foldings, Nat.add_eq_zero_iff] at h
    have hx := x.fold_of_foldings h.1
    rw [Node.fold, hx]
    rcases Fold.unary_cases s op x with ⟨v, hv, _⟩ | ⟨_, hkeep⟩
    · simp [hx, hv] at h
    · exact hkeep
  | .binary s op l r, h => by
    simp only [Node.foldings, Nat.add_eq_zero_iff] at h
    have hl := l.fold_of_foldings h.1.1
    have hr := r.fold_of_foldings h.1.2
    rw [Node.fold, hl, hr]
    rcases Fold.binary_cases s op l r with ⟨v, hv, _⟩ | ⟨_, hkeep⟩
    · simp [hl, hr, hv] at h
    · exact hkeep
  | .call s f args, h => by
    simp only [Node.foldings, Nat.add_eq_zero_iff] at h
    rw [Node.fold, f.fold_of_foldings h.1, foldArguments_of_foldings args h.2]
  | .index s t xs d, h => by
    simp only [Node.foldings, Nat.add_eq_zero_iff] at h
    rw [Node.fold, t.fold_of_foldings h.1, foldNodes_of_foldings xs h.2]
  | .member s t name, h => by
    simp only [Node.foldings] at h
    rw [Node.fold, t.fold_of_foldings h]
  | .block b, h => by
    simp only [Node.foldings] at h
    rw [Node.fold, b.fold_of_foldings h]
  | .assign s op t v, h => by
    simp only [Node.foldings, Nat.add_eq_zero_iff] at h
    rw [Node.fold, t.fold_of_foldings h.1, v.fold_of_foldings h.2]
  | .cond s c t none, h => by
    simp only [Node.foldings, Nat.add_eq_zero_iff] at h
    rw [Node.fold, c.fold_of_foldings h.1, t.fold_of_foldings h.2]
  | .cond s c t (some e), h => by
    simp only [Node.foldings, Nat.add_eq_zero_iff] at h
    rw [Node.fold, c.fold_of_foldings h.1.1, t.fold_of_foldings h.1.2, e.fold_of_foldings h.2]
  | .whileLoop s c b, h => by
    simp only [Node.foldings, Nat.add_eq_zero_iff] at h
    rw [Node.fold, c.fold_of_foldings h.1, b.fold_of_foldings h.2]
  | .repeatLoop s b, h => by
    simp only [Node.foldings] at h
    rw [Node.fold, b.fold_of_foldings h]
  | .forLoop s v x b, h => by
    simp only [Node.foldings, Nat.add_eq_zero_iff] at h
    rw [Node.fold, x.fold_of_foldings h.1, b.fold_of_foldings h.2]
  | .function s ps b, h => by
    simp only [Node.foldings, Nat.add_eq_zero_iff] at h
    rw [Node.fold, foldParameters_of_foldings ps h.1, b.fold_of_foldings h.2]
  | .jump s k none, _ => rfl
  | .jump s k (some x), h => by
    simp only [Node.foldings] at h
    rw [Node.fold, x.fold_of_foldings h]

theorem Block.fold_of_foldings : (b : Block) → b.foldings = 0 → b.fold = b
  | ⟨_, ss⟩, h => by
    simp only [Block.foldings] at h
    rw [Block.fold, foldNodes_of_foldings ss h]

theorem Argument.fold_of_foldings : (a : Argument) → a.foldings = 0 → a.fold = a
  | ⟨_, _, v⟩, h => by
    simp only [Argument.foldings] at h
    rw [Argument.fold, v.fold_of_foldings h]

theorem Parameter.fold_of_foldings : (p : Parameter) → p.foldings = 0 → p.fold = p
  | ⟨_, _, none⟩, _ => rfl
  | ⟨_, _, some d⟩, h => by
    simp only [Parameter.foldings] at h
    rw [Parameter.fold, d.fold_of_foldings h]

theorem foldNodes_of_foldings : (ns : List Node) → foldingsNodes ns = 0 → foldNodes ns = ns
  | [], _ => rfl
  | n :: ns, h => by
    simp only [foldingsNodes, Nat.add_eq_zero_iff] at h
    rw [foldNodes, n.fold_of_foldings h.1, foldNodes_of_foldings ns h.2]

theorem foldArguments_of_foldings : (as : List Argument) → foldingsArguments as = 0 → foldArguments as = as
  | [], _ => rfl
  | a :: as, h => by
    simp only [foldingsArguments, Nat.add_eq_zero_iff] at h
    rw [foldArguments, a.fold_of_foldings h.1, foldArguments_of_foldings as h.2]

theorem foldParameters_of_foldings :
    (ps : List Parameter) → foldingsParameters ps = 0 → foldParameters ps = ps
  | [], _ => rfl
  | p :: ps, h => by
    simp only [foldingsParameters, Nat.add_eq_zero_iff] at h
    rw [foldParameters, p.fold_of_foldings h.1, foldParameters_of_foldings ps h.2]

end

mutual

theorem Node.foldings_fold : (n : Node) → n.fold.foldings = 0
  | .number .. | .string .. | .boolean .. | .null .. | .identifier .. => rfl
  | .unary s op x => by
    rw [Node.fold]
    rcases Fold.unary_cases s op x.fold with ⟨v, _, hv, heq⟩ | ⟨hnone, heq⟩
    · rw [heq, Node.foldings_of_isLiteral hv]
    · rw [heq, Node.foldings, x.fold.fold_of_foldings x.foldings_fold, x.foldings_fold, hnone]
      rfl
  | .binary s op l r => by
    rw [Node.fold]
    rcases Fold.binary_cases s op l.fold r.fold with ⟨v, _, hv, heq⟩ | ⟨hnone, heq⟩
    · rw [heq, Node.foldings_of_isLiteral hv]
    · rw [heq, Node.foldings, l.fold.fold_of_foldings l.foldings_fold,
        r.fold.fold_of_foldings r.foldings_fold, l.foldings_fold, r.foldings_fold, hnone]
      rfl
  | .call s f args => by rw [Node.fold, Node.foldings, f.foldings_fold, foldingsArguments_fold args]
  | .index s t xs d => by rw [Node.fold, Node.foldings, t.foldings_fold, foldingsNodes_fold xs]
  | .member s t name => by rw [Node.fold, Node.foldings, t.foldings_fold]
  | .block b => by rw [Node.fold, Node.foldings, b.foldings_fold]
  | .assign s op t v => by rw [Node.fold, Node.foldings, t.foldings_fold, v.foldings_fold]
  | .cond s c t none => by rw [Node.fold, Node.foldings, c.foldings_fold, t.foldings_fold]
  | .cond s c t (some e) => by
    rw [Node.fold, Node.foldings, c.foldings_fold, t.foldings_fold, e.foldings_fold]
  | .whileLoop s c b => by rw [Node.fold, Node.foldings, c.foldings_fold, b.foldings_fold]
  | .repeatLoop s b => by rw [Node.fold, Node.foldings, b.foldings_fold]
  | .forLoop s v x b => by rw [Node.fold, Node.foldings, x.foldings_fold, b.foldings_fold]
  | .function s ps b => by rw [Node.fold, Node.foldings, foldingsParameters_fold ps, b.foldings_fold]
  | .jump s k none => rfl
  | .jump s k (some x) => by rw [Node.fold, Node.foldings, x.foldings_fold]

theorem Block.foldings_fold : (b : Block) → b.fold.foldings = 0
  | ⟨_, ss⟩ => by rw [Block.fold, Block.foldings, foldingsNodes_fold ss]

theorem Argument.foldings_fold : (a : Argument) → a.fold.foldings = 0
  | ⟨_, _, v⟩ => by rw [Argument.fold, Argument.foldings, v.foldings_fold]

theorem Parameter.foldings_fold : (p : Parameter) → p.fold.foldings = 0
  | ⟨_, _, none⟩ => rfl
  | ⟨_, _, some d⟩ => by rw [Parameter.fold, Parameter.foldings, d.foldings_fold]

theorem foldingsNodes_fold : (ns : List Node) → foldingsNodes (foldNodes ns) = 0
  | [] => rfl
  | n :: ns => by rw [foldNodes, foldingsNodes, n.foldings_fold, foldingsNodes_fold ns]

theorem foldingsArguments_fold : (as : List Argument) → foldingsArguments (foldArguments as) = 0
  | [] => rfl
  | a :: as => by rw [foldArguments, foldingsArguments, a.foldings_fold, foldingsArguments_fold as]

theorem foldingsParameters_fold : (ps : List Parameter) → foldingsParameters (foldParameters ps) = 0
  | [] => rfl
  | p :: ps => by rw [foldParameters, foldingsParameters, p.foldings_fold, foldingsParameters_fold ps]

end

mutual

/-- A folded operation has at least its operands' nodes less. -/
theorem Node.size_fold : (n : Node) → n.fold.size + n.foldings ≤ n.size
  | .number .. | .string .. | .boolean .. | .null .. | .identifier .. => Nat.le_refl _
  | .unary s op x => by
    have hx := x.size_fold
    have hpos := x.fold.size_pos
    rw [Node.fold, Node.foldings, Node.size]
    rcases Fold.unary_cases s op x.fold with ⟨v, hv, hlit, heq⟩ | ⟨hnone, heq⟩
    · simp only [heq, hv, Node.size_of_isLiteral hlit, Option.isSome_some, if_true]
      omega
    · simp only [heq, hnone, Node.size, Option.isSome_none, Bool.false_eq_true, if_false]
      omega
  | .binary s op l r => by
    have hl := l.size_fold
    have hr := r.size_fold
    have hpos := l.fold.size_pos
    rw [Node.fold, Node.foldings, Node.size]
    rcases Fold.binary_cases s op l.fold r.fold with ⟨v, hv, hlit, heq⟩ | ⟨hnone, heq⟩
    · simp only [heq, hv, Node.size_of_isLiteral hlit, Option.isSome_some, if_true]
      omega
    · simp only [heq, hnone, Node.size, Option.isSome_none, Bool.false_eq_true, if_false]
      omega
  | .call s f args => by
    have hf := f.size_fold
    have ha := sizeArguments_fold args
    simp only [Node.fold, Node.foldings, Node.size]
    omega
  | .index s t xs d => by
    have ht := t.size_fold
    have hx := sizeNodes_fold xs
    simp only [Node.fold, Node.foldings, Node.size]
    omega
  | .member s t name => by
    have ht := t.size_fold
    simp only [Node.fold, Node.foldings, Node.size]
    omega
  | .block b => by
    simpa only [Node.fold, Node.foldings, Node.size] using b.size_fold
  | .assign s op t v => by
    have ht := t.size_fold
    have hv := v.size_fold
    simp only [Node.fold, Node.foldings, Node.size]
    omega
  | .cond s c t none => by
    have hc := c.size_fold
    have ht := t.size_fold
    simp only [Node.fold, Node.foldings, Node.size]
    omega
  | .cond s c t (some e) => by
    have hc := c.size_fold
    have ht := t.size_fold
    have he := e.size_fold
    simp only [Node.fold, Node.foldings, Node.size]
    omega
  | .whileLoop s c b => by
    have hc := c.size_fold
    have hb := b.size_fold
    simp only [Node.fold, Node.foldings, Node.size]
    omega
  | .repeatLoop s b => by
    have hb := b.size_fold
    simp only [Node.fold, Node.foldings, Node.size]
    omega
  | .forLoop s v x b => by
    have hx := x.size_fold
    have hb := b.size_fold
    simp only [Node.fold, Node.foldings, Node.size]
    omega
  | .function s ps b => by
    have hp := sizeParameters_fold ps
    have hb := b.size_fold
    simp only [Node.fold, Node.foldings, Node.size]
    omega
  | .jump s k none => Nat.le_refl _
  | .jump s k (some x) => by
    have hx := x.size_fold
    simp only [Node.fold, Node.foldings, Node.size]
    omega

theorem Block.size_fold : (b : Block) → b.fold.size + b.foldings ≤ b.size
  | ⟨_, ss⟩ => by
    have hs := sizeNodes_fold ss
    simp only [Block.fold, Block.foldings, Block.size]
    omega

theorem Argument.size_fold : (a : Argument) → a.fold.size + a.foldings ≤ a.size
  | ⟨_, _, v⟩ => by
    have hv := v.size_fold
    simp only [Argument.fold, Argument.foldings, Argument.size]
    omega

theorem Parameter.size_fold : (p : Parameter) → p.fold.size + p.foldings ≤ p.size
  | ⟨_, _, none⟩ => Nat.le_refl _
  | ⟨_, _, some d⟩ => by
    have hd := d.size_fold
    simp only [Parameter.fold, Parameter.foldings, Parameter.size]
    omega

theorem sizeNodes_fold : (ns : List Node) → sizeNodes (foldNodes ns) + foldingsNodes ns ≤ sizeNodes ns
  | [] => Nat.le_refl _
  | n :: ns => by
    have hn := n.size_fold
    have hns := sizeNodes_fold ns
    simp only [foldNodes, foldingsNodes, sizeNodes]
    omega

theorem sizeArguments_fold :
    (as : List Argument) → sizeArguments (foldArguments as) + foldingsArguments as ≤ sizeArguments as
  | [] => Nat.le_refl _
  | a :: as => by
    have ha := a.size_fold
    have has := sizeArguments_fold as
    simp only [foldArguments, foldingsArguments, sizeArguments]
    omega

theorem sizeParameters_fold :
    (ps : List Parameter) → sizeParameters (foldParameters ps) + foldingsParameters ps ≤ sizeParameters ps
  | [] => Nat.le_refl _
  | p :: ps => by
    have hp := p.size_fold
    have hps := sizeParameters_fold ps
    simp only [foldParameters, foldingsParameters, sizeParameters]
    omega

end

namespace Program

theorem fold_of_foldings {p : Program} (h : p.foldings = 0) : p.fold = p := by
  rw [fold, foldNodes_of_foldings p.body h]

theorem foldings_fold (p : Program) : p.fold.foldings = 0 := foldingsNodes_fold p.body

theorem size_fold (p : Program) : p.fold.size + p.foldings ≤ p.size := by
  have h := sizeNodes_fold p.body
  simp only [size, fold, foldings]
  omega

end Program
end Deadwood
