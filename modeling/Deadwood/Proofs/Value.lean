import Deadwood.Proofs.Pruning

/-! The value of a block is that of its last statement, looked up through the blocks and
literal conditions it is wrapped in; a block that comes down to nothing yields `NULL`.
Pruning keeps that value unless the block yields `NULL` behind a statement that stays:
`value_prune_iff`. -/
namespace Deadwood

mutual

/-- A statement by what it stands for: a block and a literal condition for a sequence,
`while (FALSE)` for an empty one, and any other statement for itself. -/
def Node.collect (leaf : Node → α) (join : List α → α) : Node → α
  | .block b => b.collect leaf join
  | .cond s c t none =>
    match c.literal? with
    | some true => t.collect leaf join
    | some false => join []
    | none => leaf (.cond s c t none)
  | .cond s c t (some e) =>
    match c.literal? with
    | some true => t.collect leaf join
    | some false => e.collect leaf join
    | none => leaf (.cond s c t (some e))
  | .whileLoop s c b => if c.literal? = some false then join [] else leaf (.whileLoop s c b)
  | n => leaf n

def Block.collect (leaf : Node → α) (join : List α → α) : Block → α
  | ⟨_, ss⟩ => join (collectNodes leaf join ss)

def collectNodes (leaf : Node → α) (join : List α → α) : List Node → List α
  | [] => []
  | n :: ns => n.collect leaf join :: collectNodes leaf join ns

end

/-- The last statement of a sequence gives its value, and nothing gives `NULL`. -/
def lastSource (sources : List (Option Node)) : Option Node := sources.getLast?.join

namespace Block

/-- The statement whose value the block yields, if no jump leaves it; `none` is `NULL`. -/
def source? (b : Block) : Option Node := b.collect some lastSource

/-- The statements a block comes down to. -/
def leaves (b : Block) : List Node := b.collect (fun n => [n]) List.flatten

def meetsJump (b : Block) : Bool := b.leaves.any Node.isJump

end Block

theorem Node.collect_of_isNormal {n : Node} (hb : !n.isBlock) (h : n.isNormal) (leaf : Node → α)
    (join : List α → α) : n.collect leaf join = leaf n := by
  cases n with
  | block b => simp [Node.isBlock] at hb
  | cond s c t e? => cases e? <;> simp_all [Node.isNormal, Node.collect]
  | whileLoop s c b => simp_all [Node.isNormal, Node.collect]
  | _ => rfl

theorem collectNodes_of_normal (leaf : Node → α) (join : List α → α) {ss : List Node}
    (h : normalNodes ss) : collectNodes leaf join ss = ss.map leaf := by
  induction ss with
  | nil => rfl
  | cons n ns ih =>
    simp only [normalNodes, Bool.and_eq_true] at h
    rw [collectNodes, Node.collect_of_isNormal h.1.1.1 h.1.1.2, ih h.2, List.map_cons]

/-- A pruned block yields the value of its last statement as it stands. -/
theorem Block.source?_prune (b : Block) : b.prune.source? = b.prune.statements.getLast? := by
  cases b with
  | mk s ss =>
    simp only [Block.source?, Block.prune, Block.collect, lastSource,
      collectNodes_of_normal _ _ (normalNodes_pruneNodes ss), List.getLast?_map]
    cases (pruneNodes ss).getLast? <;> rfl

theorem appendToJump_eq_append {ss : List Node} (h : ss.any Node.isJump = false) (rest : List Node) :
    appendToJump ss rest = ss ++ rest := by
  induction ss with
  | nil => rfl
  | cons n ns ih =>
    simp only [List.any_cons, Bool.or_eq_false_iff] at h
    simp [appendToJump, h.1, ih h.2]

theorem Node.isJump_prune (n : Node) : n.prune.node.isJump = n.isJump := by
  cases n with
  | cond s c t e? =>
    rw [Node.prune_cond]
    cases c.literal? with
    | none => rfl
    | some v => cases v <;> rfl
  | whileLoop s c b =>
    rw [Node.prune]
    split <;> rfl
  | _ => rfl

mutual

/-- Where no jump cuts anything off, pruning leaves the statements a sequence comes down
to, each pruned. -/
theorem Node.statements_prune : (n : Node) →
    (n.collect (fun m => [m]) List.flatten).any Node.isJump = false →
    n.prune.statements = (n.collect (fun m => [m]) List.flatten).map (·.prune.node)
  | .number .., _ | .string .., _ | .boolean .., _ | .null .., _ | .identifier .., _ | .unary .., _
  | .binary .., _ | .call .., _ | .index .., _ | .member .., _ | .assign .., _ | .repeatLoop .., _
  | .forLoop .., _ | .function .., _ | .jump .., _ => rfl
  | .block b, h => b.statements_prune h
  | .cond s c t none, h => by
    rw [Node.prune_cond]
    cases hc : c.literal? with
    | none => simp [Node.collect, Node.prune_cond, hc]
    | some v =>
      cases v with
      | false => simp [Node.collect, hc]
      | true =>
        simp only [Node.collect, hc] at h ⊢
        exact t.statements_prune h
  | .cond s c t (some e), h => by
    rw [Node.prune_cond]
    cases hc : c.literal? with
    | none => simp [Node.collect, Node.prune_cond, hc]
    | some v =>
      cases v with
      | false =>
        simp only [Node.collect, hc] at h ⊢
        exact e.statements_prune h
      | true =>
        simp only [Node.collect, hc] at h ⊢
        exact t.statements_prune h
  | .whileLoop s c b, _ => by
    by_cases hc : c.literal? = some false
    · simp [Node.collect, Node.prune, hc]
    · simp [Node.collect, Node.prune, hc]

theorem Block.statements_prune :
    (b : Block) → b.meetsJump = false → b.prune.statements = b.leaves.map (·.prune.node)
  | ⟨_, ss⟩, h => pruneNodes_eq_map ss h

theorem pruneNodes_eq_map : (ss : List Node) →
    (collectNodes (fun m => [m]) List.flatten ss).flatten.any Node.isJump = false →
    pruneNodes ss = (collectNodes (fun m => [m]) List.flatten ss).flatten.map (·.prune.node)
  | [], _ => rfl
  | n :: ns, h => by
    simp only [collectNodes, List.flatten_cons, List.any_append, Bool.or_eq_false_iff] at h
    have hn := n.statements_prune h.1
    -- Pruned statements jump where they did before, so nothing is cut off here either.
    have hjump : n.prune.statements.any Node.isJump = false := by
      rw [hn, List.any_map]
      simpa [Function.comp_def, Node.isJump_prune] using h.1
    rw [pruneNodes, appendToJump_eq_append hjump, hn, pruneNodes_eq_map ns h.2]
    simp [collectNodes]

end

mutual

/-- A statement that gives a value is the last one that is left. -/
theorem Node.getLast?_leaves {m : Node} : (n : Node) → n.collect some lastSource = some m →
    (n.collect (fun m => [m]) List.flatten).getLast? = some m
  | .number .., h | .string .., h | .boolean .., h | .null .., h | .identifier .., h | .unary .., h
  | .binary .., h | .call .., h | .index .., h | .member .., h | .assign .., h | .repeatLoop .., h
  | .forLoop .., h | .function .., h | .jump .., h => h
  | .block b, h => b.getLast?_leaves h
  | .cond s c t none, h => by
    cases hc : c.literal? with
    | none => simpa [Node.collect, hc] using h
    | some v =>
      simp only [Node.collect, hc] at h ⊢
      cases v with
      | false => simp [lastSource] at h
      | true => exact t.getLast?_leaves h
  | .cond s c t (some e), h => by
    cases hc : c.literal? with
    | none => simpa [Node.collect, hc] using h
    | some v =>
      simp only [Node.collect, hc] at h ⊢
      cases v with
      | false => exact e.getLast?_leaves h
      | true => exact t.getLast?_leaves h
  | .whileLoop s c b, h => by
    by_cases hc : c.literal? = some false
    · simp [Node.collect, hc, lastSource] at h
    · simpa [Node.collect, hc] using h

theorem Block.getLast?_leaves {m : Node} :
    (b : Block) → b.source? = some m → b.leaves.getLast? = some m
  | ⟨_, ss⟩, h => getLast?_collectNodes ss h

theorem getLast?_collectNodes {m : Node} : (ss : List Node) →
    lastSource (collectNodes some lastSource ss) = some m →
    (collectNodes (fun m => [m]) List.flatten ss).flatten.getLast? = some m
  | [], h => by simp [collectNodes, lastSource] at h
  | [n], h => by
    have hn : n.collect some lastSource = some m := by simpa [collectNodes, lastSource] using h
    simpa [collectNodes] using Node.getLast?_leaves n hn
  | n :: n' :: ns, h => by
    -- A rest that gives a value is not empty, so it holds the last statement of all.
    have hrest := getLast?_collectNodes (n' :: ns) (by simpa [collectNodes, lastSource] using h)
    rw [collectNodes, List.flatten_cons, List.getLast?_append, hrest]
    rfl

end

/-- The value a pruned block yields is that of the last statement the block comes down to.
So it is the value the block itself yields, pruned, except in one case: the block yields
`NULL`, from a last statement that vanishes, and something before it stays. -/
theorem value_prune_iff (b : Block) (h : b.meetsJump = false) :
    b.prune.source? = b.leaves.getLast?.map (·.prune.node) ∧
    (((b.prune.source? = none ↔ b.source? = none) ∧
        ∀ n, b.source? = some n → b.prune.source? = some n.prune.node) ↔
      b.source?.isSome ∨ b.leaves = []) := by
  have hsource : b.prune.source? = b.leaves.getLast?.map (·.prune.node) := by
    rw [b.source?_prune, b.statements_prune h, List.getLast?_map]
  refine ⟨hsource, ?_⟩
  rw [hsource]
  cases hb : b.source? with
  | some n =>
    have hlast := b.getLast?_leaves hb
    simp [hlast]
  | none => simp

/-- The function body `{ x; if (FALSE) y }` yields `NULL`, and `x` once it is pruned. -/
theorem value_lost_before_vanished :
    let s : Span := ⟨1, 1, 1, 1, none⟩
    let x : Node := .identifier ⟨s, "x"⟩
    let b : Block := ⟨s, [x, .cond s (.boolean s false) ⟨s, [.identifier ⟨s, "y"⟩]⟩ none]⟩
    b.meetsJump = false ∧ b.source? = none ∧ b.prune.source? = some x := ⟨rfl, rfl, rfl⟩

/-- `{ y; if (TRUE) { x } }` yields `x` before and after. -/
theorem value_kept_of_selected :
    let s : Span := ⟨1, 1, 1, 1, none⟩
    let x : Node := .identifier ⟨s, "x"⟩
    let b : Block := ⟨s, [.identifier ⟨s, "y"⟩, .cond s (.boolean s true) ⟨s, [x]⟩ none]⟩
    b.meetsJump = false ∧ b.source? = some x ∧ b.prune.source? = some x := by
  intro s x b
  have hkept := (value_prune_iff b rfl).2.2 (.inl rfl)
  exact ⟨rfl, rfl, hkept.2 x rfl⟩

end Deadwood
