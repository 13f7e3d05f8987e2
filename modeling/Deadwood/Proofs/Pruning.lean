import Deadwood.Pass.Prune

/-! Pruned programs are normal: no sequence holds a block or goes on behind a jump, and no
literal condition is left to resolve. Pruning gives a normal tree back as it was, and
takes nodes away from any other. -/
namespace Deadwood

namespace Pruned

@[simp] theorem node_single (n : Node) : (single n).node = n := rfl

@[simp] theorem node_splice (b : Block) : (splice b).node = .block b := rfl

@[simp] theorem statements_single (n : Node) : (single n).statements = [n] := rfl

@[simp] theorem statements_splice (b : Block) : (splice b).statements = b.statements := rfl

end Pruned

/-- An `if` leaves the branch its condition selects, or stays with both branches pruned. -/
theorem Node.prune_cond (s : Span) (c : Node) (t : Block) (e? : Option Block) :
    (Node.cond s c t e?).prune =
      match c.literal? with
      | some true => .splice t.prune
      | some false => .splice ((e?.map Block.prune).getD ⟨s, []⟩)
      | none => .single (.cond s c t.prune (e?.map Block.prune)) := by
  cases e? with
  | none => rfl
  | some e => rfl

def Node.isBlock : Node → Bool
  | .block _ => true
  | _ => false

mutual

/-- Conditions, the payload of a jump and the parameters of a function do not count. -/
def Node.isNormal : Node → Bool
  | .number .. | .string .. | .boolean .. | .null .. | .identifier .. | .jump .. => true
  | .unary _ _ x => x.isNormal
  | .binary _ _ l r => l.isNormal && r.isNormal
  | .call _ f args => f.isNormal && normalArguments args
  | .index _ t xs _ => t.isNormal && normalItems xs
  | .member _ t _ => t.isNormal
  | .block b => b.isNormal
  | .assign _ _ t v => t.isNormal && v.isNormal
  | .cond _ c t none => c.literal?.isNone && t.isNormal
  | .cond _ c t (some e) => c.literal?.isNone && t.isNormal && e.isNormal
  | .whileLoop _ c b => c.literal? != some false && b.isNormal
  | .repeatLoop _ b => b.isNormal
  | .forLoop _ _ x b => x.isNormal && b.isNormal
  | .function _ _ b => b.isNormal

def Block.isNormal : Block → Bool
  | ⟨_, ss⟩ => normalNodes ss

/-- A statement sequence holds no block and ends at its first jump. -/
def normalNodes : List Node → Bool
  | [] => true
  | n :: ns => !n.isBlock && n.isNormal && (!n.isJump || ns.isEmpty) && normalNodes ns

/-- A list of expressions. -/
def normalItems : List Node → Bool
  | [] => true
  | n :: ns => n.isNormal && normalItems ns

def normalArguments : List Argument → Bool
  | [] => true
  | ⟨_, _, v⟩ :: as => v.isNormal && normalArguments as

end

/-- What is put in a statement's place is normal there: a block only to be spliced. -/
def Pruned.isNormal : Pruned → Bool
  | .single n => !n.isBlock && n.isNormal
  | .splice b => b.isNormal

theorem Pruned.isNormal_node {p : Pruned} (h : p.isNormal) : p.node.isNormal := by
  cases p with
  | single n => simp_all [Pruned.isNormal]
  | splice b => simpa [Pruned.isNormal, Node.isNormal] using h

theorem Pruned.normalNodes_statements {p : Pruned} (h : p.isNormal) : normalNodes p.statements := by
  cases p with
  | single n => simp_all [Pruned.isNormal, normalNodes]
  | splice b =>
    cases b
    simpa [Pruned.isNormal, Block.isNormal] using h

theorem normalNodes_appendToJump {ss rest : List Node} (hs : normalNodes ss) (hr : normalNodes rest) :
    normalNodes (appendToJump ss rest) := by
  induction ss with
  | nil => simpa [appendToJump] using hr
  | cons n ns ih =>
    simp only [normalNodes, Bool.and_eq_true] at hs
    obtain ⟨⟨⟨hb, hn⟩, hj⟩, hns⟩ := hs
    by_cases h : n.isJump
    · simp [appendToJump, normalNodes, h, hn, hb]
    · simp [appendToJump, normalNodes, h, hn, hb, ih hns]

mutual

theorem Node.isNormal_prune : (n : Node) → n.prune.isNormal
  | .number .. | .string .. | .boolean .. | .null .. | .identifier .. | .jump .. => rfl
  | .unary s op x => by
    simpa [Node.prune, Pruned.isNormal, Node.isBlock, Node.isNormal] using
      Pruned.isNormal_node x.isNormal_prune
  | .binary s op l r => by
    simp [Node.prune, Pruned.isNormal, Node.isBlock, Node.isNormal,
      Pruned.isNormal_node l.isNormal_prune, Pruned.isNormal_node r.isNormal_prune]
  | .call s f args => by
    simp [Node.prune, Pruned.isNormal, Node.isBlock, Node.isNormal,
      Pruned.isNormal_node f.isNormal_prune, normalArguments_pruneArguments args]
  | .index s t xs d => by
    simp [Node.prune, Pruned.isNormal, Node.isBlock, Node.isNormal,
      Pruned.isNormal_node t.isNormal_prune, normalItems_pruneItems xs]
  | .member s t name => by
    simpa [Node.prune, Pruned.isNormal, Node.isBlock, Node.isNormal] using
      Pruned.isNormal_node t.isNormal_prune
  | .block b => by
    simpa [Node.prune, Pruned.isNormal] using b.isNormal_prune
  | .assign s op t v => by
    simp [Node.prune, Pruned.isNormal, Node.isBlock, Node.isNormal,
      Pruned.isNormal_node t.isNormal_prune, Pruned.isNormal_node v.isNormal_prune]
  | .cond s c t none => by
    have ht := t.isNormal_prune
    rw [Node.prune_cond]
    cases h : c.literal? with
    | none => simp [Pruned.isNormal, Node.isBlock, Node.isNormal, h, ht]
    | some v => cases v <;> simp [Pruned.isNormal, Block.isNormal, normalNodes, ht]
  | .cond s c t (some e) => by
    have ht := t.isNormal_prune
    have he := e.isNormal_prune
    rw [Node.prune_cond]
    cases h : c.literal? with
    | none => simp [Pruned.isNormal, Node.isBlock, Node.isNormal, h, ht, he]
    | some v => cases v <;> simp [Pruned.isNormal, ht, he]
  | .whileLoop s c b => by
    have hb := b.isNormal_prune
    rw [Node.prune]
    split
    · rfl
    · next h => simp [Pruned.isNormal, Node.isBlock, Node.isNormal, h, hb]
  | .repeatLoop s b => by
    simpa [Node.prune, Pruned.isNormal, Node.isBlock, Node.isNormal] using b.isNormal_prune
  | .forLoop s v x b => by
    simp [Node.prune, Pruned.isNormal, Node.isBlock, Node.isNormal,
      Pruned.isNormal_node x.isNormal_prune, b.isNormal_prune]
  | .function s ps b => by
    simpa [Node.prune, Pruned.isNormal, Node.isBlock, Node.isNormal] using b.isNormal_prune

theorem Block.isNormal_prune : (b : Block) → b.prune.isNormal
  | ⟨_, ss⟩ => by simpa [Block.prune, Block.isNormal] using normalNodes_pruneNodes ss

theorem normalNodes_pruneNodes : (ss : List Node) → normalNodes (pruneNodes ss)
  | [] => rfl
  | n :: ns => by
    rw [pruneNodes]
    exact normalNodes_appendToJump (Pruned.normalNodes_statements n.isNormal_prune)
      (normalNodes_pruneNodes ns)

theorem normalItems_pruneItems : (xs : List Node) → normalItems (pruneItems xs)
  | [] => rfl
  | x :: xs => by
    simp [pruneItems, normalItems, Pruned.isNormal_node x.isNormal_prune, normalItems_pruneItems xs]

theorem normalArguments_pruneArguments : (as : List Argument) → normalArguments (pruneArguments as)
  | [] => rfl
  | ⟨_, _, v⟩ :: as => by
    simp [pruneArguments, normalArguments, Pruned.isNormal_node v.isNormal_prune,
      normalArguments_pruneArguments as]

end

/-- A node that pruning keeps: as it is, except that a block will be spliced. -/
def Node.kept : Node → Pruned
  | .block b => .splice b
  | n => .single n

@[simp] theorem Node.kept_node (n : Node) : n.kept.node = n := by
  cases n <;> rfl

theorem Node.kept_statements {n : Node} (h : !n.isBlock) : n.kept.statements = [n] := by
  cases n with
  | block b => simp [Node.isBlock] at h
  | _ => rfl

mutual

theorem Node.prune_of_isNormal : (n : Node) → n.isNormal → n.prune = n.kept
  | .number .., _ | .string .., _ | .boolean .., _ | .null .., _ | .identifier .., _ | .jump .., _ => rfl
  | .unary s op x, h => by
    simp only [Node.isNormal] at h
    rw [Node.prune, x.prune_of_isNormal h, Node.kept_node]
    rfl
  | .binary s op l r, h => by
    simp only [Node.isNormal, Bool.and_eq_true] at h
    rw [Node.prune, l.prune_of_isNormal h.1, r.prune_of_isNormal h.2, Node.kept_node, Node.kept_node]
    rfl
  | .call s f args, h => by
    simp only [Node.isNormal, Bool.and_eq_true] at h
    rw [Node.prune, f.prune_of_isNormal h.1, pruneArguments_of_normal args h.2, Node.kept_node]
    rfl
  | .index s t xs d, h => by
    simp only [Node.isNormal, Bool.and_eq_true] at h
    rw [Node.prune, t.prune_of_isNormal h.1, pruneItems_of_normal xs h.2, Node.kept_node]
    rfl
  | .member s t name, h => by
    simp only [Node.isNormal] at h
    rw [Node.prune, t.prune_of_isNormal h, Node.kept_node]
    rfl
  | .block b, h => by
    simp only [Node.isNormal] at h
    rw [Node.prune, b.prune_of_isNormal h]
    rfl
  | .assign s op t v, h => by
    simp only [Node.isNormal, Bool.and_eq_true] at h
    rw [Node.prune, t.prune_of_isNormal h.1, v.prune_of_isNormal h.2, Node.kept_node, Node.kept_node]
    rfl
  | .cond s c t none, h => by
    simp only [Node.isNormal, Bool.and_eq_true, Option.isNone_iff_eq_none] at h
    simp [Node.prune_cond, Node.kept, h.1, t.prune_of_isNormal h.2]
  | .cond s c t (some e), h => by
    simp only [Node.isNormal, Bool.and_eq_true, Option.isNone_iff_eq_none] at h
    simp [Node.prune_cond, Node.kept, h.1.1, t.prune_of_isNormal h.1.2, e.prune_of_isNormal h.2]
  | .whileLoop s c b, h => by
    simp only [Node.isNormal, Bool.and_eq_true, bne_iff_ne] at h
    simp [Node.prune, Node.kept, h.1, b.prune_of_isNormal h.2]
  | .repeatLoop s b, h => by
    simp only [Node.isNormal] at h
    rw [Node.prune, b.prune_of_isNormal h]
    rfl
  | .forLoop s v x b, h => by
    simp only [Node.isNormal, Bool.and_eq_true] at h
    rw [Node.prune, x.prune_of_isNormal h.1, b.prune_of_isNormal h.2, Node.kept_node]
    rfl
  | .function s ps b, h => by
    simp only [Node.isNormal] at h
    rw [Node.prune, b.prune_of_isNormal h]
    rfl

theorem Block.prune_of_isNormal : (b : Block) → b.isNormal → b.prune = b
  | ⟨_, ss⟩, h => by
    simp only [Block.isNormal] at h
    rw [Block.prune, pruneNodes_of_normal ss h]

theorem pruneNodes_of_normal : (ss : List Node) → normalNodes ss → pruneNodes ss = ss
  | [], _ => rfl
  | n :: ns, h => by
    simp only [normalNodes, Bool.and_eq_true, Bool.or_eq_true, List.isEmpty_iff] at h
    obtain ⟨⟨⟨hb, hn⟩, hj⟩, hns⟩ := h
    rw [pruneNodes, n.prune_of_isNormal hn, Node.kept_statements hb, pruneNodes_of_normal ns hns]
    -- Nothing stands behind a jump, so nothing is cut off.
    rcases hj with hj | rfl
    · simp_all [appendToJump]
    · simp [appendToJump]

theorem pruneItems_of_normal : (xs : List Node) → normalItems xs → pruneItems xs = xs
  | [], _ => rfl
  | x :: xs, h => by
    simp only [normalItems, Bool.and_eq_true] at h
    simp [pruneItems, x.prune_of_isNormal h.1, pruneItems_of_normal xs h.2]

theorem pruneArguments_of_normal : (as : List Argument) → normalArguments as → pruneArguments as = as
  | [], _ => rfl
  | ⟨_, _, v⟩ :: as, h => by
    simp only [normalArguments, Bool.and_eq_true] at h
    simp [pruneArguments, v.prune_of_isNormal h.1, pruneArguments_of_normal as h.2]

end

/-! Node counts. Where none is lost the tree was normal. -/

theorem Node.size_pos : (n : Node) → 0 < n.size := by
  intro n
  cases n with
  | block b =>
    cases b
    simp only [Node.size, Block.size]
    omega
  | cond s c t e? =>
    cases e? <;> simp only [Node.size] <;> omega
  | jump s k x? =>
    cases x? <;> simp only [Node.size] <;> omega
  | _ => simp only [Node.size]; omega

theorem sizeNodes_eq_zero {ss : List Node} : sizeNodes ss = 0 ↔ ss = [] := by
  cases ss with
  | nil => simp [sizeNodes]
  | cons n ns =>
    have hn := n.size_pos
    simp only [sizeNodes, reduceCtorEq, iff_false]
    omega

theorem sizeNodes_appendToJump (ss rest : List Node) :
    sizeNodes (appendToJump ss rest) ≤ sizeNodes ss + sizeNodes rest := by
  induction ss with
  | nil => simp [appendToJump, sizeNodes]
  | cons n ns ih =>
    simp only [appendToJump]
    split <;> simp only [sizeNodes] <;> omega

/-- A spliced block gives up a node, its own. -/
theorem Node.sizeNodes_prune_statements {n : Node} (hle : n.prune.node.size ≤ n.size)
    (hn : n.size ≤ n.prune.node.size → n.isNormal) :
    sizeNodes n.prune.statements ≤ n.size ∧
      (n.size ≤ sizeNodes n.prune.statements → !n.isBlock ∧ n.isNormal) := by
  cases hp : n.prune with
  | single m =>
    rw [hp] at hle hn
    simp only [Pruned.node_single] at hle hn
    simp only [Pruned.statements_single, sizeNodes, Nat.add_zero]
    refine ⟨hle, fun h => ⟨?_, hn h⟩⟩
    cases n with
    | block b => simp [Node.prune] at hp
    | _ => rfl
  | splice b =>
    rw [hp] at hle
    cases b
    simp only [Pruned.node_splice, Node.size, Block.size] at hle
    simp only [Pruned.statements_splice]
    exact ⟨by omega, fun h => by omega⟩

mutual

theorem Node.size_prune :
    (n : Node) → n.prune.node.size ≤ n.size ∧ (n.size ≤ n.prune.node.size → n.isNormal)
  | .number .. | .string .. | .boolean .. | .null .. | .identifier .. | .jump .. =>
    ⟨Nat.le_refl _, fun _ => rfl⟩
  | .unary s op x => by
    have hx := x.size_prune
    simp only [Node.prune, Pruned.node_single, Node.size, Node.isNormal]
    exact ⟨by omega, fun h => hx.2 (by omega)⟩
  | .binary s op l r => by
    have hl := l.size_prune
    have hr := r.size_prune
    simp only [Node.prune, Pruned.node_single, Node.size, Node.isNormal, Bool.and_eq_true]
    exact ⟨by omega, fun h => ⟨hl.2 (by omega), hr.2 (by omega)⟩⟩
  | .call s f args => by
    have hf := f.size_prune
    have ha := sizeArguments_pruneArguments args
    simp only [Node.prune, Pruned.node_single, Node.size, Node.isNormal, Bool.and_eq_true]
    exact ⟨by omega, fun h => ⟨hf.2 (by omega), ha.2 (by omega)⟩⟩
  | .index s t xs d => by
    have ht := t.size_prune
    have hx := sizeNodes_pruneItems xs
    simp only [Node.prune, Pruned.node_single, Node.size, Node.isNormal, Bool.and_eq_true]
    exact ⟨by omega, fun h => ⟨ht.2 (by omega), hx.2 (by omega)⟩⟩
  | .member s t name => by
    have ht := t.size_prune
    simp only [Node.prune, Pruned.node_single, Node.size, Node.isNormal]
    exact ⟨by omega, fun h => ht.2 (by omega)⟩
  | .block b => by
    simpa only [Node.prune, Pruned.node_splice, Node.size, Node.isNormal] using b.size_prune
  | .assign s op t v => by
    have ht := t.size_prune
    have hv := v.size_prune
    simp only [Node.prune, Pruned.node_single, Node.size, Node.isNormal, Bool.and_eq_true]
    exact ⟨by omega, fun h => ⟨ht.2 (by omega), hv.2 (by omega)⟩⟩
  | .cond s c t none => by
    have hc := c.size_pos
    have ht := t.size_prune
    rw [Node.prune_cond]
    cases h : c.literal? with
    | none =>
      simp only [Pruned.node_single, Option.map_none, Node.size, Node.isNormal, h, Option.isNone_none, Bool.true_and]
      exact ⟨by omega, fun h => ht.2 (by omega)⟩
    | some v =>
      -- The condition is gone, so the count falls.
      cases v <;> simp only [Pruned.node_splice, Option.map_none, Option.getD_none, Node.size, Block.size,
        sizeNodes] <;> exact ⟨by omega, fun h => by omega⟩
  | .cond s c t (some e) => by
    have hc := c.size_pos
    have ht := t.size_prune
    have he := e.size_prune
    rw [Node.prune_cond]
    cases h : c.literal? with
    | none =>
      simp only [Pruned.node_single, Option.map_some, Node.size, Node.isNormal, h, Option.isNone_none, Bool.true_and,
        Bool.and_eq_true]
      exact ⟨by omega, fun h => ⟨ht.2 (by omega), he.2 (by omega)⟩⟩
    | some v =>
      cases v <;> simp only [Pruned.node_splice, Option.map_some, Option.getD_some, Node.size] <;>
        exact ⟨by omega, fun h => by omega⟩
  | .whileLoop s c b => by
    have hc := c.size_pos
    have hb := b.size_prune
    rw [Node.prune]
    split
    · simp only [Pruned.node_splice, Node.size, Block.size, sizeNodes]
      exact ⟨by omega, fun h => by omega⟩
    · next hl =>
      simp only [Pruned.node_single, Node.size, Node.isNormal, Bool.and_eq_true, bne_iff_ne]
      exact ⟨by omega, fun h => ⟨hl, hb.2 (by omega)⟩⟩
  | .repeatLoop s b => by
    have hb := b.size_prune
    simp only [Node.prune, Pruned.node_single, Node.size, Node.isNormal]
    exact ⟨by omega, fun h => hb.2 (by omega)⟩
  | .forLoop s v x b => by
    have hx := x.size_prune
    have hb := b.size_prune
    simp only [Node.prune, Pruned.node_single, Node.size, Node.isNormal, Bool.and_eq_true]
    exact ⟨by omega, fun h => ⟨hx.2 (by omega), hb.2 (by omega)⟩⟩
  | .function s ps b => by
    have hb := b.size_prune
    simp only [Node.prune, Pruned.node_single, Node.size, Node.isNormal]
    exact ⟨by omega, fun h => hb.2 (by omega)⟩

theorem Block.size_prune : (b : Block) → b.prune.size ≤ b.size ∧ (b.size ≤ b.prune.size → b.isNormal)
  | ⟨_, ss⟩ => by
    have hs := sizeNodes_pruneNodes ss
    simp only [Block.prune, Block.size, Block.isNormal]
    exact ⟨by omega, fun h => hs.2 (by omega)⟩

theorem sizeNodes_pruneNodes : (ss : List Node) →
    sizeNodes (pruneNodes ss) ≤ sizeNodes ss ∧ (sizeNodes ss ≤ sizeNodes (pruneNodes ss) → normalNodes ss)
  | [] => ⟨Nat.le_refl _, fun _ => rfl⟩
  | n :: ns => by
    have hn := Node.sizeNodes_prune_statements n.size_prune.1 n.size_prune.2
    have hns := sizeNodes_pruneNodes ns
    have happend := sizeNodes_appendToJump n.prune.statements (pruneNodes ns)
    simp only [pruneNodes, sizeNodes]
    refine ⟨by omega, fun h => ?_⟩
    obtain ⟨hblock, hnormal⟩ := hn.2 (by omega)
    have htail := hns.2 (by omega)
    -- The statement stays, so behind a jump there was nothing to lose.
    rw [n.prune_of_isNormal hnormal, Node.kept_statements hblock, appendToJump, appendToJump] at h
    by_cases hj : n.isJump
    · simp only [hj, if_true, sizeNodes] at h
      have hnil : ns = [] := sizeNodes_eq_zero.1 (by omega)
      simp [normalNodes, hblock, hnormal, hnil]
    · simp [normalNodes, hblock, hnormal, hj, htail]

theorem sizeNodes_pruneItems : (xs : List Node) →
    sizeNodes (pruneItems xs) ≤ sizeNodes xs ∧ (sizeNodes xs ≤ sizeNodes (pruneItems xs) → normalItems xs)
  | [] => ⟨Nat.le_refl _, fun _ => rfl⟩
  | x :: xs => by
    have hx := x.size_prune
    have hxs := sizeNodes_pruneItems xs
    simp only [pruneItems, sizeNodes, normalItems, Bool.and_eq_true]
    exact ⟨by omega, fun h => ⟨hx.2 (by omega), hxs.2 (by omega)⟩⟩

theorem sizeArguments_pruneArguments : (as : List Argument) →
    sizeArguments (pruneArguments as) ≤ sizeArguments as ∧
      (sizeArguments as ≤ sizeArguments (pruneArguments as) → normalArguments as)
  | [] => ⟨Nat.le_refl _, fun _ => rfl⟩
  | ⟨_, _, v⟩ :: as => by
    have hv := v.size_prune
    have has := sizeArguments_pruneArguments as
    simp only [pruneArguments, sizeArguments, Argument.size, normalArguments, Bool.and_eq_true]
    exact ⟨by omega, fun h => ⟨hv.2 (by omega), has.2 (by omega)⟩⟩

end

namespace Program

def isNormal (p : Program) : Bool := normalNodes p.body

theorem isNormal_prune (p : Program) : p.prune.isNormal := normalNodes_pruneNodes p.body

theorem prune_of_isNormal {p : Program} (h : p.isNormal) : p.prune = p := by
  rw [prune, pruneNodes_of_normal p.body h]

theorem prune_prune (p : Program) : p.prune.prune = p.prune := prune_of_isNormal p.isNormal_prune

/-- The count tells exactly whether pruning changed the program. -/
theorem pruneShrinks_eq_false_iff (p : Program) : p.pruneShrinks = false ↔ p.prune = p := by
  constructor
  · intro h
    have hsize : p.size ≤ p.prune.size := by simpa [pruneShrinks] using h
    exact prune_of_isNormal ((sizeNodes_pruneNodes p.body).2 (by simpa [size, prune] using hsize))
  · intro h
    simp [pruneShrinks, h]

end Program
end Deadwood
