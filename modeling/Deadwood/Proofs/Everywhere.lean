import Deadwood.Proofs.Bare

/-! A property of single nodes that holds at every node of a tree. -/
namespace Deadwood

mutual

def Node.all (p : Node → Bool) : Node → Bool
  | .number s v i => p (.number s v i)
  | .string s v => p (.string s v)
  | .boolean s v => p (.boolean s v)
  | .null s => p (.null s)
  | .identifier id => p (.identifier id)
  | .unary s op x => p (.unary s op x) && x.all p
  | .binary s op l r => p (.binary s op l r) && l.all p && r.all p
  | .call s f args => p (.call s f args) && f.all p && allArguments p args
  | .index s t xs d => p (.index s t xs d) && t.all p && allNodes p xs
  | .member s t name => p (.member s t name) && t.all p
  | .block b => p (.block b) && b.all p
  | .assign s op t v => p (.assign s op t v) && t.all p && v.all p
  | .cond s c t none => p (.cond s c t none) && c.all p && t.all p
  | .cond s c t (some e) => p (.cond s c t (some e)) && c.all p && t.all p && e.all p
  | .whileLoop s c b => p (.whileLoop s c b) && c.all p && b.all p
  | .repeatLoop s b => p (.repeatLoop s b) && b.all p
  | .forLoop s v x b => p (.forLoop s v x b) && x.all p && b.all p
  | .function s ps b => p (.function s ps b) && allParameters p ps && b.all p
  | .jump s k none => p (.jump s k none)
  | .jump s k (some x) => p (.jump s k (some x)) && x.all p

def Block.all (p : Node → Bool) : Block → Bool
  | ⟨_, ss⟩ => allNodes p ss

def allNodes (p : Node → Bool) : List Node → Bool
  | [] => true
  | n :: ns => n.all p && allNodes p ns

def allArguments (p : Node → Bool) : List Argument → Bool
  | [] => true
  | ⟨_, _, v⟩ :: as => v.all p && allArguments p as

def allParameters (p : Node → Bool) : List Parameter → Bool
  | [] => true
  | ⟨_, _, none⟩ :: ps => allParameters p ps
  | ⟨_, _, some d⟩ :: ps => d.all p && allParameters p ps

end

def Program.all (p : Node → Bool) (q : Program) : Bool := allNodes p q.body

theorem Node.self_of_all {p : Node → Bool} {n : Node} (h : n.all p) : p n := by
  unfold Node.all at h
  split at h <;> simp_all

theorem Node.all_asBlock {p : Node → Bool} {n : Node} (h : n.all p) : n.asBlock.all p := by
  cases n with
  | block b =>
    simp only [Node.all, Bool.and_eq_true] at h
    exact h.2
  | _ => simpa [Node.asBlock, Block.all, allNodes] using h

theorem allNodes_iff {p : Node → Bool} {ns : List Node} : allNodes p ns ↔ ∀ n ∈ ns, n.all p := by
  induction ns with
  | nil => simp [allNodes]
  | cons n ns ih => simp [allNodes, ih]

theorem allArguments_iff {p : Node → Bool} {as : List Argument} :
    allArguments p as ↔ ∀ a ∈ as, a.value.all p := by
  induction as with
  | nil => simp [allArguments]
  | cons a as ih =>
    obtain ⟨_, _, v⟩ := a
    simp [allArguments, ih]

theorem allParameters_iff {p : Node → Bool} {ps : List Parameter} :
    allParameters p ps ↔ ∀ a ∈ ps, ∀ d, a.default? = some d → d.all p := by
  induction ps with
  | nil => simp [allParameters]
  | cons a ps ih =>
    obtain ⟨_, _, _ | d⟩ := a <;> simp [allParameters, ih]

mutual

theorem Node.all_bare {p : Node → Bool} (hp : ∀ n, p n.bare = p n) : (n : Node) → n.bare.all p = n.all p
  | .number s v i => hp (.number s v i)
  | .string s v => hp (.string s v)
  | .boolean s v => hp (.boolean s v)
  | .null s => hp (.null s)
  | .identifier id => hp (.identifier id)
  | .unary s op x => by simp only [Node.all, ← hp (.unary s op x), Node.bare, Node.all_bare hp x]
  | .binary s op l r => by
    simp only [Node.all, ← hp (.binary s op l r), Node.bare, Node.all_bare hp l, Node.all_bare hp r]
  | .call s f args => by
    simp only [Node.all, ← hp (.call s f args), Node.bare, Node.all_bare hp f, allArguments_bare hp args]
  | .index s t xs d => by
    simp only [Node.all, ← hp (.index s t xs d), Node.bare, Node.all_bare hp t, allNodes_bare hp xs]
  | .member s t name => by simp only [Node.all, ← hp (.member s t name), Node.bare, Node.all_bare hp t]
  | .block b => by simp only [Node.all, ← hp (.block b), Node.bare, Block.all_bare hp b]
  | .assign s op t v => by
    simp only [Node.all, ← hp (.assign s op t v), Node.bare, Node.all_bare hp t, Node.all_bare hp v]
  | .cond s c t none => by
    simp only [Node.all, ← hp (.cond s c t none), Node.bare, Node.all_bare hp c, Block.all_bare hp t]
  | .cond s c t (some e) => by
    simp only [Node.all, ← hp (.cond s c t (some e)), Node.bare, Node.all_bare hp c, Block.all_bare hp t,
      Block.all_bare hp e]
  | .whileLoop s c b => by
    simp only [Node.all, ← hp (.whileLoop s c b), Node.bare, Node.all_bare hp c, Block.all_bare hp b]
  | .repeatLoop s b => by simp only [Node.all, ← hp (.repeatLoop s b), Node.bare, Block.all_bare hp b]
  | .forLoop s v x b => by
    simp only [Node.all, ← hp (.forLoop s v x b), Node.bare, Node.all_bare hp x, Block.all_bare hp b]
  | .function s ps b => by
    simp only [Node.all, ← hp (.function s ps b), Node.bare, allParameters_bare hp ps, Block.all_bare hp b]
  | .jump s k none => hp (.jump s k none)
  | .jump s k (some x) => by simp only [Node.all, ← hp (.jump s k (some x)), Node.bare, Node.all_bare hp x]

theorem Block.all_bare {p : Node → Bool} (hp : ∀ n, p n.bare = p n) : (b : Block) → b.bare.all p = b.all p
  | ⟨_, ss⟩ => allNodes_bare hp ss

theorem allNodes_bare {p : Node → Bool} (hp : ∀ n, p n.bare = p n) :
    (ns : List Node) → allNodes p (bareNodes ns) = allNodes p ns
  | [] => rfl
  | n :: ns => by simp only [bareNodes, allNodes, Node.all_bare hp n, allNodes_bare hp ns]

theorem allArguments_bare {p : Node → Bool} (hp : ∀ n, p n.bare = p n) :
    (as : List Argument) → allArguments p (bareArguments as) = allArguments p as
  | [] => rfl
  | ⟨_, _, v⟩ :: as => by
    simp only [bareArguments, Argument.bare, allArguments, Node.all_bare hp v, allArguments_bare hp as]

theorem allParameters_bare {p : Node → Bool} (hp : ∀ n, p n.bare = p n) : (ps : List Parameter) →
    allParameters p (bareParameters ps) = allParameters p ps
  | [] => rfl
  | ⟨_, _, none⟩ :: ps => by
    simp only [bareParameters, Parameter.bare, allParameters, allParameters_bare hp ps]
  | ⟨_, _, some d⟩ :: ps => by
    simp only [bareParameters, Parameter.bare, allParameters, Node.all_bare hp d, allParameters_bare hp ps]

end

mutual

/-- What holds at every node carries over from node to node, and may look at all that is below a node. -/
theorem Node.all_imp {p q r : Node → Bool} (hpqr : ∀ n : Node, n.all p → q n → r n) :
    (n : Node) → n.all p → n.all q → n.all r
  | .number .., h, hq | .string .., h, hq | .boolean .., h, hq | .null _, h, hq | .identifier _, h, hq => hpqr _ h hq
  | .unary s op x, h, hq => by
    have hself := hpqr (.unary s op x) h
    simp only [Node.all, Bool.and_eq_true] at h hq ⊢
    exact ⟨hself hq.1, x.all_imp hpqr h.2 hq.2⟩
  | .binary s op x y, h, hq => by
    have hself := hpqr (.binary s op x y) h
    simp only [Node.all, Bool.and_eq_true] at h hq ⊢
    exact ⟨⟨hself hq.1.1, x.all_imp hpqr h.1.2 hq.1.2⟩, y.all_imp hpqr h.2 hq.2⟩
  | .call s f args, h, hq => by
    have hself := hpqr (.call s f args) h
    simp only [Node.all, Bool.and_eq_true] at h hq ⊢
    exact ⟨⟨hself hq.1.1, f.all_imp hpqr h.1.2 hq.1.2⟩, allArguments_imp hpqr args h.2 hq.2⟩
  | .index s t xs d, h, hq => by
    have hself := hpqr (.index s t xs d) h
    simp only [Node.all, Bool.and_eq_true] at h hq ⊢
    exact ⟨⟨hself hq.1.1, t.all_imp hpqr h.1.2 hq.1.2⟩, allNodes_imp hpqr xs h.2 hq.2⟩
  | .member s t name, h, hq => by
    have hself := hpqr (.member s t name) h
    simp only [Node.all, Bool.and_eq_true] at h hq ⊢
    exact ⟨hself hq.1, t.all_imp hpqr h.2 hq.2⟩
  | .block b, h, hq => by
    have hself := hpqr (.block b) h
    simp only [Node.all, Bool.and_eq_true] at h hq ⊢
    exact ⟨hself hq.1, b.all_imp hpqr h.2 hq.2⟩
  | .assign s op t v, h, hq => by
    have hself := hpqr (.assign s op t v) h
    simp only [Node.all, Bool.and_eq_true] at h hq ⊢
    exact ⟨⟨hself hq.1.1, t.all_imp hpqr h.1.2 hq.1.2⟩, v.all_imp hpqr h.2 hq.2⟩
  | .cond s c t none, h, hq => by
    have hself := hpqr (.cond s c t none) h
    simp only [Node.all, Bool.and_eq_true] at h hq ⊢
    exact ⟨⟨hself hq.1.1, c.all_imp hpqr h.1.2 hq.1.2⟩, t.all_imp hpqr h.2 hq.2⟩
  | .cond s c t (some e), h, hq => by
    have hself := hpqr (.cond s c t (some e)) h
    simp only [Node.all, Bool.and_eq_true] at h hq ⊢
    exact ⟨⟨⟨hself hq.1.1.1, c.all_imp hpqr h.1.1.2 hq.1.1.2⟩, t.all_imp hpqr h.1.2 hq.1.2⟩, e.all_imp hpqr h.2 hq.2⟩
  | .whileLoop s c b, h, hq => by
    have hself := hpqr (.whileLoop s c b) h
    simp only [Node.all, Bool.and_eq_true] at h hq ⊢
    exact ⟨⟨hself hq.1.1, c.all_imp hpqr h.1.2 hq.1.2⟩, b.all_imp hpqr h.2 hq.2⟩
  | .repeatLoop s b, h, hq => by
    have hself := hpqr (.repeatLoop s b) h
    simp only [Node.all, Bool.and_eq_true] at h hq ⊢
    exact ⟨hself hq.1, b.all_imp hpqr h.2 hq.2⟩
  | .forLoop s v x b, h, hq => by
    have hself := hpqr (.forLoop s v x b) h
    simp only [Node.all, Bool.and_eq_true] at h hq ⊢
    exact ⟨⟨hself hq.1.1, x.all_imp hpqr h.1.2 hq.1.2⟩, b.all_imp hpqr h.2 hq.2⟩
  | .function s ps b, h, hq => by
    have hself := hpqr (.function s ps b) h
    simp only [Node.all, Bool.and_eq_true] at h hq ⊢
    exact ⟨⟨hself hq.1.1, allParameters_imp hpqr ps h.1.2 hq.1.2⟩, b.all_imp hpqr h.2 hq.2⟩
  | .jump s k none, h, hq => hpqr _ h hq
  | .jump s k (some x), h, hq => by
    have hself := hpqr (.jump s k (some x)) h
    simp only [Node.all, Bool.and_eq_true] at h hq ⊢
    exact ⟨hself hq.1, x.all_imp hpqr h.2 hq.2⟩

theorem Block.all_imp {p q r : Node → Bool} (hpqr : ∀ n : Node, n.all p → q n → r n) :
    (b : Block) → b.all p → b.all q → b.all r
  | ⟨_, ss⟩, h, hq => allNodes_imp hpqr ss h hq

theorem allNodes_imp {p q r : Node → Bool} (hpqr : ∀ n : Node, n.all p → q n → r n) :
    (ns : List Node) → allNodes p ns → allNodes q ns → allNodes r ns
  | [], _, _ => rfl
  | n :: ns, h, hq => by
    simp only [allNodes, Bool.and_eq_true] at h hq ⊢
    exact ⟨n.all_imp hpqr h.1 hq.1, allNodes_imp hpqr ns h.2 hq.2⟩

theorem allArguments_imp {p q r : Node → Bool} (hpqr : ∀ n : Node, n.all p → q n → r n) :
    (as : List Argument) → allArguments p as → allArguments q as → allArguments r as
  | [], _, _ => rfl
  | ⟨_, _, v⟩ :: as, h, hq => by
    simp only [allArguments, Bool.and_eq_true] at h hq ⊢
    exact ⟨v.all_imp hpqr h.1 hq.1, allArguments_imp hpqr as h.2 hq.2⟩

theorem allParameters_imp {p q r : Node → Bool} (hpqr : ∀ n : Node, n.all p → q n → r n) :
    (ps : List Parameter) → allParameters p ps → allParameters q ps → allParameters r ps
  | [], _, _ => rfl
  | ⟨_, _, none⟩ :: ps, h, hq => allParameters_imp hpqr ps h hq
  | ⟨_, _, some d⟩ :: ps, h, hq => by
    simp only [allParameters, Bool.and_eq_true] at h hq ⊢
    exact ⟨d.all_imp hpqr h.1 hq.1, allParameters_imp hpqr ps h.2 hq.2⟩

end

end Deadwood
