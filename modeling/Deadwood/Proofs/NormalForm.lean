import Deadwood.Proofs.Pruning

/-! The normal form of programs, said of the places that pruning reaches. Pruning makes every
program normal, and has nothing to do and nothing to note exactly if the program was normal
before. -/
namespace Deadwood

/-! What pruning reaches. -/

/-- The operands that pruning enters. -/
def Node.operands : Node → List Node
  | .unary _ _ x => [x]
  | .binary _ _ l r => [l, r]
  | .call _ f args => f :: args.map (·.value)
  | .index _ t xs _ => t :: xs
  | .member _ t _ => [t]
  | .assign _ _ t v => [t, v]
  | .forLoop _ _ x _ => [x]
  | _ => []

/-- The blocks that belong to a node; a block belongs to itself. -/
def Node.bodies : Node → List Block
  | .block b | .whileLoop _ _ b | .repeatLoop _ b | .forLoop _ _ _ b | .function _ _ b => [b]
  | .cond _ _ t e? => t :: e?.toList
  | _ => []

/-- What is reached from the statements of a program without entering the condition of an `if` or
`while`, the payload of a jump or the parameters of a function. -/
inductive Program.Reaches (p : Program) : Node → Prop where
  | statement (hn : n ∈ p.body) : p.Reaches n
  | operand (hn : p.Reaches n) (hx : x ∈ n.operands) : p.Reaches x
  | body (hn : p.Reaches n) (hb : b ∈ n.bodies) (hx : x ∈ b.statements) : p.Reaches x

/-- The statement sequences that are reached: the program's own and those of blocks. -/
inductive Program.HasSequence (p : Program) : List Node → Prop where
  | top : p.HasSequence p.body
  | block (hn : p.Reaches n) (hb : b ∈ n.bodies) : p.HasSequence b.statements

/-- An `if` on a literal or a `while` on `FALSE`. -/
def Node.isDecided : Node → Bool
  | .cond _ c _ _ => c.literal?.isSome
  | .whileLoop _ c _ => c.literal? == some false
  | _ => false

/-- No sequence holds a block or goes on behind a jump, and nothing is decided by a literal. -/
structure Program.Normal (p : Program) : Prop where
  flat : p.HasSequence ss → n ∈ ss → n.isBlock = false
  ended : p.HasSequence (before ++ n :: behind) → n.isJump → behind = []
  undecided : p.Reaches n → n.isDecided = false

/-! The normal form that is computed, one level of the tree at a time. -/

theorem Block.isNormal_eq (b : Block) : b.isNormal = normalNodes b.statements := by
  cases b
  rfl

theorem normalItems_iff {xs : List Node} : normalItems xs ↔ ∀ x ∈ xs, x.isNormal := by
  induction xs with
  | nil => simp [normalItems]
  | cons x xs ih => simp [normalItems, ih]

theorem normalArguments_iff {as : List Argument} : normalArguments as ↔ ∀ a ∈ as, a.value.isNormal := by
  induction as with
  | nil => simp [normalArguments]
  | cons a as ih =>
    obtain ⟨_, _, v⟩ := a
    simp [normalArguments, ih]

theorem normalNodes_iff {ss : List Node} :
    normalNodes ss ↔ (∀ n ∈ ss, n.isBlock = false ∧ n.isNormal) ∧
      ∀ before n behind, ss = before ++ n :: behind → n.isJump → behind = [] := by
  induction ss with
  | nil => simp [normalNodes]
  | cons n ns ih =>
    simp only [normalNodes, Bool.and_eq_true, Bool.or_eq_true, Bool.not_eq_true', List.isEmpty_iff, ih]
    constructor
    · rintro ⟨⟨⟨hblock, hnormal⟩, hjump⟩, hall, hended⟩
      refine ⟨List.forall_mem_cons.2 ⟨⟨hblock, hnormal⟩, hall⟩, fun before m behind heq hm => ?_⟩
      cases before with
      | nil =>
        obtain ⟨rfl, rfl⟩ := List.cons.inj heq
        exact hjump.resolve_left (by simp [hm])
      | cons _ before => exact hended before m behind (List.cons.inj heq).2 hm
    · rintro ⟨hall, hended⟩
      obtain ⟨⟨hblock, hnormal⟩, hall⟩ := List.forall_mem_cons.1 hall
      have hjump : n.isJump = false ∨ ns = [] := by
        cases hn : n.isJump with
        | false => exact .inl rfl
        | true => exact .inr (hended [] n ns rfl hn)
      exact ⟨⟨⟨hblock, hnormal⟩, hjump⟩, hall, fun before m behind heq =>
        hended (n :: before) m behind (by rw [heq, List.cons_append])⟩

theorem Node.isNormal_iff {n : Node} :
    n.isNormal ↔ n.isDecided = false ∧ (∀ x ∈ n.operands, x.isNormal) ∧ ∀ b ∈ n.bodies, b.isNormal := by
  cases n with
  | call s f args => simp [isNormal, isDecided, operands, bodies, normalArguments_iff]
  | index s t xs d => simp [isNormal, isDecided, operands, bodies, normalItems_iff]
  | cond s c t e? => cases e? <;> simp [isNormal, isDecided, operands, bodies, and_assoc]
  | _ => simp [isNormal, isDecided, operands, bodies]

/-! Both normal forms agree. -/

namespace Program

theorem Reaches.isNormal {p : Program} (hp : p.isNormal) (h : p.Reaches n) : n.isNormal := by
  induction h with
  | statement hn => exact ((normalNodes_iff.1 hp).1 _ hn).2
  | operand _ hx ih => exact (Node.isNormal_iff.1 ih).2.1 _ hx
  | body _ hb hx ih =>
    have hnodes := (Node.isNormal_iff.1 ih).2.2 _ hb
    rw [Block.isNormal_eq] at hnodes
    exact ((normalNodes_iff.1 hnodes).1 _ hx).2

theorem HasSequence.normalNodes {p : Program} (hp : p.isNormal) (h : p.HasSequence ss) : normalNodes ss := by
  cases h with
  | top => exact hp
  | block hn hb =>
    rw [← Block.isNormal_eq]
    exact (Node.isNormal_iff.1 (hn.isNormal hp)).2.2 _ hb

end Program

/-! What a node reaches is smaller than the node. -/

theorem Node.size_le_sizeNodes {n : Node} {ns : List Node} (h : n ∈ ns) : n.size ≤ sizeNodes ns := by
  induction ns with
  | nil => cases h
  | cons m ns ih =>
    rw [sizeNodes]
    obtain rfl | h := List.mem_cons.1 h
    · omega
    · have hn := ih h
      omega

theorem Argument.size_value_lt {a : Argument} {as : List Argument} (h : a ∈ as) : a.value.size < sizeArguments as := by
  induction as with
  | nil => cases h
  | cons b as ih =>
    rw [sizeArguments]
    obtain rfl | h := List.mem_cons.1 h
    · have ha : a.size = 1 + a.value.size := by cases a; rfl
      omega
    · have ha := ih h
      omega

theorem Node.size_operand_lt {n x : Node} (hx : x ∈ n.operands) : x.size < n.size := by
  cases n with
  | call s f args =>
    rw [Node.size]
    obtain rfl | hx := List.mem_cons.1 hx
    · omega
    · obtain ⟨a, ha, rfl⟩ := List.mem_map.1 hx
      have hsize := Argument.size_value_lt ha
      omega
  | index s t xs d =>
    rw [Node.size]
    obtain rfl | hx := List.mem_cons.1 hx
    · omega
    · have hsize := Node.size_le_sizeNodes hx
      omega
  | unary s op y | member s y name | forLoop s v y b =>
    obtain rfl := List.mem_singleton.1 hx
    rw [Node.size]
    omega
  | binary s op l r | assign s op l r =>
    rw [Node.size]
    obtain rfl | hx := List.mem_cons.1 hx
    · omega
    · obtain rfl := List.mem_singleton.1 hx
      omega
  | _ => cases hx

theorem Block.size_eq (b : Block) : b.size = 1 + sizeNodes b.statements := by
  cases b
  rfl

theorem Node.size_body_lt {n : Node} {b : Block} (hb : b ∈ n.bodies) : sizeNodes b.statements < n.size := by
  have hsize := b.size_eq
  cases n with
  | block c | whileLoop s x c | repeatLoop s c | forLoop s v x c | function s ps c =>
    obtain rfl := List.mem_singleton.1 hb
    rw [Node.size]
    omega
  | cond s c t e? =>
    obtain rfl | hb := List.mem_cons.1 hb
    · cases e? <;> rw [Node.size] <;> omega
    · cases e? with
      | none => cases hb
      | some e =>
        obtain rfl := List.mem_singleton.1 hb
        rw [Node.size]
        omega
  | _ => cases hb

namespace Program

theorem Normal.normalNodes {p : Program} (h : p.Normal) (hs : p.HasSequence ss) (hall : ∀ n ∈ ss, n.isNormal) :
    normalNodes ss := by
  refine normalNodes_iff.2 ⟨fun n hn => ⟨h.flat hs hn, hall n hn⟩, ?_⟩
  rintro before n behind rfl hjump
  exact h.ended hs hjump

theorem Normal.isNormal_of_reaches {p : Program} (h : p.Normal) (n : Node) (hn : p.Reaches n) : n.isNormal := by
  refine Node.isNormal_iff.2 ⟨h.undecided hn, fun x hx => ?_, fun b hb => ?_⟩
  · exact h.isNormal_of_reaches x (.operand hn hx)
  · rw [Block.isNormal_eq]
    exact h.normalNodes (.block hn hb) fun x hx => h.isNormal_of_reaches x (.body hn hb hx)
termination_by n.size
decreasing_by
  · exact Node.size_operand_lt hx
  · exact Nat.lt_of_le_of_lt (Node.size_le_sizeNodes hx) (Node.size_body_lt hb)

/-- The normal form of all places is the one that is computed. -/
theorem isNormal_iff {p : Program} : p.isNormal ↔ p.Normal where
  mp hp :=
    { flat := fun hs hn => ((normalNodes_iff.1 (hs.normalNodes hp)).1 _ hn).1
      ended := fun hs => (normalNodes_iff.1 (hs.normalNodes hp)).2 _ _ _ rfl
      undecided := fun hn => (Node.isNormal_iff.1 (hn.isNormal hp)).1 }
  mpr hp := hp.normalNodes .top fun n hn => hp.isNormal_of_reaches n (.statement hn)

end Program

/-! Notes. -/

theorem collapseNote_of_literal? {c : Node} (h : c.literal?.isNone) (s : Span) : collapseNote s c = [] := by
  simp [collapseNote, Option.isNone_iff_eq_none.1 h]

mutual

/-- There is nothing to note on a normal node. -/
theorem Node.pruneNotes_of_isNormal : (n : Node) → n.isNormal → n.pruneNotes = []
  | .number .., _ | .string .., _ | .boolean .., _ | .null .., _ | .identifier .., _ | .jump .., _ => rfl
  | .unary s op x, h => by
    simp only [Node.isNormal] at h
    rw [Node.pruneNotes, x.pruneNotes_of_isNormal h]
  | .binary s op l r, h => by
    simp only [Node.isNormal, Bool.and_eq_true] at h
    rw [Node.pruneNotes, l.pruneNotes_of_isNormal h.1, r.pruneNotes_of_isNormal h.2, List.nil_append]
  | .call s f args, h => by
    simp only [Node.isNormal, Bool.and_eq_true] at h
    rw [Node.pruneNotes, f.pruneNotes_of_isNormal h.1, argumentNotes_of_normal args h.2, List.nil_append]
  | .index s t xs d, h => by
    simp only [Node.isNormal, Bool.and_eq_true] at h
    rw [Node.pruneNotes, t.pruneNotes_of_isNormal h.1, itemNotes_of_normal xs h.2, List.nil_append]
  | .member s t name, h => by
    simp only [Node.isNormal] at h
    rw [Node.pruneNotes, t.pruneNotes_of_isNormal h]
  | .block b, h => by
    simp only [Node.isNormal] at h
    rw [Node.pruneNotes, b.pruneNotes_of_isNormal h]
  | .assign s op t v, h => by
    simp only [Node.isNormal, Bool.and_eq_true] at h
    rw [Node.pruneNotes, t.pruneNotes_of_isNormal h.1, v.pruneNotes_of_isNormal h.2, List.nil_append]
  | .cond s c t none, h => by
    simp only [Node.isNormal, Bool.and_eq_true] at h
    rw [Node.pruneNotes, t.pruneNotes_of_isNormal h.2, collapseNote_of_literal? h.1, List.nil_append]
  | .cond s c t (some e), h => by
    simp only [Node.isNormal, Bool.and_eq_true] at h
    rw [Node.pruneNotes, t.pruneNotes_of_isNormal h.1.2, e.pruneNotes_of_isNormal h.2,
      collapseNote_of_literal? h.1.1, List.nil_append, List.nil_append]
  | .whileLoop s c b, h => by
    simp only [Node.isNormal, Bool.and_eq_true, bne_iff_ne] at h
    rw [Node.pruneNotes, b.pruneNotes_of_isNormal h.2, if_neg h.1, List.nil_append]
  | .repeatLoop s b, h => by
    simp only [Node.isNormal] at h
    rw [Node.pruneNotes, b.pruneNotes_of_isNormal h]
  | .forLoop s v x b, h => by
    simp only [Node.isNormal, Bool.and_eq_true] at h
    rw [Node.pruneNotes, x.pruneNotes_of_isNormal h.1, b.pruneNotes_of_isNormal h.2, List.nil_append]
  | .function s ps b, h => by
    simp only [Node.isNormal] at h
    rw [Node.pruneNotes, b.pruneNotes_of_isNormal h]

theorem Block.pruneNotes_of_isNormal : (b : Block) → b.isNormal → b.pruneNotes = []
  | ⟨_, ss⟩, h => by
    simp only [Block.isNormal] at h
    rw [Block.pruneNotes, sequenceNotes_of_normal ss h]

theorem sequenceNotes_of_normal : (ss : List Node) → normalNodes ss → sequenceNotes ss = []
  | [], _ => rfl
  | n :: ns, h => by
    simp only [normalNodes, Bool.and_eq_true, Bool.or_eq_true, List.isEmpty_iff] at h
    obtain ⟨⟨⟨hblock, hnormal⟩, hjump⟩, hns⟩ := h
    rw [sequenceNotes, n.pruneNotes_of_isNormal hnormal, n.prune_of_isNormal hnormal, Node.kept_statements hblock,
      List.nil_append]
    -- Behind a jump nothing is dropped, because nothing stands there.
    split
    · next jump hfirst =>
      obtain hjump | rfl := hjump
      · cases n <;> simp_all [firstJump?, Node.isJump]
      · rfl
    · exact sequenceNotes_of_normal ns hns

theorem itemNotes_of_normal : (xs : List Node) → normalItems xs → itemNotes xs = []
  | [], _ => rfl
  | x :: xs, h => by
    simp only [normalItems, Bool.and_eq_true] at h
    rw [itemNotes, x.pruneNotes_of_isNormal h.1, itemNotes_of_normal xs h.2, List.nil_append]

theorem argumentNotes_of_normal : (as : List Argument) → normalArguments as → argumentNotes as = []
  | [], _ => rfl
  | ⟨_, _, v⟩ :: as, h => by
    simp only [normalArguments, Bool.and_eq_true] at h
    rw [argumentNotes, v.pruneNotes_of_isNormal h.1, argumentNotes_of_normal as h.2, List.nil_append]

end

theorem Program.pruneNotes_of_isNormal {p : Program} (h : p.isNormal) : p.pruneNotes = [] :=
  sequenceNotes_of_normal p.body h

/-- Pruning makes every program normal. It gives a program back as it was, reports no change and
drops and collapses nothing, exactly if the program was normal; so pruning twice is pruning once. -/
theorem prune_normal_form (p : Program) :
    p.prune.Normal ∧ p.prune.prune = p.prune ∧
      (p.Normal ↔ p.prune = p ∧ p.pruneShrinks = false ∧ p.droppedCount = 0 ∧ p.collapsedCount = 0) := by
  refine ⟨Program.isNormal_iff.1 p.isNormal_prune, p.prune_prune, ?_⟩
  constructor
  · intro h
    have hnormal := Program.isNormal_iff.2 h
    have hprune := Program.prune_of_isNormal hnormal
    have hnotes := Program.pruneNotes_of_isNormal hnormal
    refine ⟨hprune, p.pruneShrinks_eq_false_iff.2 hprune, ?_, ?_⟩
    · rw [Program.droppedCount, hnotes]
      rfl
    · rw [Program.collapsedCount, hnotes]
      rfl
  · rintro ⟨hprune, -⟩
    rw [← hprune]
    exact Program.isNormal_iff.1 p.isNormal_prune

end Deadwood
