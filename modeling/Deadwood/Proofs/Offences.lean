import Deadwood.Proofs.NormalForm
import Deadwood.Proofs.Validation

/-! What the check of a program finds. It walks from the statements of the program to all that is
held by them, jumps and the conditions of `if` and `while` apart. A block is looked at as a
sequence only where the field of a node holds it; of a block in a list only what its statements
hold is looked at. -/
namespace Deadwood

/-- A sequence that holds a block, an `if` on a literal, a `while` on `FALSE`, or anything behind a
jump. -/
def Offends (ss : List Node) : Prop :=
  ∃ before n behind, ss = before ++ n :: behind ∧ (n.isBlock ∨ n.isDecided ∨ n.isJump ∧ behind ≠ [])

/-- What the fields of a node hold, those of its arguments and parameters included. -/
def Node.fields : Node → List Node
  | .unary _ _ x => [x]
  | .binary _ _ l r => [l, r]
  | .call _ f args => f :: args.map (·.value)
  | .index _ t _ _ => [t]
  | .member _ t _ => [t]
  | .assign _ _ t v => [t, v]
  | .cond _ _ t e? => (t :: e?.toList).map .block
  | .whileLoop _ _ b | .repeatLoop _ b => [.block b]
  | .forLoop _ _ x b => [x, .block b]
  | .function _ ps b => ps.filterMap (·.default?) ++ [.block b]
  | _ => []

/-- What a list in a node holds. -/
def Node.listed : Node → List Node
  | .index _ _ xs _ => xs
  | .block b => b.statements
  | _ => []

/-- What a program holds: its statements, and what these hold in turn. Each node comes with whether
it stands in a field, and not in a list. Jumps and the conditions of `if` and `while` are not
entered. -/
inductive Program.Holds (p : Program) : (inField : Bool) → Node → Prop where
  | statement (hn : n ∈ p.body) : p.Holds false n
  | field (hn : p.Holds f n) (hx : x ∈ n.fields) : p.Holds true x
  | listed (hn : p.Holds f n) (hx : x ∈ n.listed) : p.Holds false x

/-- The statement sequences of a program: its own, and those of the blocks that it holds. -/
inductive Program.Sequence (p : Program) : (inField : Bool) → List Node → Prop where
  | body : p.Sequence true p.body
  | block (hb : p.Holds f (.block b)) : p.Sequence f b.statements

theorem offends_cons {n : Node} {ns : List Node} :
    Offends (n :: ns) ↔ (n.isBlock ∨ n.isDecided ∨ n.isJump ∧ ns ≠ []) ∨ Offends ns := by
  constructor
  · rintro ⟨_ | ⟨_, before⟩, m, behind, heq, hm⟩
    · cases heq
      exact .inl hm
    · cases heq
      exact .inr ⟨before, m, behind, rfl, hm⟩
  · rintro (hn | ⟨before, m, behind, rfl, hm⟩)
    · exact ⟨[], n, ns, rfl, hn⟩
    · exact ⟨n :: before, m, behind, rfl, hm⟩

namespace Validate

/-! The check, one level of the tree at a time. The path does not matter to whether something is
found, so the levels below start from an empty one. -/

theorem statement?_eq_none_iff {path : List String} {n : Node} {rest : List Node} :
    statement? path n rest = none ↔ ¬(n.isBlock ∨ n.isDecided ∨ n.isJump ∧ rest ≠ []) := by
  cases n with
  | cond s c t e? => cases h : c.literal? <;> simp [statement?, Node.isBlock, Node.isDecided, Node.isJump, h]
  | whileLoop s c b => by_cases h : c.literal? = some false <;>
      simp [statement?, Node.isBlock, Node.isDecided, Node.isJump, h]
  | jump s k x? => cases rest <;> simp [statement?, Node.isBlock, Node.isDecided, Node.isJump]
  | _ => simp [statement?, Node.isBlock, Node.isDecided, Node.isJump]

theorem node_eq_none_iff {path : List String} {field : Bool} {n : Node} :
    node path field n = none ↔ node [] field n = none := by
  rw [← Option.isNone_iff_eq_none, ← Option.isNone_iff_eq_none, isNone_node path []]

theorem sequence_eq_none_iff {path : List String} {i : Nat} {ss : List Node} :
    sequence path i ss = none ↔ ¬Offends ss ∧ ∀ n ∈ ss, node [] false n = none := by
  induction ss generalizing i with
  | nil => simp [sequence, Offends]
  | cons n ns ih =>
    rw [sequence, Option.or_eq_none_iff, Option.or_eq_none_iff, ih, statement?_eq_none_iff, node_eq_none_iff,
      offends_cons, List.forall_mem_cons]
    constructor
    · rintro ⟨⟨hn, hbelow⟩, hns, hall⟩
      exact ⟨not_or.2 ⟨hn, hns⟩, hbelow, hall⟩
    · rintro ⟨hoffends, hbelow, hall⟩
      obtain ⟨hn, hns⟩ := not_or.1 hoffends
      exact ⟨⟨hn, hbelow⟩, hns, hall⟩

theorem items_eq_none_iff {path : List String} {i : Nat} {xs : List Node} :
    items path i xs = none ↔ ∀ x ∈ xs, node [] false x = none := by
  induction xs generalizing i with
  | nil => simp [items]
  | cons x xs ih => rw [items, Option.or_eq_none_iff, ih, node_eq_none_iff, List.forall_mem_cons]

theorem arguments_eq_none_iff {path : List String} {i : Nat} {as : List Argument} :
    arguments path i as = none ↔ ∀ a ∈ as, node [] true a.value = none := by
  induction as generalizing i with
  | nil => simp [arguments]
  | cons a as ih =>
    obtain ⟨s, name, v⟩ := a
    rw [arguments, Option.or_eq_none_iff, ih, node_eq_none_iff, List.forall_mem_cons]

theorem parameters_eq_none_iff {path : List String} {i : Nat} {ps : List Parameter} :
    parameters path i ps = none ↔ ∀ d ∈ ps.filterMap (·.default?), node [] true d = none := by
  induction ps generalizing i with
  | nil => simp [parameters]
  | cons p ps ih =>
    obtain ⟨s, name, _ | d⟩ := p
    · exact ih
    · have hdefaults : (⟨s, name, some d⟩ :: ps).filterMap (·.default?) = d :: ps.filterMap (·.default?) := rfl
      rw [parameters, Option.or_eq_none_iff, ih, node_eq_none_iff, hdefaults, List.forall_mem_cons]

/-- A block in a field is checked as a sequence. -/
theorem block_eq_none_iff {path : List String} {b : Block} :
    block path b = none ↔ node [] true (.block b) = none := by
  obtain ⟨s, ss⟩ := b
  rw [block, node, if_pos rfl, sequence_eq_none_iff, sequence_eq_none_iff]

/-- What is found at a node is found in what it holds, or it is a block in a field that offends. -/
theorem node_eq_none {field : Bool} {n : Node} :
    node [] field n = none ↔ (field = true → ∀ b, n = .block b → ¬Offends b.statements) ∧
      (∀ x ∈ n.fields, node [] true x = none) ∧ ∀ x ∈ n.listed, node [] false x = none := by
  cases n with
  | block b =>
    obtain ⟨s, ss⟩ := b
    cases field with
    | true =>
      rw [node, if_pos rfl, sequence_eq_none_iff]
      simp [Node.fields, Node.listed]
    | false =>
      rw [node, if_neg Bool.false_ne_true, items_eq_none_iff]
      simp [Node.fields, Node.listed]
  | unary s op x | member s x name =>
    rw [node, node_eq_none_iff]
    simp [Node.fields, Node.listed]
  | binary s op l r | assign s op l r =>
    rw [node, Option.or_eq_none_iff, node_eq_none_iff (n := l), node_eq_none_iff (n := r)]
    simp [Node.fields, Node.listed]
  | call s f args =>
    rw [node, Option.or_eq_none_iff, node_eq_none_iff, arguments_eq_none_iff]
    simp [Node.fields, Node.listed]
  | index s t xs d =>
    rw [node, Option.or_eq_none_iff, node_eq_none_iff, items_eq_none_iff]
    simp [Node.fields, Node.listed]
  | cond s c t e? =>
    cases e? with
    | none =>
      rw [node, block_eq_none_iff]
      simp [Node.fields, Node.listed]
    | some e =>
      rw [node, Option.or_eq_none_iff, block_eq_none_iff, block_eq_none_iff]
      simp [Node.fields, Node.listed]
  | whileLoop s c b | repeatLoop s b =>
    rw [node, block_eq_none_iff]
    simp [Node.fields, Node.listed]
  | forLoop s v x b =>
    rw [node, Option.or_eq_none_iff, node_eq_none_iff, block_eq_none_iff]
    simp [Node.fields, Node.listed]
  | function s ps b =>
    rw [node, Option.or_eq_none_iff, parameters_eq_none_iff, block_eq_none_iff]
    simp [Node.fields, Node.listed, or_imp, forall_and]
  | _ => simp [node, Node.fields, Node.listed]

end Validate

/-! What a node holds is smaller than the node. -/

theorem Parameter.size_default_lt {d : Node} {ps : List Parameter} (h : d ∈ ps.filterMap (·.default?)) :
    d.size < sizeParameters ps := by
  induction ps with
  | nil => cases h
  | cons p ps ih =>
    obtain ⟨s, name, _ | e⟩ := p
    · have hd := ih h
      rw [sizeParameters]
      omega
    · rw [sizeParameters, Parameter.size]
      obtain rfl | h := List.mem_cons.1 h
      · omega
      · have hd := ih h
        omega

theorem Node.size_field_lt {n x : Node} (hx : x ∈ n.fields) : x.size < n.size := by
  cases n with
  | call s f args | unary s op y | member s y name | binary s op l r | assign s op l r =>
    exact Node.size_operand_lt hx
  | index s t xs d =>
    obtain rfl := List.mem_singleton.1 hx
    exact Node.size_operand_lt (n := .index s x xs d) List.mem_cons_self
  | cond s c t e? =>
    cases e? with
    | none =>
      obtain rfl := List.mem_singleton.1 hx
      rw [Node.size, Node.size]
      omega
    | some e =>
      rw [Node.size]
      obtain rfl | hx := List.mem_cons.1 hx
      · rw [Node.size]
        omega
      · obtain rfl := List.mem_singleton.1 hx
        rw [Node.size]
        omega
  | whileLoop s c b | repeatLoop s b =>
    obtain rfl := List.mem_singleton.1 hx
    rw [Node.size, Node.size]
    omega
  | forLoop s v y b =>
    rw [Node.size]
    obtain rfl | hx := List.mem_cons.1 hx
    · omega
    · obtain rfl := List.mem_singleton.1 hx
      rw [Node.size]
      omega
  | function s ps b =>
    rw [Node.size]
    obtain hx | hx := List.mem_append.1 hx
    · have hd := Parameter.size_default_lt hx
      omega
    · obtain rfl := List.mem_singleton.1 hx
      rw [Node.size]
      omega
  | _ => cases hx

theorem Node.size_listed_lt {n x : Node} (hx : x ∈ n.listed) : x.size < n.size := by
  cases n with
  | index s t xs d => exact Node.size_operand_lt (n := .index s t xs d) (List.mem_cons_of_mem t hx)
  | block b =>
    have hsize : x.size ≤ sizeNodes b.statements := Node.size_le_sizeNodes hx
    rw [Node.size, b.size_eq]
    omega
  | _ => cases hx

namespace Program

/-- Where the check of a program finds nothing, it finds nothing at what the program holds. -/
theorem Holds.node_eq_none {p : Program} (hp : p.violation? = none) (h : p.Holds f n) :
    Validate.node [] f n = none := by
  induction h with
  | statement hn => exact (Validate.sequence_eq_none_iff.1 hp).2 _ hn
  | field _ hx ih => exact (Validate.node_eq_none.1 ih).2.1 _ hx
  | listed _ hx ih => exact (Validate.node_eq_none.1 ih).2.2 _ hx

/-- Where no sequence of the program and of its fields offends, nothing is found at what it holds. -/
theorem node_eq_none_of_holds (p : Program) (hp : ∀ ss, p.Sequence true ss → ¬Offends ss) (n : Node)
    {f : Bool} (hn : p.Holds f n) : Validate.node [] f n = none := by
  refine Validate.node_eq_none.2 ⟨?_, fun x hx => ?_, fun x hx => ?_⟩
  · rintro rfl b rfl
    exact hp _ (.block hn)
  · exact p.node_eq_none_of_holds hp x (.field hn hx)
  · exact p.node_eq_none_of_holds hp x (.listed hn hx)
termination_by n.size
decreasing_by
  · exact Node.size_field_lt hx
  · exact Node.size_listed_lt hx

end Program

/-- The check finds something exactly if the program's own sequence offends, or that of a block that
stands in a field. What a block in a list holds is walked as well, but its own sequence is not
looked at. -/
theorem violation?_ne_none_iff (p : Program) :
    p.violation? ≠ none ↔ ∃ ss, p.Sequence true ss ∧ Offends ss := by
  constructor
  · intro hfound
    refine Classical.byContradiction fun hnone => hfound (Validate.sequence_eq_none_iff.2 ⟨?_, fun n hn => ?_⟩)
    · exact fun hoffends => hnone ⟨_, .body, hoffends⟩
    · exact p.node_eq_none_of_holds (fun ss hss hoffends => hnone ⟨ss, hss, hoffends⟩) n (.statement hn)
  · rintro ⟨ss, hss, hoffends⟩ hp
    cases hss with
    | body => exact (Validate.sequence_eq_none_iff.1 hp).1 hoffends
    | block hb => exact (Validate.node_eq_none.1 (hb.node_eq_none hp)).1 rfl _ rfl hoffends

/-- In `x[{ { y } }]` the outer block stands in a list of indices and holds a block, which the check
does not find. -/
theorem violation?_listed_block :
    let s : Span := ⟨1, 1, 1, 1, none⟩
    let name (n : String) : Node := .identifier ⟨s, n⟩
    let p : Program := ⟨s, "<stdin>", [.index s (name "x") [.block ⟨s, [.block ⟨s, [name "y"]⟩]⟩] false]⟩
    p.violation? = none ∧ ∃ f ss, p.Sequence f ss ∧ Offends ss := by
  intro s name p
  have hblock : p.Holds false (.block ⟨s, [.block ⟨s, [name "y"]⟩]⟩) :=
    .listed (.statement List.mem_cons_self) List.mem_cons_self
  exact ⟨rfl, false, _, .block hblock, [], _, [], rfl, .inl rfl⟩

end Deadwood
