import Deadwood.Pass.Validate
import Mathlib.Data.List.Nodup

/-! Places of a program and the paths to them. A path names one field after the other, and an index
where a list is entered. The parts of a place come in the order of its fields, which orders the paths:
a place stands before all that is below it, and the parts stand one behind the other. -/
namespace Deadwood

/-- What a path can lead to. A block is a sequence where a field holds it, and an index then selects
an element. In a list it is a node like any other. -/
inductive Place where
  | program (p : Program)
  | sequence (ss : List Node)
  | element (n : Node) (behind : List Node)
  | node (n : Node)
  | items (xs : List Node)
  | arguments (as : List Argument)
  | argument (a : Argument)
  | parameters (ps : List Parameter)
  | parameter (p : Parameter)

namespace Place

/-- An index as paths write it. -/
def index (i : Nat) : String := "[" ++ toString i ++ "]"

/-- The members of a list under their indices, from `i` on. -/
def numbered (place : α → List α → Place) (i : Nat) : List α → List (String × Place)
  | [] => []
  | x :: xs => (index i, place x xs) :: numbered place (i + 1) xs

/-- What a field holds. -/
def ofField : Node → Place
  | .block b => .sequence b.statements
  | n => .node n

/-- The fields of a node that hold nodes, by name. -/
def fields : Node → List (String × Place)
  | .number .. | .string .. | .boolean .. | .null .. | .identifier .. => []
  | .unary _ _ x => [("operand", ofField x)]
  | .binary _ _ l r => [("left", ofField l), ("right", ofField r)]
  | .call _ f args => [("function", ofField f), ("args", .arguments args)]
  | .index _ t xs _ => [("target", ofField t), ("index", .items xs)]
  | .member _ t _ => [("target", ofField t)]
  | .block b => [("statements", .items b.statements)]
  | .assign _ _ t v => [("target", ofField t), ("value", ofField v)]
  | .cond _ c t none => [("condition", ofField c), ("then_block", .sequence t.statements)]
  | .cond _ c t (some e) =>
    [("condition", ofField c), ("then_block", .sequence t.statements), ("else_block", .sequence e.statements)]
  | .whileLoop _ c b => [("condition", ofField c), ("body", .sequence b.statements)]
  | .repeatLoop _ b => [("body", .sequence b.statements)]
  | .forLoop _ v x b =>
    [("variable", .node (.identifier v)), ("iterable", ofField x), ("body", .sequence b.statements)]
  | .function _ ps b => [("params", .parameters ps), ("body", .sequence b.statements)]
  | .jump _ _ none => []
  | .jump _ _ (some x) => [("payload", ofField x)]

/-- The parts of a place, by the name that a path gives them. -/
def parts : Place → List (String × Place)
  | .program p => [("body", .sequence p.body)]
  | .sequence ss => numbered .element 0 ss
  | .element n _ | .node n => fields n
  | .items xs => numbered (fun x _ => .node x) 0 xs
  | .arguments as => numbered (fun a _ => .argument a) 0 as
  | .argument a => [("value", ofField a.value)]
  | .parameters ps => numbered (fun p _ => .parameter p) 0 ps
  | .parameter ⟨_, _, none⟩ => []
  | .parameter ⟨_, _, some d⟩ => [("default", ofField d)]

def names (pl : Place) : List String := pl.parts.map (·.1)

/-- Where a path leads. -/
def follow (pl : Place) : List String → Option Place
  | [] => some pl
  | name :: path => (pl.parts.lookup name).bind fun q => q.follow path

/-- Whether the first path leads to a place before that of the second: above it, or in an earlier
part where the two take leave of each other. -/
def precedes (pl : Place) : List String → List String → Bool
  | _, [] => false
  | [], _ :: _ => true
  | x :: a, y :: b =>
    if x = y then (pl.parts.lookup x).any fun q => q.precedes a b
    else pl.names.idxOf x < pl.names.idxOf y

/-! The parts of a place have different names, so a path is followed in one way only. -/

theorem index_injective : Function.Injective index := by
  intro i j h
  have hdigits : Nat.toDigits 10 i = Nat.toDigits 10 j := by
    have htext := congrArg String.toList h
    simpa [index, Nat.toString_eq_ofList_toDigits] using htext
  rw [← Nat.ofDigitChars_ten_toDigits (n := i), hdigits, Nat.ofDigitChars_ten_toDigits]

theorem map_fst_numbered (place : α → List α → Place) (i : Nat) (xs : List α) :
    (numbered place i xs).map (·.1) = (List.range' i xs.length).map index := by
  induction xs generalizing i with
  | nil => rfl
  | cons x xs ih => rw [numbered, List.map_cons, ih, List.length_cons, List.range'_succ, List.map_cons]

theorem nodup_names (pl : Place) : pl.names.Nodup := by
  have hnumbered : ∀ {α : Type} (place : α → List α → Place) (xs : List α),
      ((numbered place 0 xs).map (·.1)).Nodup := by
    intro α place xs
    rw [map_fst_numbered]
    exact List.Nodup.map index_injective List.nodup_range'
  have hfields : ∀ n : Node, ((fields n).map (·.1)).Nodup := by
    intro n
    unfold fields
    split <;> simp
  unfold names parts
  split
  · simp
  · exact hnumbered _ _
  · exact hfields _
  · exact hfields _
  · exact hnumbered _ _
  · exact hnumbered _ _
  · simp
  · exact hnumbered _ _
  · simp
  · simp

theorem lookup_parts_iff {pl q : Place} {name : String} :
    pl.parts.lookup name = some q ↔ (name, q) ∈ pl.parts := by
  rw [List.lookup_eq_some_iff]
  constructor
  · rintro ⟨before, behind, hparts, -⟩
    rw [hparts]
    exact List.mem_append_right _ List.mem_cons_self
  · intro h
    obtain ⟨before, behind, hparts⟩ := List.append_of_mem h
    have hnodup := pl.nodup_names
    rw [names, hparts, List.map_append, List.map_cons, List.nodup_middle, List.nodup_cons] at hnodup
    refine ⟨before, behind, hparts, ?_⟩
    intro part hpart
    rw [bne_iff_ne]
    intro hname
    apply hnodup.1
    rw [hname]
    exact List.mem_append_left _ (List.mem_map.2 ⟨part, hpart, rfl⟩)

/-- A part that comes before another has the smaller position. -/
theorem idxOf_names_lt {pl : Place} {x y : String} (h : [x, y].Sublist pl.names) :
    pl.names.idxOf x < pl.names.idxOf y := by
  obtain ⟨front, back, hnames, hx, hback⟩ := List.cons_sublist_iff.1 h
  have hy : y ∉ front := by
    have hnodup := pl.nodup_names
    rw [hnames, List.nodup_append] at hnodup
    intro hmem
    exact hnodup.2.2 y hmem y (List.singleton_sublist.1 hback) rfl
  rw [hnames, List.idxOf_append_of_mem hx, List.idxOf_append_of_notMem hy]
  have hlt := List.idxOf_lt_length_of_mem hx
  omega

/-! Elements are the parts of sequences. -/

theorem mem_numbered {place : α → List α → Place} {i : Nat} {xs : List α} {part : String × Place}
    (h : part ∈ numbered place i xs) :
    ∃ before x behind, xs = before ++ x :: behind ∧ part = (index (i + before.length), place x behind) := by
  induction xs generalizing i with
  | nil => cases h
  | cons x xs ih =>
    obtain rfl | h := List.mem_cons.1 h
    · exact ⟨[], x, xs, rfl, rfl⟩
    · obtain ⟨before, y, behind, rfl, rfl⟩ := ih h
      refine ⟨x :: before, y, behind, rfl, ?_⟩
      rw [List.length_cons, Nat.add_right_comm, Nat.add_assoc]

theorem ofField_ne_element (x n : Node) (behind : List Node) : ofField x ≠ element n behind := by
  cases x <;> simp [ofField]

theorem sequence_of_element_mem {pl : Place} {name : String} {n : Node} {behind : List Node}
    (h : (name, element n behind) ∈ pl.parts) :
    ∃ before, name = index before.length ∧ pl = sequence (before ++ n :: behind) := by
  have hfields : ∀ m : Node, (name, element n behind) ∉ fields m := by
    intro m
    unfold fields
    split <;> simp [(ofField_ne_element _ _ _).symm]
  cases pl with
  | sequence ss =>
    obtain ⟨before, m, rest, rfl, heq⟩ := mem_numbered h
    cases heq
    exact ⟨before, by rw [Nat.zero_add], rfl⟩
  | element m rest => exact absurd h (hfields m)
  | node m => exact absurd h (hfields m)
  | items xs | arguments as | parameters ps =>
    obtain ⟨_, _, _, _, heq⟩ := mem_numbered h
    cases heq
  | program p => simp [parts] at h
  | argument a => simp [parts, (ofField_ne_element _ _ _).symm] at h
  | parameter p => obtain ⟨s, label, _ | d⟩ := p <;> simp [parts, (ofField_ne_element _ _ _).symm] at h

theorem sequence_of_follow {pl : Place} {path : List String} {name : String} {n : Node} {behind : List Node}
    (h : pl.follow (path ++ [name]) = some (element n behind)) :
    ∃ before, name = index before.length ∧ pl.follow path = some (sequence (before ++ n :: behind)) := by
  induction path generalizing pl with
  | nil =>
    obtain ⟨q, hlookup, hq⟩ := Option.bind_eq_some_iff.1 h
    cases hq
    obtain ⟨before, hname, rfl⟩ := sequence_of_element_mem (lookup_parts_iff.1 hlookup)
    exact ⟨before, hname, rfl⟩
  | cons x path ih =>
    obtain ⟨q, hlookup, hq⟩ := Option.bind_eq_some_iff.1 h
    obtain ⟨before, hname, hfollow⟩ := ih hq
    exact ⟨before, hname, by rw [follow, hlookup, Option.bind_some, hfollow]⟩

/-! A part is smaller than the place that it is a part of. -/

theorem sizeOf_ofField (n : Node) : sizeOf (ofField n) < 2 + sizeOf n := by
  cases n with
  | block b =>
    cases b
    simp only [ofField, sequence.sizeOf_spec, Node.block.sizeOf_spec, Block.mk.sizeOf_spec]
    omega
  | _ => simp [ofField]

theorem sizeOf_fields (n : Node) : ∀ part ∈ fields n, sizeOf part.2 < 1 + sizeOf n := by
  have hfield := sizeOf_ofField
  have hblock : ∀ b : Block, sizeOf b.statements < sizeOf b := by
    intro b
    cases b
    simp only [Block.mk.sizeOf_spec]
    omega
  cases n with
  | cond s c t e? => cases e? <;> simp [fields] <;> grind
  | jump s k x? => cases x? with
    | none => simp [fields]
    | some x =>
      simp [fields]
      grind
  | _ => simp [fields] <;> grind

theorem sizeOf_numbered [SizeOf α] {place : α → List α → Place}
    (hplace : ∀ x xs, sizeOf (place x xs) ≤ sizeOf (x :: xs)) (i : Nat) (xs : List α) :
    ∀ part ∈ numbered place i xs, sizeOf part.2 < 1 + sizeOf xs := by
  induction xs generalizing i with
  | nil => simp [numbered]
  | cons x xs ih =>
    rw [numbered, List.forall_mem_cons]
    refine ⟨Nat.lt_of_le_of_lt (hplace x xs) (by omega), ?_⟩
    intro part hpart
    have hlt := ih (i + 1) part hpart
    simp only [List.cons.sizeOf_spec]
    omega

theorem sizeOf_parts (pl : Place) : ∀ part ∈ pl.parts, sizeOf part.2 < sizeOf pl := by
  cases pl with
  | program p =>
    obtain ⟨s, file, body⟩ := p
    rw [parts, List.forall_mem_singleton]
    simp only [sequence.sizeOf_spec, program.sizeOf_spec, Program.mk.sizeOf_spec]
    omega
  | sequence ss => exact sizeOf_numbered (by simp) 0 ss
  | element n behind =>
    intro part hpart
    have hlt := sizeOf_fields n part hpart
    simp only [element.sizeOf_spec]
    omega
  | node n => exact sizeOf_fields n
  | items xs => exact sizeOf_numbered (by simp) 0 xs
  | arguments as => exact sizeOf_numbered (by simp) 0 as
  | argument a =>
    have hv := sizeOf_ofField a.value
    cases a
    simp_all [parts]
    omega
  | parameters ps => exact sizeOf_numbered (by simp) 0 ps
  | parameter p =>
    obtain ⟨s, name, _ | d⟩ := p
    · simp [parts]
    · have hd := sizeOf_ofField d
      simp [parts]
      omega

end Place
end Deadwood
