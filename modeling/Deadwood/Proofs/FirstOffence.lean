import Deadwood.Proofs.Places

/-! Where the check of a program points. It goes through the places of the program in order, and stops
at the first element of a sequence that breaks a rule. -/
namespace Deadwood

/-- An element of a sequence, with what stands behind it there, breaks a rule; the last node is the
one that is blamed. -/
inductive Rule.Broken : Rule → Node → List Node → Node → Prop where
  | nestedBlock : Broken .nestedBlock (.block b) behind (.block b)
  | literalIf (hc : c.literal? = some v) : Broken .literalIf (.cond s c t e?) behind (.cond s c t e?)
  | deadLoop (hc : c.literal? = some false) : Broken .deadLoop (.whileLoop s c b) behind (.whileLoop s c b)
  | unreachable : Broken (.unreachable k) (.jump s k x?) (next :: behind) next

theorem Validate.statement?_eq_some_iff {path : List String} {n : Node} {behind : List Node} {v : Violation} :
    statement? path n behind = some v ↔ ∃ rule blamed, rule.Broken n behind blamed ∧ v = .of rule blamed path := by
  constructor
  · intro h
    unfold statement? at h
    split at h
    · cases h
      exact ⟨_, _, .nestedBlock, rfl⟩
    · next s c t e? =>
      split at h
      · next hc =>
        cases h
        obtain ⟨v, hv⟩ := Option.isSome_iff_exists.1 hc
        exact ⟨_, _, .literalIf hv, rfl⟩
      · cases h
    · split at h
      · next hc =>
        cases h
        exact ⟨_, _, .deadLoop hc, rfl⟩
      · cases h
    · cases h
      exact ⟨_, _, .unreachable, rfl⟩
    · cases h
  · rintro ⟨rule, blamed, hbroken, rfl⟩
    cases hbroken with
    | nestedBlock => rfl
    | literalIf hc => simp [statement?, hc]
    | deadLoop hc => simp [statement?, hc]
    | unreachable => rfl

namespace Place

/-- The parts that the check goes into: not the conditions of `if` and `while`, and not what a jump
carries. -/
def walked (pl : Place) : List (String × Place) :=
  pl.parts.filter fun part => part.1 != "condition" && part.1 != "payload"

/-- The check comes from a place to another one. -/
inductive Walks : Place → List String → Place → Prop where
  | here : Walks pl [] pl
  | into (hpart : (name, q) ∈ pl.walked) (h : Walks q path r) : Walks pl (name :: path) r

theorem mem_parts {pl : Place} {part : String × Place} (h : part ∈ pl.walked) : part ∈ pl.parts :=
  List.mem_of_mem_filter h

theorem follow_of_walks {pl q : Place} {path : List String} (h : Walks pl path q) : pl.follow path = some q := by
  induction h with
  | here => rfl
  | into hpart _ ih => rw [follow, lookup_parts_iff.2 (mem_parts hpart), Option.bind_some, ih]

/-- What the check finds from a place on. -/
def find (path : List String) : Place → Option Violation
  | .program p => Validate.sequence (path ++ ["body"]) 0 p.body
  | .sequence ss => Validate.sequence path 0 ss
  | .element n behind => (Validate.statement? path n behind).or (Validate.node path false n)
  | .node n => Validate.node path false n
  | .items xs => Validate.items path 0 xs
  | .arguments as => Validate.arguments path 0 as
  | .argument a => Validate.node (path ++ ["value"]) true a.value
  | .parameters ps => Validate.parameters path 0 ps
  | .parameter ⟨_, _, none⟩ => none
  | .parameter ⟨_, _, some d⟩ => Validate.node (path ++ ["default"]) true d

/-- What it finds at the place itself: only elements of sequences are looked at. -/
def findHere (path : List String) : Place → Option Violation
  | .element n behind => Validate.statement? path n behind
  | _ => none

def findIn (path : List String) (parts : List (String × Place)) : Option Violation :=
  parts.findSome? fun part => part.2.find (path ++ [part.1])

@[simp] theorem find_sequence (path : List String) (ss : List Node) :
    (sequence ss).find path = Validate.sequence path 0 ss := rfl

@[simp] theorem find_node (path : List String) (n : Node) : (node n).find path = Validate.node path false n := rfl

@[simp] theorem find_items (path : List String) (xs : List Node) : (items xs).find path = Validate.items path 0 xs := rfl

@[simp] theorem find_arguments (path : List String) (as : List Argument) :
    (arguments as).find path = Validate.arguments path 0 as := rfl

@[simp] theorem find_argument (path : List String) (a : Argument) :
    (argument a).find path = Validate.node (path ++ ["value"]) true a.value := rfl

@[simp] theorem find_parameter_none (path : List String) (s : Span) (name : String) :
    (parameter ⟨s, name, none⟩).find path = none := rfl

@[simp] theorem find_parameter_some (path : List String) (s : Span) (name : String) (d : Node) :
    (parameter ⟨s, name, some d⟩).find path = Validate.node (path ++ ["default"]) true d := rfl

@[simp] theorem find_parameters (path : List String) (ps : List Parameter) :
    (parameters ps).find path = Validate.parameters path 0 ps := rfl

@[simp] theorem findIn_nil (path : List String) : findIn path [] = none := rfl

@[simp] theorem findIn_cons (path : List String) (part : String × Place) (parts : List (String × Place)) :
    findIn path (part :: parts) = (part.2.find (path ++ [part.1])).or (findIn path parts) := by
  unfold findIn
  rw [List.findSome?_cons]
  cases part.2.find (path ++ [part.1]) <;> rfl

@[simp] theorem find_ofField (path : List String) (n : Node) : (ofField n).find path = Validate.node path true n := by
  cases n with
  | block b =>
    cases b
    rfl
  | cond s c t e? => cases e? <;> rfl
  | _ => rfl

theorem walked_numbered (place : α → List α → Place) (i : Nat) (xs : List α) :
    (numbered place i xs).filter (fun part => part.1 != "condition" && part.1 != "payload") =
      numbered place i xs := by
  have hindex : ∀ j, (index j).toList.head? = some '[' := by
    intro j
    simp [index]
  rw [List.filter_eq_self]
  intro part hpart
  have hname : part.1 ∈ (numbered place i xs).map (·.1) := List.mem_map.2 ⟨part, hpart, rfl⟩
  rw [map_fst_numbered] at hname
  obtain ⟨j, -, hj⟩ := List.mem_map.1 hname
  have hhead := hindex j
  rw [hj] at hhead
  rw [Bool.and_eq_true, bne_iff_ne, bne_iff_ne]
  constructor <;>
  · intro h
    simp [h] at hhead

theorem block_eq (path : List String) (b : Block) : Validate.block path b = Validate.sequence path 0 b.statements := by
  cases b
  rfl

theorem sequence_eq (path : List String) (i : Nat) (ss : List Node) :
    Validate.sequence path i ss = findIn path (numbered .element i ss) := by
  induction ss generalizing i with
  | nil => rfl
  | cons n ns ih =>
    rw [Validate.sequence, numbered, findIn_cons, ih]
    rfl

theorem items_eq (path : List String) (i : Nat) (xs : List Node) :
    Validate.items path i xs = findIn path (numbered (fun x _ => .node x) i xs) := by
  induction xs generalizing i with
  | nil => rfl
  | cons x xs ih =>
    rw [Validate.items, numbered, findIn_cons, ih]
    rfl

theorem arguments_eq (path : List String) (i : Nat) (as : List Argument) :
    Validate.arguments path i as = findIn path (numbered (fun a _ => .argument a) i as) := by
  induction as generalizing i with
  | nil => rfl
  | cons a as ih =>
    cases a
    rw [Validate.arguments, numbered, findIn_cons, ih]
    rfl

theorem parameters_eq (path : List String) (i : Nat) (ps : List Parameter) :
    Validate.parameters path i ps = findIn path (numbered (fun p _ => .parameter p) i ps) := by
  induction ps generalizing i with
  | nil => rfl
  | cons p ps ih =>
    obtain ⟨s, name, _ | d⟩ := p
    · rw [Validate.parameters, numbered, findIn_cons, ih]
      rfl
    · rw [Validate.parameters, numbered, findIn_cons, ih]
      rfl

theorem node_eq (path : List String) (n : Node) :
    Validate.node path false n = findIn path (walked (.node n)) := by
  cases n with
  | cond s c t e? => cases e? <;> simp [Validate.node, walked, parts, fields, block_eq]
  | jump s k x? => cases x? <;> simp [Validate.node, walked, parts, fields]
  | block b =>
    cases b
    simp [Validate.node, walked, parts, fields]
  | _ => simp [Validate.node, walked, parts, fields, block_eq]

/-- The check looks at a place and then goes into its parts, one after the other. -/
theorem find_eq (path : List String) (pl : Place) :
    pl.find path = (pl.findHere path).or (findIn path pl.walked) := by
  cases pl with
  | program p => simp [find, findHere, walked, parts]
  | sequence ss => simp [findHere, walked, parts, walked_numbered, sequence_eq]
  | element n behind => simp [find, findHere, node_eq, walked, parts]
  | node n => simp [findHere, node_eq]
  | items xs => simp [findHere, walked, parts, walked_numbered, items_eq]
  | arguments as => simp [findHere, walked, parts, walked_numbered, arguments_eq]
  | argument a => simp [findHere, walked, parts]
  | parameters ps => simp [findHere, walked, parts, walked_numbered, parameters_eq]
  | parameter p => obtain ⟨s, name, _ | d⟩ := p <;> simp [findHere, walked, parts]

/-- Where the check finds nothing, no element that it comes to breaks a rule. -/
theorem statement?_of_walks {pl : Place} {n : Node} {behind : List Node} {q : List String}
    (h : Walks pl q (.element n behind)) : ∀ path, pl.find path = none →
    Validate.statement? (path ++ q) n behind = none := by
  generalize hr : element n behind = r at h
  induction h with
  | here =>
    subst hr
    intro path hfind
    rw [List.append_nil]
    exact (Option.or_eq_none_iff.1 hfind).1
  | @into name q pl rel r hpart _ ih =>
    intro path hfind
    rw [find_eq, Option.or_eq_none_iff] at hfind
    have hparts := List.findSome?_eq_none_iff.1 hfind.2
    have hnext := ih hr (path ++ [name]) (hparts _ hpart)
    rwa [List.append_assoc] at hnext

theorem not_broken_of_statement? {path : List String} {n : Node} {behind : List Node}
    (h : Validate.statement? path n behind = none) (rule : Rule) (blamed : Node) :
    ¬rule.Broken n behind blamed := by
  intro hbroken
  have hsome : Validate.statement? path n behind = some (.of rule blamed path) :=
    Validate.statement?_eq_some_iff.2 ⟨rule, blamed, hbroken, rfl⟩
  rw [h] at hsome
  cases hsome

/-- A part that comes before the one that the check stopped in was gone through. -/
theorem mem_of_idxOf_lt {pl q r : Place} {x y : String} {front back : List (String × Place)}
    (hwalked : pl.walked = front ++ (y, r) :: back) (hx : (x, q) ∈ pl.walked)
    (hlt : pl.names.idxOf x < pl.names.idxOf y) : (x, q) ∈ front := by
  rw [hwalked, List.mem_append, List.mem_cons] at hx
  obtain hx | hx | hx := hx
  · exact hx
  · cases hx
    omega
  · -- Behind it the order of the names would be the other one.
    have hsub : [y, x].Sublist pl.names := by
      have hback : ((y, r) :: back).Sublist pl.walked := by
        rw [hwalked]
        exact List.sublist_append_right front _
      have hpair : [(y, r), (x, q)].Sublist ((y, r) :: back) := (List.singleton_sublist.2 hx).cons_cons _
      exact ((hpair.trans hback).trans List.filter_sublist).map (·.1)
    have hgt := idxOf_names_lt hsub
    omega

/-- What the check finds is the first element on its way that breaks a rule. -/
theorem first_of_find (pl : Place) (path : List String) {v : Violation} (h : pl.find path = some v) :
    ∃ rel n behind rule blamed, Walks pl rel (.element n behind) ∧ rule.Broken n behind blamed ∧
      v = .of rule blamed (path ++ rel) ∧
      ∀ q m rest, Walks pl q (.element m rest) → pl.precedes q rel →
        ∀ (rule : Rule) (blamed : Node), ¬rule.Broken m rest blamed := by
  rw [find_eq, Option.or_eq_some_iff] at h
  obtain hhere | ⟨hhere, hin⟩ := h
  · -- The place itself is the element, and nothing stands before it.
    cases pl with
    | element n behind =>
      obtain ⟨rule, blamed, hbroken, rfl⟩ := Validate.statement?_eq_some_iff.1 hhere
      refine ⟨[], n, behind, rule, blamed, .here, hbroken, by rw [List.append_nil], ?_⟩
      intro q m rest _ hprecedes
      simp [precedes] at hprecedes
    | _ => cases hhere
  · obtain ⟨front, ⟨name, r⟩, back, hwalked, hfound, hfront⟩ := List.findSome?_eq_some_iff.1 hin
    have hpart : (name, r) ∈ pl.walked := by
      rw [hwalked]
      exact List.mem_append_right _ List.mem_cons_self
    have hlt := sizeOf_parts pl _ (mem_parts hpart)
    obtain ⟨rel, n, behind, rule, blamed, hwalks, hbroken, rfl, hfirst⟩ := first_of_find r _ hfound
    refine ⟨name :: rel, n, behind, rule, blamed, .into hpart hwalks, hbroken, by simp, ?_⟩
    intro q m rest hq hprecedes
    cases hq with
    | here => exact not_broken_of_statement? hhere
    | into hpart' hq =>
      rename_i name' r' q
      by_cases hname : name' = name
      · -- In the part that the check stopped in, the rest is said of that part.
        subst hname
        have hsame : r' = r := by
          have hlookup := lookup_parts_iff.2 (mem_parts hpart')
          rw [lookup_parts_iff.2 (mem_parts hpart)] at hlookup
          exact (Option.some.inj hlookup).symm
        subst hsame
        rw [precedes, if_pos rfl, lookup_parts_iff.2 (mem_parts hpart)] at hprecedes
        exact hfirst q m rest hq hprecedes
      · rw [precedes, if_neg hname, decide_eq_true_eq] at hprecedes
        have hnone := hfront _ (mem_of_idxOf_lt hwalked hpart' hprecedes)
        exact not_broken_of_statement? (statement?_of_walks hq _ hnone)
termination_by sizeOf pl

end Place

/-- What the check reports is the first offence. The path leads to an element of a sequence that the
check comes to, and this element breaks the rule that is reported; blamed is the element itself, or the
one behind it where nothing may follow a jump. No element that the check comes to before breaks a rule. -/
theorem violation?_first {p : Program} {v : Violation} (h : p.violation? = some v) :
    ∃ front before n behind blamed, v.path = front ++ [Place.index before.length] ∧
      (Place.program p).follow front = some (.sequence (before ++ n :: behind)) ∧
      (Place.program p).follow v.path = some (.element n behind) ∧
      (Place.program p).Walks v.path (.element n behind) ∧
      v.rule.Broken n behind blamed ∧ v = .of v.rule blamed v.path ∧
      ∀ path m rest, (Place.program p).Walks path (.element m rest) → (Place.program p).precedes path v.path →
        ∀ (rule : Rule) (node : Node), ¬rule.Broken m rest node := by
  obtain ⟨rel, n, behind, rule, blamed, hwalks, hbroken, rfl, hfirst⟩ :=
    Place.first_of_find (.program p) [] h
  have hfollow := Place.follow_of_walks hwalks
  obtain rfl | ⟨front, name, rfl⟩ := List.eq_nil_or_concat rel
  · cases hfollow
  · rw [List.concat_eq_append] at hwalks hfollow hfirst
    obtain ⟨before, rfl, hsequence⟩ := Place.sequence_of_follow hfollow
    rw [List.concat_eq_append, List.nil_append]
    exact ⟨front, before, n, behind, blamed, rfl, hsequence, hfollow, hwalks, hbroken, rfl, hfirst⟩

/-- Of `a; repeat { break; b }; { c }` the `break` is reported, which stands behind the loop that it
is in and before the block. -/
theorem violation?_first_in_loop :
    let s : Span := ⟨1, 1, 1, 1, none⟩
    let name (n : String) : Node := .identifier ⟨s, n⟩
    let loop : Node := .repeatLoop s ⟨s, [.jump s .brk none, name "b"]⟩
    let p : Program := ⟨s, "<stdin>", [name "a", loop, .block ⟨s, [name "c"]⟩]⟩
    let v : Violation := ⟨.unreachable .brk, "Identifier", 1, ["body", "[1]", "body", "[0]"]⟩
    p.violation? = some v ∧ (Place.program p).precedes ["body", "[1]"] v.path ∧
      (Place.program p).precedes v.path ["body", "[2]"] ∧
      ∃ n behind blamed, (Place.program p).follow v.path = some (.element n behind) ∧
        v.rule.Broken n behind blamed ∧ v = .of v.rule blamed v.path := by
  intro s name loop p v
  have hv : p.violation? = some v := rfl
  obtain ⟨_, _, n, behind, blamed, -, -, hfollow, -, hbroken, hof, -⟩ := violation?_first hv
  exact ⟨hv, by decide, by decide, n, behind, blamed, hfollow, hbroken, hof⟩

end Deadwood
