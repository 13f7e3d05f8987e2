import Deadwood.Pass.Validate
import Deadwood.Proofs.Rounds

/-! What the check finds in pruned programs. Pruning and the check agree on every position
but one: the check enters the defaults of parameters, which pruning leaves alone. So a
pruned program passes exactly if these defaults do. -/
namespace Deadwood

/-- The check finds nothing in the defaults themselves, each taken as the value of a field. -/
def defaultsPass : List Parameter → Bool
  | [] => true
  | ⟨_, _, none⟩ :: ps => defaultsPass ps
  | ⟨_, _, some d⟩ :: ps => (Validate.node [] true d).isNone && defaultsPass ps

mutual

/-- The defaults of every function that the check reaches pass. -/
def Node.defaultsPass : Node → Bool
  | .number .. | .string .. | .boolean .. | .null .. | .identifier .. | .jump .. => true
  | .unary _ _ x => x.defaultsPass
  | .binary _ _ l r => l.defaultsPass && r.defaultsPass
  | .call _ f args => f.defaultsPass && argumentDefaultsPass args
  | .index _ t xs _ => t.defaultsPass && nodeDefaultsPass xs
  | .member _ t _ => t.defaultsPass
  | .block b => b.defaultsPass
  | .assign _ _ t v => t.defaultsPass && v.defaultsPass
  | .cond _ _ t none => t.defaultsPass
  | .cond _ _ t (some e) => t.defaultsPass && e.defaultsPass
  | .whileLoop _ _ b => b.defaultsPass
  | .repeatLoop _ b => b.defaultsPass
  | .forLoop _ _ x b => x.defaultsPass && b.defaultsPass
  | .function _ ps b => Deadwood.defaultsPass ps && b.defaultsPass

def Block.defaultsPass : Block → Bool
  | ⟨_, ss⟩ => nodeDefaultsPass ss

def nodeDefaultsPass : List Node → Bool
  | [] => true
  | n :: ns => n.defaultsPass && nodeDefaultsPass ns

def argumentDefaultsPass : List Argument → Bool
  | [] => true
  | ⟨_, _, v⟩ :: as => v.defaultsPass && argumentDefaultsPass as

end

def Program.defaultsPass (p : Program) : Bool := nodeDefaultsPass p.body

namespace Validate

theorem isNone_statement? (path path' : List String) (n : Node) (rest : List Node) :
    (statement? path n rest).isNone = (statement? path' n rest).isNone := by
  unfold statement?
  split
  · rfl
  · split <;> rfl
  · split <;> rfl
  · rfl
  · rfl

/-! Whether something is found does not hang on the path that is reported. -/

mutual

theorem isNone_sequence (path path' : List String) (i j : Nat) : (ss : List Node) →
    (sequence path i ss).isNone = (sequence path' j ss).isNone
  | [] => rfl
  | n :: ns => by
    simp only [sequence, Option.isNone_or]
    rw [isNone_statement? (item path i) (item path' j), isNone_node (item path i) (item path' j),
      isNone_sequence path path' (i + 1) (j + 1) ns]

theorem isNone_node (path path' : List String) (field : Bool) : (n : Node) →
    (node path field n).isNone = (node path' field n).isNone
  | .number .. | .string .. | .boolean .. | .null .. | .identifier .. | .jump .. => rfl
  | .unary s op x => isNone_node _ _ true x
  | .binary s op l r => by
    simp only [node, Option.isNone_or]
    rw [isNone_node (path ++ ["left"]) (path' ++ ["left"]) true l,
      isNone_node (path ++ ["right"]) (path' ++ ["right"]) true r]
  | .call s f args => by
    simp only [node, Option.isNone_or]
    rw [isNone_node (path ++ ["function"]) (path' ++ ["function"]) true f,
      isNone_arguments (path ++ ["args"]) (path' ++ ["args"]) 0 0 args]
  | .index s t xs d => by
    simp only [node, Option.isNone_or]
    rw [isNone_node (path ++ ["target"]) (path' ++ ["target"]) true t,
      isNone_items (path ++ ["index"]) (path' ++ ["index"]) 0 0 xs]
  | .member s t name => isNone_node _ _ true t
  | .block ⟨s, ss⟩ => by
    cases field with
    | true => exact isNone_sequence path path' 0 0 ss
    | false => exact isNone_items _ _ 0 0 ss
  | .assign s op t v => by
    simp only [node, Option.isNone_or]
    rw [isNone_node (path ++ ["target"]) (path' ++ ["target"]) true t,
      isNone_node (path ++ ["value"]) (path' ++ ["value"]) true v]
  | .cond s c t none => isNone_block _ _ t
  | .cond s c t (some e) => by
    simp only [node, Option.isNone_or]
    rw [isNone_block (path ++ ["then_block"]) (path' ++ ["then_block"]) t,
      isNone_block (path ++ ["else_block"]) (path' ++ ["else_block"]) e]
  | .whileLoop s c b => isNone_block _ _ b
  | .repeatLoop s b => isNone_block _ _ b
  | .forLoop s v x b => by
    simp only [node, Option.isNone_or]
    rw [isNone_node (path ++ ["iterable"]) (path' ++ ["iterable"]) true x,
      isNone_block (path ++ ["body"]) (path' ++ ["body"]) b]
  | .function s ps b => by
    simp only [node, Option.isNone_or]
    rw [isNone_parameters (path ++ ["params"]) (path' ++ ["params"]) 0 0 ps,
      isNone_block (path ++ ["body"]) (path' ++ ["body"]) b]

theorem isNone_block (path path' : List String) : (b : Block) →
    (block path b).isNone = (block path' b).isNone
  | ⟨_, ss⟩ => isNone_sequence path path' 0 0 ss

theorem isNone_items (path path' : List String) (i j : Nat) : (xs : List Node) →
    (items path i xs).isNone = (items path' j xs).isNone
  | [] => rfl
  | x :: xs => by
    simp only [items, Option.isNone_or]
    rw [isNone_node (item path i) (item path' j) false x, isNone_items path path' (i + 1) (j + 1) xs]

theorem isNone_arguments (path path' : List String) (i j : Nat) : (as : List Argument) →
    (arguments path i as).isNone = (arguments path' j as).isNone
  | [] => rfl
  | ⟨_, _, v⟩ :: as => by
    simp only [arguments, Option.isNone_or]
    rw [isNone_node (item path i ++ ["value"]) (item path' j ++ ["value"]) true v,
      isNone_arguments path path' (i + 1) (j + 1) as]

theorem isNone_parameters (path path' : List String) (i j : Nat) : (ps : List Parameter) →
    (parameters path i ps).isNone = (parameters path' j ps).isNone
  | [] => rfl
  | ⟨_, _, none⟩ :: ps => isNone_parameters path path' (i + 1) (j + 1) ps
  | ⟨_, _, some d⟩ :: ps => by
    simp only [parameters, Option.isNone_or]
    rw [isNone_node (item path i ++ ["default"]) (item path' j ++ ["default"]) true d,
      isNone_parameters path path' (i + 1) (j + 1) ps]

end

theorem isNone_parameters_eq (path : List String) (i : Nat) (ps : List Parameter) :
    (parameters path i ps).isNone = defaultsPass ps := by
  induction ps generalizing i with
  | nil => rfl
  | cons p ps ih =>
    obtain ⟨s, name, default?⟩ := p
    cases default? with
    | none => exact ih (i + 1)
    | some d =>
      simp only [parameters, defaultsPass, Option.isNone_or, ih (i + 1)]
      rw [isNone_node (item path i ++ ["default"]) []]

/-- A statement of a normal sequence breaks no rule. -/
theorem statement?_of_normal (path : List String) {n : Node} {rest : List Node}
    (h : normalNodes (n :: rest)) : statement? path n rest = none := by
  simp only [normalNodes, Bool.and_eq_true] at h
  obtain ⟨⟨⟨hblock, hnormal⟩, hjump⟩, _⟩ := h
  unfold statement?
  split
  · simp [Node.isBlock] at hblock
  · next s c t e? =>
    cases e? <;> simp_all [Node.isNormal]
  · simp_all [Node.isNormal]
  · simp [Node.isJump] at hjump
  · rfl

end Validate

theorem normalItems_of_normalNodes {ss : List Node} (h : normalNodes ss) : normalItems ss := by
  induction ss with
  | nil => rfl
  | cons n ns ih => simp_all [normalNodes, normalItems]

/-! In a normal tree nothing but a default can be found. -/

mutual

theorem Validate.sequence_of_normal (path : List String) (i : Nat) : (ss : List Node) → normalNodes ss →
    (sequence path i ss).isNone = nodeDefaultsPass ss
  | [], _ => rfl
  | n :: ns, h => by
    have hstatement := statement?_of_normal (item path i) h
    simp only [normalNodes, Bool.and_eq_true] at h
    obtain ⟨⟨⟨_, hn⟩, _⟩, hns⟩ := h
    simp only [sequence, nodeDefaultsPass, hstatement, Option.none_or, Option.isNone_or]
    rw [node_of_normal _ false n hn, sequence_of_normal path (i + 1) ns hns]

theorem Validate.node_of_normal (path : List String) (field : Bool) : (n : Node) → n.isNormal →
    (node path field n).isNone = n.defaultsPass
  | .number .., _ | .string .., _ | .boolean .., _ | .null .., _ | .identifier .., _ | .jump .., _ => rfl
  | .unary s op x, h => node_of_normal _ true x h
  | .binary s op l r, h => by
    simp only [Node.isNormal, Bool.and_eq_true] at h
    simp only [node, Node.defaultsPass, Option.isNone_or]
    rw [node_of_normal _ true l h.1, node_of_normal _ true r h.2]
  | .call s f args, h => by
    simp only [Node.isNormal, Bool.and_eq_true] at h
    simp only [node, Node.defaultsPass, Option.isNone_or]
    rw [node_of_normal _ true f h.1, arguments_of_normal _ 0 args h.2]
  | .index s t xs d, h => by
    simp only [Node.isNormal, Bool.and_eq_true] at h
    simp only [node, Node.defaultsPass, Option.isNone_or]
    rw [node_of_normal _ true t h.1, items_of_normal _ 0 xs h.2]
  | .member s t name, h => node_of_normal _ true t h
  | .block ⟨s, ss⟩, h => by
    simp only [Node.isNormal, Block.isNormal] at h
    cases field with
    | true => exact sequence_of_normal path 0 ss h
    | false => exact items_of_normal _ 0 ss (normalItems_of_normalNodes h)
  | .assign s op t v, h => by
    simp only [Node.isNormal, Bool.and_eq_true] at h
    simp only [node, Node.defaultsPass, Option.isNone_or]
    rw [node_of_normal _ true t h.1, node_of_normal _ true v h.2]
  | .cond s c t none, h => by
    simp only [Node.isNormal, Bool.and_eq_true] at h
    exact block_of_normal _ t h.2
  | .cond s c t (some e), h => by
    simp only [Node.isNormal, Bool.and_eq_true] at h
    simp only [node, Node.defaultsPass, Option.isNone_or]
    rw [block_of_normal _ t h.1.2, block_of_normal _ e h.2]
  | .whileLoop s c b, h => by
    simp only [Node.isNormal, Bool.and_eq_true] at h
    exact block_of_normal _ b h.2
  | .repeatLoop s b, h => block_of_normal _ b h
  | .forLoop s v x b, h => by
    simp only [Node.isNormal, Bool.and_eq_true] at h
    simp only [node, Node.defaultsPass, Option.isNone_or]
    rw [node_of_normal _ true x h.1, block_of_normal _ b h.2]
  | .function s ps b, h => by
    simp only [Node.isNormal] at h
    simp only [node, Node.defaultsPass, Option.isNone_or]
    -- Pruning does not look at the parameters, so they are checked as they were written.
    rw [isNone_parameters_eq, block_of_normal _ b h]

theorem Validate.block_of_normal (path : List String) : (b : Block) → b.isNormal →
    (block path b).isNone = b.defaultsPass
  | ⟨_, ss⟩, h => sequence_of_normal path 0 ss h

theorem Validate.items_of_normal (path : List String) (i : Nat) : (xs : List Node) → normalItems xs →
    (items path i xs).isNone = nodeDefaultsPass xs
  | [], _ => rfl
  | x :: xs, h => by
    simp only [normalItems, Bool.and_eq_true] at h
    simp only [items, nodeDefaultsPass, Option.isNone_or]
    rw [node_of_normal _ false x h.1, items_of_normal path (i + 1) xs h.2]

theorem Validate.arguments_of_normal (path : List String) (i : Nat) : (as : List Argument) →
    normalArguments as → (arguments path i as).isNone = argumentDefaultsPass as
  | [], _ => rfl
  | ⟨_, _, v⟩ :: as, h => by
    simp only [normalArguments, Bool.and_eq_true] at h
    simp only [arguments, argumentDefaultsPass, Option.isNone_or]
    rw [node_of_normal _ true v h.1, arguments_of_normal path (i + 1) as h.2]

end

namespace Program

theorem violation?_of_isNormal {p : Program} (h : p.isNormal) :
    p.violation? = none ↔ p.defaultsPass := by
  rw [← Option.isNone_iff_eq_none, violation?, Validate.sequence_of_normal _ 0 p.body h, defaultsPass]

/-- With pruning among the passes, which comes last, the result is normal. -/
theorem isNormal_applyAll (p : Program) {selected : Pass → Bool} (h : selected .deadCode) :
    (Pass.applyAll (Pass.all.filter selected) p).isNormal := by
  cases hf : selected .constantFolding with
  | false => simpa [Pass.all, List.filter, hf, h, Pass.applyAll, Pass.apply] using p.isNormal_prune
  | true => simpa [Pass.all, List.filter, hf, h, Pass.applyAll, Pass.apply] using p.fold.isNormal_prune

end Program

theorem Settings.of_selected {s : Settings} {passes : List Pass} (h : s.selected = .ok passes) :
    1 ≤ s.maxRounds ∧ ∃ selected, passes = Pass.all.filter selected := by
  simp only [selected] at h
  split at h
  · contradiction
  · split at h
    · contradiction
    · cases h
      exact ⟨by omega, _, rfl⟩

theorem Program.optimize_program (p : Program) {s : Settings} {passes : List Pass}
    (h : s.selected = .ok passes) : (p.optimize s).progress.program = Pass.applyAll passes p := by
  obtain ⟨hrounds, selected, rfl⟩ := Settings.of_selected h
  obtain ⟨left, hleft⟩ : ∃ left, s.maxRounds.toNat = left + 1 := ⟨s.maxRounds.toNat - 1, by omega⟩
  simp only [optimize, h, hleft]
  have hsettled : ∀ pass ∈ Pass.all.filter selected,
      pass.apply (Pass.applyAll (Pass.all.filter selected) p) =
        Pass.applyAll (Pass.all.filter selected) p :=
    fun pass hpass => Pass.apply_applyAll selected p hpass
  exact (Progress.run_converges (s := { program := p }) (Pass.applyAll_of_apply hsettled) left).1

/-- A pruned program passes the check exactly if the defaults of its parameters do, and so
does what the rounds of passes lead to when pruning is among them: no other position can
give a violation. -/
theorem violation?_prune_iff (p : Program) :
    (p.prune.violation? = none ↔ p.prune.defaultsPass) ∧
    ∀ (s : Settings) (passes : List Pass), s.selected = .ok passes → .deadCode ∈ passes →
      s.validate = true →
      ((p.optimize s).error? = none ↔ (p.optimize s).progress.program.defaultsPass) := by
  refine ⟨Program.violation?_of_isNormal p.isNormal_prune, fun s passes h hdead hvalidate => ?_⟩
  have hprogram := p.optimize_program h
  have hnormal : (p.optimize s).progress.program.isNormal := by
    obtain ⟨_, selected, rfl⟩ := Settings.of_selected h
    rw [hprogram]
    exact p.isNormal_applyAll (List.mem_filter.1 hdead).2
  have herror : (p.optimize s).error? =
      (p.optimize s).progress.program.violation?.map .violation := by
    simp [Program.optimize, h, hvalidate, hdead]
  rw [herror, Option.map_eq_none_iff, Program.violation?_of_isNormal hnormal]

/-- In `f <- function(a = { { x } }) a` the default stays as it is and is then found. -/
theorem violation?_prune_nested_default :
    let s : Span := ⟨1, 1, 1, 1, none⟩
    let name (n : String) : Node := .identifier ⟨s, n⟩
    let default := Node.block ⟨s, [.block ⟨s, [name "x"]⟩]⟩
    let p : Program := ⟨s, "<stdin>",
      [.assign s .arrow (name "f") (.function s [⟨s, "a", some default⟩] ⟨s, [name "a"]⟩)]⟩
    p.prune.violation? = some ⟨.nestedBlock, "Block", 1,
      ["body", "[0]", "value", "params", "[0]", "default", "[0]"]⟩ := by
  intro s name default p
  rfl

/-- `f <- function(a = { x }) { { a } }` passes: its body is flattened and its default is
flat. -/
theorem violation?_prune_flat_default :
    let s : Span := ⟨1, 1, 1, 1, none⟩
    let name (n : String) : Node := .identifier ⟨s, n⟩
    let p : Program := ⟨s, "<stdin>", [.assign s .arrow (name "f")
      (.function s [⟨s, "a", some (.block ⟨s, [name "x"]⟩)⟩] ⟨s, [.block ⟨s, [name "a"]⟩]⟩)]⟩
    p.violation? ≠ none ∧ p.prune.violation? = none ∧ (p.optimize { validate := true }).error? = none := by
  intro s name p
  have hiff := violation?_prune_iff p
  have hselected : ({ validate := true } : Settings).selected = .ok Pass.all := rfl
  refine ⟨by simp [p, Program.violation?, Validate.sequence, Validate.node, Validate.block,
    Validate.parameters, Validate.statement?], hiff.1.2 rfl, ?_⟩
  refine (hiff.2 { validate := true } Pass.all hselected (by simp [Pass.all]) rfl).2 ?_
  rw [p.optimize_program hselected]
  rfl

end Deadwood
