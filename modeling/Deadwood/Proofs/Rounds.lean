import Deadwood.Optimize
import Deadwood.Proofs.Folding

/-! The passes converge in one round. Pruning makes nothing new to fold and folding was
done before it, so a second round finds nothing to do: `optimize_converges`. -/
namespace Deadwood

namespace Node

theorem prune_of_isLiteral {n : Node} (h : n.isLiteral) : n.prune = .single n := by
  cases n <;> simp_all [isLiteral, prune]

/-- Pruning makes no literals: what it puts in place of an expression is of the same
kind, or a block. -/
theorem isLiteral_prune (n : Node) : n.prune.node.isLiteral = n.isLiteral := by
  cases n with
  | cond s c t e? =>
    rw [prune_cond]
    cases c.literal? with
    | none => rfl
    | some v => cases v <;> rfl
  | whileLoop s c b =>
    rw [prune]
    split <;> rfl
  | _ => rfl

end Node

namespace Fold

/-- Whether and to what an operation folds is not changed by pruning its operands. -/
theorem unary?_prune (s : Span) (op : UnaryOp) (x : Node) :
    unary? s op x.prune.node = unary? s op x := by
  cases h : x.isLiteral with
  | true => rw [Node.prune_of_isLiteral h, Pruned.node_single]
  | false =>
    have hp : x.prune.node.isLiteral = false := by rw [Node.isLiteral_prune, h]
    rw [unary?_of_not_isLiteral hp, unary?_of_not_isLiteral h]

theorem binary?_prune (s : Span) (op : BinaryOp) (l r : Node) :
    binary? s op l.prune.node r.prune.node = binary? s op l r := by
  cases hl : l.isLiteral with
  | true =>
    rw [Node.prune_of_isLiteral hl, Pruned.node_single]
    cases hr : r.isLiteral with
    | true => rw [Node.prune_of_isLiteral hr, Pruned.node_single]
    | false =>
      have hp : r.prune.node.isLiteral = false := by rw [Node.isLiteral_prune, hr]
      rw [binary?_of_right hp, binary?_of_right hr]
  | false =>
    have hp : l.prune.node.isLiteral = false := by rw [Node.isLiteral_prune, hl]
    rw [binary?_of_left hp, binary?_of_left hl]

end Fold

theorem Pruned.foldingsNodes_statements (p : Pruned) : foldingsNodes p.statements = p.node.foldings := by
  cases p with
  | single n => simp [foldingsNodes]
  | splice b =>
    cases b
    simp [Node.foldings, Block.foldings]

theorem foldingsNodes_appendToJump {ss rest : List Node} (hs : foldingsNodes ss = 0)
    (hr : foldingsNodes rest = 0) : foldingsNodes (appendToJump ss rest) = 0 := by
  induction ss with
  | nil => simpa [appendToJump] using hr
  | cons n ns ih =>
    simp only [foldingsNodes, Nat.add_eq_zero_iff] at hs
    simp only [appendToJump]
    split <;> simp [foldingsNodes, hs.1, ih hs.2]

mutual

/-- Where nothing was left to fold, pruning leaves nothing to fold. -/
theorem Node.foldings_prune : (n : Node) → n.foldings = 0 → n.prune.node.foldings = 0
  | .number .., _ | .string .., _ | .boolean .., _ | .null .., _ | .identifier .., _ => rfl
  | .unary s op x, h => by
    simp only [Node.foldings, Nat.add_eq_zero_iff] at h
    have hx := x.foldings_prune h.1
    -- Foldings are counted on folded operands, which these are, before and after.
    rw [x.fold_of_foldings h.1] at h
    simp only [Node.prune, Pruned.node_single, Node.foldings, Node.fold_of_foldings _ hx, hx,
      Fold.unary?_prune, h.2]
  | .binary s op l r, h => by
    simp only [Node.foldings, Nat.add_eq_zero_iff] at h
    have hl := l.foldings_prune h.1.1
    have hr := r.foldings_prune h.1.2
    rw [l.fold_of_foldings h.1.1, r.fold_of_foldings h.1.2] at h
    simp only [Node.prune, Pruned.node_single, Node.foldings, Node.fold_of_foldings _ hl,
      Node.fold_of_foldings _ hr, hl, hr, Fold.binary?_prune, h.2]
  | .call s f args, h => by
    simp only [Node.foldings, Nat.add_eq_zero_iff] at h
    simp only [Node.prune, Pruned.node_single, Node.foldings, f.foldings_prune h.1,
      foldingsArguments_prune args h.2]
  | .index s t xs d, h => by
    simp only [Node.foldings, Nat.add_eq_zero_iff] at h
    simp only [Node.prune, Pruned.node_single, Node.foldings, t.foldings_prune h.1,
      foldingsItems_prune xs h.2]
  | .member s t name, h => by
    simp only [Node.foldings] at h
    simp only [Node.prune, Pruned.node_single, Node.foldings, t.foldings_prune h]
  | .block b, h => by
    simp only [Node.foldings] at h
    simp only [Node.prune, Pruned.node_splice, Node.foldings, b.foldings_prune h]
  | .assign s op t v, h => by
    simp only [Node.foldings, Nat.add_eq_zero_iff] at h
    simp only [Node.prune, Pruned.node_single, Node.foldings, t.foldings_prune h.1, v.foldings_prune h.2]
  | .cond s c t none, h => by
    simp only [Node.foldings, Nat.add_eq_zero_iff] at h
    have ht := t.foldings_prune h.2
    rw [Node.prune_cond]
    cases c.literal? with
    | none => simp [Node.foldings, h.1, ht]
    | some v => cases v <;> simp [Node.foldings, Block.foldings, foldingsNodes, ht]
  | .cond s c t (some e), h => by
    simp only [Node.foldings, Nat.add_eq_zero_iff] at h
    have ht := t.foldings_prune h.1.2
    have he := e.foldings_prune h.2
    rw [Node.prune_cond]
    cases c.literal? with
    | none => simp [Node.foldings, h.1.1, ht, he]
    | some v => cases v <;> simp [Node.foldings, ht, he]
  | .whileLoop s c b, h => by
    simp only [Node.foldings, Nat.add_eq_zero_iff] at h
    rw [Node.prune]
    split
    · rfl
    · simp only [Pruned.node_single, Node.foldings, h.1, b.foldings_prune h.2]
  | .repeatLoop s b, h => by
    simp only [Node.foldings] at h
    simp only [Node.prune, Pruned.node_single, Node.foldings, b.foldings_prune h]
  | .forLoop s v x b, h => by
    simp only [Node.foldings, Nat.add_eq_zero_iff] at h
    simp only [Node.prune, Pruned.node_single, Node.foldings, x.foldings_prune h.1, b.foldings_prune h.2]
  | .function s ps b, h => by
    simp only [Node.foldings, Nat.add_eq_zero_iff] at h
    simp only [Node.prune, Pruned.node_single, Node.foldings, h.1, b.foldings_prune h.2]
  | .jump .., h => h

theorem Block.foldings_prune : (b : Block) → b.foldings = 0 → b.prune.foldings = 0
  | ⟨_, ss⟩, h => foldingsNodes_prune ss h

theorem foldingsNodes_prune : (ss : List Node) → foldingsNodes ss = 0 → foldingsNodes (pruneNodes ss) = 0
  | [], _ => rfl
  | n :: ns, h => by
    simp only [foldingsNodes, Nat.add_eq_zero_iff] at h
    rw [pruneNodes]
    apply foldingsNodes_appendToJump
    · rw [Pruned.foldingsNodes_statements, n.foldings_prune h.1]
    · exact foldingsNodes_prune ns h.2

theorem foldingsItems_prune : (xs : List Node) → foldingsNodes xs = 0 → foldingsNodes (pruneItems xs) = 0
  | [], _ => rfl
  | x :: xs, h => by
    simp only [foldingsNodes, Nat.add_eq_zero_iff] at h
    rw [pruneItems, foldingsNodes, x.foldings_prune h.1, foldingsItems_prune xs h.2]

theorem foldingsArguments_prune :
    (as : List Argument) → foldingsArguments as = 0 → foldingsArguments (pruneArguments as) = 0
  | [], _ => rfl
  | ⟨_, _, v⟩ :: as, h => by
    simp only [foldingsArguments, Argument.foldings, Nat.add_eq_zero_iff] at h
    simp only [pruneArguments, foldingsArguments, Argument.foldings, v.foldings_prune h.1,
      foldingsArguments_prune as h.2]

end

namespace Program

theorem fold_fold (p : Program) : p.fold.fold = p.fold := fold_of_foldings p.foldings_fold

theorem fold_prune_fold (p : Program) : p.fold.prune.fold = p.fold.prune :=
  fold_of_foldings (foldingsNodes_prune p.fold.body p.foldings_fold)

end Program

namespace Pass

/-- A pass that reports a change took nodes away, and one that reports none changed nothing. -/
theorem changes_cases (pass : Pass) (p : Program) :
    (pass.changes p = false ∧ pass.apply p = p) ∨
      (pass.changes p = true ∧ (pass.apply p).size < p.size) := by
  cases pass with
  | constantFolding =>
    have hsize := p.size_fold
    cases h : p.foldings with
    | zero => exact .inl ⟨by simp [changes, h], Program.fold_of_foldings h⟩
    | succ n => exact .inr ⟨by simp [changes, h], by simp only [apply]; omega⟩
  | deadCode =>
    cases h : p.pruneShrinks with
    | false => exact .inl ⟨h, p.pruneShrinks_eq_false_iff.1 h⟩
    | true => exact .inr ⟨h, by simpa [apply, Program.pruneShrinks] using h⟩

theorem changes_of_apply {pass : Pass} {p : Program} (h : pass.apply p = p) : pass.changes p = false := by
  rcases pass.changes_cases p with ⟨hsame, _⟩ | ⟨_, hlt⟩
  · exact hsame
  · rw [h] at hlt
    omega

/-- A pass reports a change exactly if the program it gives is another one, and exactly if that
has fewer nodes; it never has more. Folding takes at least one node away with each operation that
it folds, and changes the program exactly if there is one. -/
theorem changes_exact (p : Program) :
    (∀ pass : Pass, (pass.changes p = true ↔ pass.apply p ≠ p) ∧
      (pass.changes p = true ↔ (pass.apply p).size < p.size) ∧ (pass.apply p).size ≤ p.size) ∧
      (p.fold ≠ p ↔ 0 < p.foldings) ∧ p.fold.size + p.foldings ≤ p.size := by
  have hsize := p.size_fold
  refine ⟨fun pass => ?_, ⟨fun hne => ?_, fun hpos heq => ?_⟩, hsize⟩
  · rcases pass.changes_cases p with ⟨hsame, heq⟩ | ⟨hchanged, hlt⟩
    · simp [hsame, heq]
    · have hne : pass.apply p ≠ p := by
        intro heq
        rw [heq] at hlt
        omega
      exact ⟨iff_of_true hchanged hne, iff_of_true hchanged hlt, Nat.le_of_lt hlt⟩
  · exact Nat.pos_of_ne_zero fun hzero => hne (Program.fold_of_foldings hzero)
  · rw [heq] at hsize
    omega

/-- Each pass once, in order. -/
def applyAll (passes : List Pass) (p : Program) : Program := passes.foldl (fun q pass => pass.apply q) p

theorem applyAll_of_apply {passes : List Pass} {p : Program} (h : ∀ pass ∈ passes, pass.apply p = p) :
    applyAll passes p = p := by
  induction passes with
  | nil => rfl
  | cons pass passes ih =>
    have hp : pass.apply p = p := h pass (by simp)
    have hrest : applyAll passes p = p := ih fun q hq => h q (by simp [hq])
    change applyAll passes (pass.apply p) = p
    rw [hp, hrest]

/-- Applied once in their order, the passes leave nothing to do for any of them. -/
theorem apply_applyAll (selected : Pass → Bool) (p : Program) {pass : Pass}
    (h : pass ∈ all.filter selected) :
    pass.apply (applyAll (all.filter selected) p) = applyAll (all.filter selected) p := by
  cases hf : selected .constantFolding <;> cases hd : selected .deadCode <;>
    simp only [all, List.filter, hf, hd, List.mem_cons, List.not_mem_nil, or_false] at h
  · subst h
    simp [all, List.filter, hf, hd, applyAll, apply, Program.prune_prune]
  · subst h
    simp [all, List.filter, hf, hd, applyAll, apply, Program.fold_fold]
  · rcases h with rfl | rfl
    · simp [all, List.filter, hf, hd, applyAll, apply, Program.fold_prune_fold]
    · simp [all, List.filter, hf, hd, applyAll, apply, Program.prune_prune]

end Pass

namespace Progress

theorem steps_program (passes : List Pass) (s : Progress) :
    (s.steps passes).1.program = Pass.applyAll passes s.program := by
  induction passes generalizing s with
  | nil => rfl
  | cons pass passes ih => exact ih (s.step pass).1

theorem steps_rounds (passes : List Pass) (s : Progress) : (s.steps passes).1.rounds = s.rounds := by
  induction passes generalizing s with
  | nil => rfl
  | cons pass passes ih => exact ih (s.step pass).1

/-- A round reports a change exactly if it took nodes away. -/
theorem steps_changed (passes : List Pass) (s : Progress) :
    ((s.steps passes).2 = false ∧ Pass.applyAll passes s.program = s.program) ∨
      ((s.steps passes).2 = true ∧ (Pass.applyAll passes s.program).size < s.program.size) := by
  induction passes generalizing s with
  | nil => exact .inl ⟨rfl, rfl⟩
  | cons pass passes ih =>
    have hsteps : (s.steps (pass :: passes)).2 = (pass.changes s.program || ((s.step pass).1.steps passes).2) := rfl
    have happly : Pass.applyAll (pass :: passes) s.program =
        Pass.applyAll passes (s.step pass).1.program := rfl
    have hstep : (s.step pass).1.program = pass.apply s.program := rfl
    rw [hsteps, happly]
    -- Passes only take nodes away, so no later one undoes a change.
    rcases pass.changes_cases s.program with ⟨hc, hp⟩ | ⟨hc, hp⟩ <;>
      rcases ih (s.step pass).1 with ⟨hd, hq⟩ | ⟨hd, hq⟩ <;> rw [hc, hd]
    · exact .inl ⟨rfl, by rw [hq, hstep, hp]⟩
    · exact .inr ⟨rfl, by rw [hstep, hp] at hq; rwa [hstep, hp]⟩
    · exact .inr ⟨rfl, by rw [hq, hstep]; exact hp⟩
    · exact .inr ⟨rfl, by rw [hstep] at hq ⊢; omega⟩

def started (s : Progress) : Progress := { s with rounds := s.rounds + 1 }

theorem run_succ (passes : List Pass) (left : Nat) (s : Progress) :
    run passes (left + 1) s =
      if (s.started.steps passes).2 then run passes left (s.started.steps passes).1
      else (s.started.steps passes).1 := rfl

/-- A round in which no pass has anything to do is the last. -/
theorem run_of_settled {passes : List Pass} {s : Progress}
    (h : Pass.applyAll passes s.program = s.program) (left : Nat) :
    (run passes (left + 1) s).program = s.program ∧ (run passes (left + 1) s).rounds = s.rounds + 1 := by
  have hfalse : (s.started.steps passes).2 = false := by
    rcases steps_changed passes s.started with ⟨hc, _⟩ | ⟨_, hlt⟩
    · exact hc
    · have hsame : Pass.applyAll passes s.started.program = s.started.program := h
      rw [hsame] at hlt
      omega
  rw [run_succ, hfalse]
  exact ⟨(steps_program passes s.started).trans h, steps_rounds passes s.started⟩

/-- If one application of the passes settles the program, the second round is the last. -/
theorem run_converges {passes : List Pass} {s : Progress}
    (h : Pass.applyAll passes (Pass.applyAll passes s.program) = Pass.applyAll passes s.program)
    (left : Nat) :
    (run passes (left + 1) s).program = Pass.applyAll passes s.program ∧
      (Pass.applyAll passes s.program = s.program → (run passes (left + 1) s).rounds = s.rounds + 1) ∧
      (Pass.applyAll passes s.program ≠ s.program →
        (run passes (left + 1) s).rounds = s.rounds + min 2 (left + 1)) := by
  by_cases hsame : Pass.applyAll passes s.program = s.program
  · have hrun := run_of_settled hsame left
    exact ⟨hrun.1.trans hsame.symm, fun _ => hrun.2, fun hne => absurd hsame hne⟩
  · have htrue : (s.started.steps passes).2 = true := by
      rcases steps_changed passes s.started with ⟨_, heq⟩ | ⟨hc, _⟩
      · exact absurd heq hsame
      · exact hc
    have hprogram : (s.started.steps passes).1.program = Pass.applyAll passes s.program :=
      steps_program passes s.started
    have hrounds : (s.started.steps passes).1.rounds = s.rounds + 1 := steps_rounds passes s.started
    rw [run_succ, htrue, if_pos rfl]
    -- The limit may stop the run here; if not, one more round finds the program settled.
    refine ⟨?_, fun heq => absurd heq hsame, fun _ => ?_⟩
    · cases left with
      | zero => exact hprogram
      | succ left =>
        rw [← hprogram] at h
        exact (run_of_settled h left).1.trans hprogram
    · cases left with
      | zero => exact hrounds
      | succ left =>
        rw [← hprogram] at h
        rw [(run_of_settled h left).2, hrounds]
        omega

end Progress

theorem Pass.ofName?_name (pass : Pass) : ofName? pass.name = some pass := by
  cases pass <;> rfl

/-- Known names and a round to run are all that settings need. -/
theorem Settings.selected_eq {s : Settings} {names : List String} (hs : s.passes = some names)
    (valid : ∀ name ∈ names, ∃ pass : Pass, pass.name = name) (hr : 1 ≤ s.maxRounds) :
    s.selected = .ok (Pass.all.filter fun pass => names.contains pass.name) := by
  have hfind : names.find? (fun n => (Pass.ofName? n).isNone) = none := by
    rw [List.find?_eq_none]
    intro name hname
    obtain ⟨pass, rfl⟩ := valid name hname
    simp [Pass.ofName?_name]
  have hrounds : ¬ s.maxRounds < 1 := by omega
  simp [selected, hs, hfind, hrounds]

/-- Where the settings hold, only a violation that is looked for keeps the result back. -/
theorem Program.optimize_result (p : Program) {s : Settings} {passes : List Pass}
    (h : s.selected = .ok passes) :
    (p.optimize s).result = .ok (p.optimize s).progress ∨
      s.validate = true ∧ ∃ v, (p.optimize s).result = .error (.violation v) := by
  simp only [Program.optimize, h, Optimized.result]
  split
  · next e he =>
    obtain ⟨v, hv, rfl⟩ := Option.map_eq_some_iff.1 he
    split at hv
    · next hcheck => exact .inr ⟨(Bool.and_eq_true_iff.1 hcheck).1, v, rfl⟩
    · contradiction
  · exact .inl rfl

/-- Optimising applies the selected passes once, in their order, whatever number of
rounds it may take: each of them has nothing left to do on the result. A second round, if
there may be one, is only run to see that. Nothing but a violation that `validate` looks
for keeps the result back. -/
theorem optimize_converges (p : Program) (names : List String) (maxRounds : Int) (validate : Bool)
    (valid : ∀ name ∈ names, ∃ pass : Pass, pass.name = name) (hr : 1 ≤ maxRounds) :
    let selected := Pass.all.filter fun pass => names.contains pass.name
    let once := Pass.applyAll selected p
    let o := p.optimize { passes := some names, maxRounds, validate }
    (o.result = .ok o.progress ∨ validate = true ∧ ∃ v, o.result = .error (.violation v)) ∧
      o.progress.program = once ∧
      (∀ pass ∈ selected, pass.apply once = once ∧ pass.changes once = false) ∧
      (once = p → o.progress.rounds = 1) ∧
      (once ≠ p → o.progress.rounds = min 2 maxRounds.toNat) := by
  intro selected once o
  have hselected := Settings.selected_eq (s := { passes := some names, maxRounds, validate }) rfl valid hr
  have hsettled : ∀ pass ∈ selected, pass.apply once = once := fun pass hpass =>
    Pass.apply_applyAll _ p hpass
  obtain ⟨left, hleft⟩ : ∃ left, maxRounds.toNat = left + 1 := ⟨maxRounds.toNat - 1, by omega⟩
  have hprogress : o.progress = Progress.run selected (left + 1) { program := p } := by
    simp only [o, Program.optimize, hselected, ← hleft, selected]
  obtain ⟨hprogram, hsame, hdiffer⟩ := Progress.run_converges (s := { program := p })
    (Pass.applyAll_of_apply hsettled) left
  refine ⟨p.optimize_result hselected, ?_⟩
  rw [hprogress, hleft]
  refine ⟨hprogram, fun pass hpass => ?_, ?_, ?_⟩
  · exact ⟨hsettled pass hpass, Pass.changes_of_apply (hsettled pass hpass)⟩
  · intro h
    simpa using hsame h
  · intro h
    simpa using hdiffer h

/-- `if (!FALSE) x` becomes `x` in the first of two rounds. -/
theorem optimize_converges_negated_literal :
    let at0 : Span := ⟨1, 1, 1, 1, none⟩
    let x : Node := .identifier ⟨at0, "x"⟩
    let p : Program := ⟨at0, "<stdin>", [.cond at0 (.unary at0 .not (.boolean at0 false)) ⟨at0, [x]⟩ none]⟩
    let o := p.optimize { passes := some ["dead_code_elimination", "constant_folding"], maxRounds := 10 }
    o.progress.program.body = [x] ∧ o.progress.rounds = 2 := by
  intro at0 x p o
  have hvalid : ∀ name ∈ ["dead_code_elimination", "constant_folding"], ∃ pass : Pass, pass.name = name := by
    simp only [List.forall_mem_cons]
    exact ⟨⟨.deadCode, rfl⟩, ⟨.constantFolding, rfl⟩, by simp⟩
  obtain ⟨_, hprogram, _, _, hrounds⟩ := optimize_converges p _ 10 false hvalid (by decide)
  have hselected : (Pass.all.filter fun pass =>
      ["dead_code_elimination", "constant_folding"].contains pass.name) = Pass.all := by decide
  have honce : Pass.applyAll Pass.all p = ⟨at0, "<stdin>", [x]⟩ := rfl
  rw [hselected, honce] at hprogram hrounds
  exact ⟨congrArg Program.body hprogram, hrounds (by simp [p, x])⟩

end Deadwood
