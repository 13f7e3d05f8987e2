import Deadwood.Pipeline
import Deadwood.Proofs.Completeness
import Deadwood.Proofs.Offences
import Deadwood.Proofs.Renaming

/-! The name of a script's file shows in places and nowhere else. The passes, the check and the printer
do not look at places, so optimising a text gives the same text whatever file it is said to be from. -/
namespace Deadwood

/-! A bare tree is the tree with its names kept and every place put to the same one. -/

mutual

theorem Node.rename_blank : (n : Node) → n.rename id (fun _ => .blank) = n.bare
  | .number .. | .string .. | .boolean .. | .null .. | .identifier .. => rfl
  | .unary s op x => by simp only [Node.rename, Node.bare, x.rename_blank]
  | .binary s op l r => by simp only [Node.rename, Node.bare, l.rename_blank, r.rename_blank]
  | .call s f args => by simp only [Node.rename, Node.bare, f.rename_blank, renameArguments_blank args]
  | .index s t xs d => by simp only [Node.rename, Node.bare, t.rename_blank, renameNodes_blank xs]
  | .member s t name => by simp only [Node.rename, Node.bare, t.rename_blank, id]
  | .block b => by simp only [Node.rename, Node.bare, b.rename_blank]
  | .assign s op t v => by simp only [Node.rename, Node.bare, t.rename_blank, v.rename_blank]
  | .cond s c t none => by simp only [Node.rename, Node.bare, c.rename_blank, t.rename_blank]
  | .cond s c t (some e) => by simp only [Node.rename, Node.bare, c.rename_blank, t.rename_blank, e.rename_blank]
  | .whileLoop s c b => by simp only [Node.rename, Node.bare, c.rename_blank, b.rename_blank]
  | .repeatLoop s b => by simp only [Node.rename, Node.bare, b.rename_blank]
  | .forLoop s v x b => by simp only [Node.rename, Node.bare, x.rename_blank, b.rename_blank, id]
  | .function s ps b => by simp only [Node.rename, Node.bare, renameParameters_blank ps, b.rename_blank]
  | .jump s k none => rfl
  | .jump s k (some x) => by simp only [Node.rename, Node.bare, x.rename_blank]

theorem Block.rename_blank : (b : Block) → b.rename id (fun _ => .blank) = b.bare
  | ⟨_, ss⟩ => by simp only [Block.rename, Block.bare, renameNodes_blank ss]

theorem renameNodes_blank : (ns : List Node) → renameNodes id (fun _ => .blank) ns = bareNodes ns
  | [] => rfl
  | n :: ns => by simp only [renameNodes, bareNodes, n.rename_blank, renameNodes_blank ns]

theorem renameArguments_blank : (as : List Argument) → renameArguments id (fun _ => .blank) as = bareArguments as
  | [] => rfl
  | ⟨_, _, v⟩ :: as => by
    simp only [renameArguments, bareArguments, Argument.rename, Argument.bare, v.rename_blank,
      renameArguments_blank as, Option.map_id, id]

theorem renameParameters_blank :
    (ps : List Parameter) → renameParameters id (fun _ => .blank) ps = bareParameters ps
  | [] => rfl
  | ⟨_, _, none⟩ :: ps => by
    simp only [renameParameters, bareParameters, Parameter.rename, Parameter.bare, renameParameters_blank ps, id]
  | ⟨_, _, some d⟩ :: ps => by
    simp only [renameParameters, bareParameters, Parameter.rename, Parameter.bare, d.rename_blank,
      renameParameters_blank ps, id]

end

theorem bareNodes_foldNodes (ns : List Node) : bareNodes (foldNodes ns) = foldNodes (bareNodes ns) := by
  rw [← renameNodes_blank, ← renameNodes_blank, foldNodes_rename]

theorem bareNodes_pruneNodes (ns : List Node) : bareNodes (pruneNodes ns) = pruneNodes (bareNodes ns) := by
  rw [← renameNodes_blank, ← renameNodes_blank, pruneNodes_rename]

/-! Whether the check finds something hangs on no place. What is reported does. -/

theorem Node.literal?_bare (n : Node) : n.bare.literal? = n.literal? := by
  rw [← n.rename_blank, literal?_rename]

theorem Node.offends_bare (n : Node) (behind : List Node) :
    (n.bare.isBlock ∨ n.bare.isDecided ∨ n.bare.isJump ∧ bareNodes behind ≠ []) ↔
      (n.isBlock ∨ n.isDecided ∨ n.isJump ∧ behind ≠ []) := by
  have hbehind : bareNodes behind ≠ [] ↔ behind ≠ [] := by
    rw [bareNodes_eq_map, ne_eq, List.map_eq_nil_iff]
  rw [hbehind]
  cases n with
  | cond s c t e? => cases e? <;> simp [bare, isBlock, isDecided, isJump, c.literal?_bare]
  | whileLoop s c b => simp [bare, isBlock, isDecided, isJump, c.literal?_bare]
  | jump s k x? => cases x? <;> simp [bare, isBlock, isDecided, isJump]
  | _ => simp [bare, isBlock, isDecided, isJump]

theorem offends_bareNodes {ss : List Node} : Offends (bareNodes ss) ↔ Offends ss := by
  induction ss with
  | nil => rfl
  | cons n ns ih => rw [bareNodes, offends_cons, offends_cons, n.offends_bare, ih]

theorem Node.fields_bare (n : Node) : n.bare.fields = n.fields.map Node.bare := by
  have hdefault (p : Parameter) : p.bare.default? = p.default?.map Node.bare := by
    obtain ⟨s, name, _ | d⟩ := p <;> rfl
  have hvalue (a : Argument) : a.bare.value = a.value.bare := by
    cases a
    rfl
  cases n with
  | call s f args => simp [bare, fields, bareArguments_eq_map, hvalue]
  | cond s c t e? => cases e? <;> rfl
  | jump s k x? => cases x? <;> rfl
  | function s ps b =>
    have hdefaults : (ps.map Parameter.bare).filterMap (·.default?) = (ps.filterMap (·.default?)).map Node.bare := by
      rw [List.filterMap_map, List.map_filterMap]
      congr 1
      funext p
      exact hdefault p
    simp [bare, fields, bareParameters_eq_map, hdefaults]
  | _ => rfl

theorem Node.listed_bare (n : Node) : n.bare.listed = n.listed.map Node.bare := by
  cases n with
  | index s t xs d => exact bareNodes_eq_map xs
  | block b =>
    cases b
    exact bareNodes_eq_map _
  | cond s c t e? => cases e? <;> rfl
  | jump s k x? => cases x? <;> rfl
  | _ => rfl

theorem Node.statements_offend_bare (n : Node) :
    (∀ b, n.bare = .block b → ¬Offends b.statements) ↔ ∀ b, n = .block b → ¬Offends b.statements := by
  cases n with
  | block b =>
    cases b
    simp [bare, Block.bare, offends_bareNodes]
  | cond s c t e? => cases e? <;> simp [bare]
  | jump s k x? => cases x? <;> simp [bare]
  | _ => simp [bare]

theorem Validate.node_bare_eq_none (field : Bool) (n : Node) :
    node [] field n.bare = none ↔ node [] field n = none := by
  have hfields : (∀ x ∈ n.fields, node [] true x.bare = none) ↔ ∀ x ∈ n.fields, node [] true x = none := by
    refine forall₂_congr fun x hx => ?_
    have hlt := Node.size_field_lt hx
    exact node_bare_eq_none true x
  have hlisted : (∀ x ∈ n.listed, node [] false x.bare = none) ↔ ∀ x ∈ n.listed, node [] false x = none := by
    refine forall₂_congr fun x hx => ?_
    have hlt := Node.size_listed_lt hx
    exact node_bare_eq_none false x
  rw [node_eq_none, node_eq_none, n.fields_bare, n.listed_bare, List.forall_mem_map, List.forall_mem_map,
    hfields, hlisted, n.statements_offend_bare]
termination_by n.size

namespace Program

/-- Two programs with the same statements, up to places. -/
def Alike (p q : Program) : Prop := bareNodes p.body = bareNodes q.body

namespace Alike

theorem apply {p q : Program} (h : Alike p q) (pass : Pass) : Alike (pass.apply p) (pass.apply q) := by
  unfold Alike at h
  cases pass with
  | constantFolding =>
    change bareNodes (foldNodes p.body) = bareNodes (foldNodes q.body)
    rw [bareNodes_foldNodes, h, bareNodes_foldNodes]
  | deadCode =>
    change bareNodes (pruneNodes p.body) = bareNodes (pruneNodes q.body)
    rw [bareNodes_pruneNodes, h, bareNodes_pruneNodes]

theorem applyAll {p q : Program} (h : Alike p q) (passes : List Pass) :
    Alike (Pass.applyAll passes p) (Pass.applyAll passes q) := by
  induction passes generalizing p q with
  | nil => exact h
  | cons pass passes ih => exact ih (h.apply pass)

theorem print_eq {p q : Program} (h : Alike p q) (indent : String) : p.print indent = q.print indent := by
  unfold print
  rw [← Print.nodes_bare, h, Print.nodes_bare]

theorem violation?_eq_none {p q : Program} (h : Alike p q) (hp : p.violation? = none) : q.violation? = none := by
  have hbare : ∀ r : Program, r.violation? = none ↔
      ¬Offends (bareNodes r.body) ∧ ∀ n ∈ bareNodes r.body, Validate.node [] false n = none := by
    intro r
    rw [violation?, Validate.sequence_eq_none_iff, offends_bareNodes, bareNodes_eq_map, List.forall_mem_map]
    simp only [Validate.node_bare_eq_none]
  rw [hbare, ← h, ← hbare]
  exact hp

end Alike

theorem alike_of_parse [Text.CharNames] {source file : String} {p : Program} (h : parse source file = .ok p)
    (file' : String) : ∃ q, parse source file' = .ok q ∧ Alike p q := by
  obtain ⟨q, hq, heq⟩ : ∃ q, parse source file' = .ok q ∧ _ := parse_iff_derives.2 (parse_iff_derives.1 ⟨p, h, rfl⟩)
  exact ⟨q, hq, heq.symm⟩

end Program

theorem Optimized.result_eq_ok_iff {o : Optimized} {progress : Progress} :
    o.result = .ok progress ↔ o.error? = none ∧ o.progress = progress := by
  unfold result
  cases o.error? with
  | none => simp
  | some e => simp

namespace Program

theorem error?_eq_none_iff (p : Program) {s : Settings} {passes : List Pass} (h : s.selected = .ok passes) :
    (p.optimize s).error? = none ↔ (s.validate && passes.contains .deadCode →
      (p.optimize s).progress.program.violation? = none) := by
  simp only [optimize, h, Option.map_eq_none_iff]
  split <;> simp_all

/-- What is optimised without trouble under some settings is so with other places. -/
theorem Alike.optimize {p q : Program} (h : Alike p q) {s : Settings} {progress : Progress}
    (hp : (p.optimize s).result = .ok progress) :
    ∃ progress', (q.optimize s).result = .ok progress' ∧ Alike progress.program progress'.program := by
  cases hselected : s.selected with
  | error r => simp [Program.optimize, hselected, Optimized.result] at hp
  | ok passes =>
    obtain ⟨herror, rfl⟩ := Optimized.result_eq_ok_iff.1 hp
    rw [p.error?_eq_none_iff hselected] at herror
    have halike := h.applyAll passes
    rw [← p.optimize_program hselected, ← q.optimize_program hselected] at halike
    refine ⟨_, Optimized.result_eq_ok_iff.2 ⟨?_, rfl⟩, halike⟩
    rw [q.error?_eq_none_iff hselected]
    exact fun hchecked => halike.violation?_eq_none (herror hchecked)

end Program

theorem mapError_eq_ok_iff {e : Except ε α} {f : ε → ε'} {a : α} : e.mapError f = .ok a ↔ e = .ok a := by
  cases e with
  | error x => exact ⟨nofun, nofun⟩
  | ok x => exact ⟨fun h => congrArg _ (Except.ok.inj h), fun h => congrArg _ (Except.ok.inj h)⟩

theorem map_eq_ok_iff {e : Except ε α} {f : α → β} {b : β} : e.map f = .ok b ↔ ∃ a, e = .ok a ∧ f a = b := by
  cases e with
  | error x => simp [Except.map]
  | ok x => simp [Except.map]

theorem bind_eq_ok_iff {e : Except ε α} {f : α → Except ε β} {b : β} :
    (e >>= f) = .ok b ↔ ∃ a, e = .ok a ∧ f a = .ok b := by
  cases e with
  | error x => simp [bind, Except.bind]
  | ok x => simp [bind, Except.bind]

/-- What optimising a text needs to succeed. -/
theorem optimizeSource_eq_ok_iff [Text.CharNames] {source file text : String} {s : Settings} :
    optimizeSource source s file = .ok text ↔ ∃ p progress, Program.parse source file = .ok p ∧
      (p.optimize s).result = .ok progress ∧ progress.program.print = .ok text := by
  simp only [optimizeSource, bind_eq_ok_iff, mapError_eq_ok_iff]
  constructor
  · rintro ⟨p, hp, progress, hprogress, htext⟩
    exact ⟨p, progress, hp, hprogress, htext⟩
  · rintro ⟨p, progress, hp, hprogress, htext⟩
    exact ⟨p, hp, progress, hprogress, htext⟩

/-- The file that a text is said to be from does not matter to what comes out. -/
theorem optimizeSource_eq_ok [Text.CharNames] {source file text : String} {s : Settings}
    (h : optimizeSource source s file = .ok text) (file' : String) : optimizeSource source s file' = .ok text := by
  obtain ⟨p, progress, hp, hprogress, htext⟩ := optimizeSource_eq_ok_iff.1 h
  obtain ⟨q, hq, halike⟩ := Program.alike_of_parse hp file'
  obtain ⟨progress', hprogress', hprint⟩ := halike.optimize hprogress
  refine optimizeSource_eq_ok_iff.2 ⟨q, progress', hq, hprogress', ?_⟩
  rw [← hprint.print_eq]
  exact htext

end Deadwood
