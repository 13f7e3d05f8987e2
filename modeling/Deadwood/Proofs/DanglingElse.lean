import Deadwood.Proofs.Nearest
import Deadwood.Source.Parse

/-! Scripts read with each `else` at the nearest `if`. Only chains are nested otherwise, so the reader of
scripts is taken up again with the nesting as a parameter. Three readers then go through a script in
step: the one that nests chains from the outside, the one that nests them from the inside, and one
that stops at the first chain where the two ways differ. -/
namespace Deadwood
namespace Grammar
open Chain (Similar SimilarElse settled)

/-- A way to make a tree of a chain, or to refuse it. -/
abbrev Nesting := String → Run → List Alternative → Option Part

/-! The reader with another way to nest chains. -/

def chainBy [Text.CharNames] (tree : Nesting) (self : Bool → Reader Part) (os : List (Position × Opening)) :
    Reader Part := do
  let r ← run self (← remaining) os
  let as ← alternatives self (← remaining) r.conds
  match tree (← get).file r as with
  | some x => return x
  | none => stop

def expressionOfBy [Text.CharNames] (tree : Nesting) (self : Bool → Reader Part) (statement : Bool) : Reader Part := do
  if startsControl (← peek) then chainBy tree self []
  else
    let x ← disjunction self
    match ← peek with
    | some (.assign op) =>
      let _ ← take
      skipBreak
      chainBy tree self [(x.start, .assign op x.node)]
    | some .equals =>
      if statement then
        let _ ← take
        skipBreak
        let v ← self false
        return ⟨.assign (← span x.start v.stop) .equals x.node v.node, x.start, v.stop⟩
      else return x
    | _ => return x

def expressionBy [Text.CharNames] (tree : Nesting) : Nat → Bool → Reader Part
  | 0 => fun _ => stop
  | depth + 1 => expressionOfBy tree (expressionBy tree depth)

def scriptBy [Text.CharNames] (tree : Nesting) : Reader (List Node) := do
  let n ← remaining
  let ss ← sequence (expressionBy tree (n + 1) true) (n + 1)
  if (← remaining) == 0 then return ss else stop

/-- The outermost `if` chooses first: this is how chains are nested. -/
def outermost : Nesting := fun file r as => some (Chain.build file r as)

theorem expressionBy_outermost [Text.CharNames] (depth : Nat) : expressionBy outermost depth = expression depth := by
  induction depth with
  | zero => rfl
  | succ depth ih =>
    rw [expressionBy, ih]
    rfl

theorem scriptBy_outermost [Text.CharNames] : scriptBy outermost = script := by
  simp only [scriptBy, expressionBy_outermost]
  rfl

/-- Each `else` goes to the nearest `if`. -/
def innermost : Nesting := fun file r as => some (Chain.nearest file r as)

/-- A chain is refused if more than one `if` could own its last `else`. -/
def undisputed : Nesting := fun file r as => if settled r.conds as then some (Chain.build file r as) else none

/-! A call can be told from its tree. -/

/-- What is called, and with what. -/
def callOf : Node → Node × List Argument
  | .call _ f args => (f, args)
  | .jump _ _ x? => (.identifier ⟨.blank, "return"⟩, x?.toList.map fun x => ⟨.blank, none, x⟩)
  | n => (n, [])

theorem callOf_called (f : Node) (args : List Argument) (s : Span) :
    callOf (called f args s).bare = (f.bare, bareArguments args) := by
  cases f with
  | identifier id =>
    obtain ⟨sp, name⟩ := id
    by_cases h : name = "return"
    · subst h
      match args with
      | [] => rfl
      | [⟨_, none, x⟩] => rfl
      | [⟨_, some name, x⟩] => rfl
      | ⟨_, _, _⟩ :: ⟨_, _, _⟩ :: as => simp [called, callOf, Node.bare]
    · rw [called_of_ne h]
      rfl
  | _ => rfl

theorem called_bare_inj {f f' : Node} {args args' : List Argument} (s s' : Span) :
    (called f args s).bare = (called f' args' s').bare ↔
      f.bare = f'.bare ∧ args.map Argument.bare = args'.map Argument.bare := by
  rw [← bareArguments_eq_map, ← bareArguments_eq_map]
  constructor
  · intro h
    have hcall := congrArg callOf h
    rwa [callOf_called, callOf_called, Prod.mk.injEq] at hcall
  · rintro ⟨hf, hargs⟩
    rw [called_bare, called_bare, hf, hargs]

theorem isBlock_called (f : Node) (args : List Argument) (s : Span) : (called f args s).isBlock = false := by
  unfold called
  split <;> rfl

/-! Values that two readers make of the same tokens. -/

/-- Trees of which both or none are blocks, and that are equal up to places if the proposition holds. -/
def Twins (x x' : Part) (s : Prop) : Prop := x.node.isBlock = x'.node.isBlock ∧ (x.node.bare = x'.node.bare ↔ s)

theorem Twins.refl (x : Part) : Twins x x True := ⟨rfl, iff_of_true rfl trivial⟩

/-- Openings of which both or none are `if`s, and that are equal up to places if the proposition
holds. -/
def TwinOpenings (o o' : Opening) (s : Prop) : Prop := o.isCond = o'.isCond ∧ (o.bare = o'.bare ↔ s)

/-- Openings or ends of runs that are twins. -/
def TwinLinks : Position × Opening ⊕ Part → Position × Opening ⊕ Part → Prop → Prop
  | .inl o, .inl o', s => TwinOpenings o.2 o'.2 s
  | .inr x, .inr x', s => Twins x x' s
  | _, _, _ => False

theorem TwinLinks.refl (l : Position × Opening ⊕ Part) : TwinLinks l l True := by
  cases l with
  | inl o => exact ⟨rfl, iff_of_true rfl trivial⟩
  | inr x => exact Twins.refl x

/-- Runs with `if`s at the same places that are equal up to places if the proposition holds. -/
def TwinRuns (r r' : Run) (s : Prop) : Prop := Similar r r' ∧ (r.bare = r'.bare ↔ s)

/-- Alternatives that find an `if` each, as many on both sides, and that are equal up to places if the
proposition holds. -/
structure TwinElses (opened : Nat) (as as' : List Alternative) (s : Prop) : Prop where
  closes : Chain.closes opened as
  similar : List.Forall₂ SimilarElse as as'
  same : as.map Alternative.bare = as'.map Alternative.bare ↔ s

theorem TwinElses.nil (opened : Nat) : TwinElses opened [] [] True := ⟨Chain.closes_nil opened, .nil, by simp⟩

/-! Readers in step. -/

/-- Where the first reader succeeds, the second reads the same tokens, and the third either stops or
reads just what the first does. `P` relates the values of the first two to whether the third succeeds. -/
def InStep (m m' m'' : Reader α) (P : α → α → Prop → Prop) : Prop :=
  ∀ ⦃c a d⦄, m c = .ok (a, d) →
    ∃ a', m' c = .ok (a', d) ∧ P a a' (m'' c = .ok (a, d)) ∧ ∀ r, m'' c = .ok r → r = (a, d)

namespace InStep
variable {m m' m'' : Reader α} {f f' f'' : α → Reader β} {P : α → α → Prop → Prop} {Q : β → β → Prop → Prop}

theorem pure (h : P a a' True) : InStep (Pure.pure a) (Pure.pure a') (Pure.pure a) P := by
  intro c b d hread
  cases hread
  have hthird : ((Pure.pure a : Reader α) c = .ok (a, c)) = True := eq_true rfl
  refine ⟨a', rfl, by rwa [hthird], fun r h => ?_⟩
  cases h
  rfl

theorem stop : InStep Grammar.stop m' m'' P := by
  intro c a d hread
  cases hread

/-- The third reader stops. -/
theorem refused (h : P a a' False) : InStep (Pure.pure a) (Pure.pure a') Grammar.stop P := by
  intro c b d hread
  cases hread
  have hthird : ((Grammar.stop : Reader α) c = .ok (a, c)) = False := eq_false nofun
  exact ⟨a', rfl, by rwa [hthird], nofun⟩

theorem bind (hm : InStep m m' m'' P)
    (hf : ∀ a a' s, P a a' s → InStep (f a) (f' a') (f'' a) fun b b' t => Q b b' (s ∧ t)) :
    InStep (m >>= f) (m' >>= f') (m'' >>= f'') Q := by
  intro c b e hread
  have hbind (m : Reader α) (f : α → Reader β) : (m >>= f) c = m c >>= fun r => f r.1 r.2 := rfl
  rw [hbind] at hread
  cases hfirst : m c with
  | error ts => rw [hfirst] at hread; cases hread
  | ok r =>
    obtain ⟨a, d⟩ := r
    rw [hfirst] at hread
    obtain ⟨a', hread₁, ha, hstrict⟩ := hm hfirst
    obtain ⟨b', hread₂, hb, hstrict'⟩ := hf a a' _ ha hread
    -- the third reader succeeds if both its parts do
    have hthird {r : β × Cursor} (h : (m'' >>= f'') c = .ok r) : m'' c = .ok (a, d) ∧ f'' a d = .ok r := by
      rw [hbind] at h
      cases hc : m'' c with
      | error ts => rw [hc] at h; cases h
      | ok r =>
        rw [hc] at h
        cases hstrict r hc
        exact ⟨rfl, h⟩
    refine ⟨b', ?_, ?_, fun r h => hstrict' r (hthird h).2⟩
    · rw [hbind, hread₁]
      exact hread₂
    · have hiff : ((m'' >>= f'') c = .ok (b, e)) = (m'' c = .ok (a, d) ∧ f'' a d = .ok (b, e)) := by
        refine propext ⟨hthird, fun h => ?_⟩
        rw [hbind, h.1]
        exact h.2
      rw [hiff]
      exact hb

theorem mono {Q : α → α → Prop → Prop} (hm : InStep m m' m'' P) (h : ∀ a a' s, P a a' s → Q a a' s) :
    InStep m m' m'' Q := by
  intro c a d hread
  obtain ⟨a', hread₁, ha, hstrict⟩ := hm hread
  exact ⟨a', hread₁, h _ _ _ ha, hstrict⟩

theorem same (m : Reader α) (h : ∀ a, P a a True) : InStep m m m P := by
  intro c a d hread
  refine ⟨a, hread, ?_, fun r h => by rw [hread] at h; cases h; rfl⟩
  rw [eq_true hread]
  exact h a

/-- A reader that the three have in common. -/
theorem step (m : Reader α) (hf : ∀ a, InStep (f a) (f' a) (f'' a) Q) : InStep (m >>= f) (m >>= f') (m >>= f'') Q := by
  have hm : InStep m m m fun a a' s => a = a' ∧ s := same m fun a => ⟨rfl, trivial⟩
  refine hm.bind fun a a' s ha => ?_
  obtain ⟨rfl, hs⟩ := ha
  simpa only [hs, true_and] using hf a

/-- Places may differ. -/
theorem span {a b a' b' : Position} {f f' f'' : Span → Reader β} (hf : ∀ s s', InStep (f s) (f' s') (f'' s) Q) :
    InStep (span a b >>= f) (span a' b' >>= f') (span a b >>= f'') Q :=
  .step get fun c => hf (.between c.file a b) (.between c.file a' b')

/-! Lists and sequences. -/

section
variable {item item' item'' : Reader α} {value : α → β}
  (hitem : InStep item item' item'' fun x x' s => value x = value x' ↔ s)
include hitem

theorem items (close : Reader Token) (fuel : Nat) :
    InStep (items item close fuel) (items item' close fuel) (items item'' close fuel) fun r r' s =>
      r.1.map value = r'.1.map value ↔ s := by
  induction fuel with
  | zero => exact stop
  | succ fuel ih =>
    refine .bind hitem fun x x' s hx => .step skipBreak fun _ => .step (accept _) fun b => ?_
    cases b with
    | true =>
      refine .step skipBreak fun _ => .bind ih fun r r' t hr => .pure ?_
      simp [hx, hr]
    | false => exact .step close fun t => .pure (by simp [hx])

theorem listed (close : Reader Token) :
    InStep (listed item close) (listed item' close) (listed item'' close) fun r r' s =>
      r.1.map value = r'.1.map value ↔ s :=
  .step remaining fun n => items hitem close n

theorem parenList : InStep (parenList item) (parenList item') (parenList item'') fun r r' s =>
    r.1.map value = r'.1.map value ↔ s := by
  refine .step skipBreak fun _ => .step peek fun l => ?_
  split
  · exact .step take fun t => .pure (by simp)
  · exact .step skipBreak fun _ => .step (expect _) fun t => .pure (by simp)
  · exact listed hitem _

end

theorem sequence {statement statement' statement'' : Reader Part}
    (hstatement : InStep statement statement' statement'' Twins) (fuel : Nat) :
    InStep (sequence statement fuel) (sequence statement' fuel) (sequence statement'' fuel) fun ss ss' s =>
      bareNodes ss = bareNodes ss' ↔ s := by
  induction fuel with
  | zero => exact .pure (by simp)
  | succ fuel ih =>
    refine .step skipSeparators fun _ => .step peek fun l => ?_
    split
    · exact .pure (by simp)
    · exact .pure (by simp)
    · refine .bind hstatement fun x x' s hx => .step peek fun l' => ?_
      split
      · exact .bind ih fun ss ss' t hss => .pure (by simp [bareNodes, hx.2, hss])
      · exact .bind ih fun ss ss' t hss => .pure (by simp [bareNodes, hx.2, hss])
      · exact .pure (by simp [bareNodes, hx.2])

/-! Operands. The readers nested inside brackets are given. -/

section
variable {self self' self'' : Bool → Reader Part} (hself : ∀ b, InStep (self b) (self' b) (self'' b) Twins)
include hself

theorem block : InStep (block (self true)) (block (self' true)) (block (self'' true)) Twins := by
  refine .step (expect _) fun t => .step remaining fun n => .bind (sequence (hself true) n) fun ss ss' s hss =>
    .step (expect _) fun u => .span fun _ _ => .pure ⟨rfl, ?_⟩
  simp [Node.bare, Block.bare, hss]

theorem atom [Text.CharNames] : InStep (atom self) (atom self') (atom self'') Twins := by
  refine .step peek fun l => ?_
  split
  iterate 6 exact .step take fun t => .same _ Twins.refl
  · refine .step take fun t => .step skipBreak fun _ => .bind (hself false) fun x x' s hx => .step skipBreak fun _ =>
      .step (expect _) fun u => .pure ?_
    simpa [Twins] using hx
  · exact block hself
  · exact stop

theorem argument : InStep (argument self) (argument self') (argument self'') fun a a' s => a.bare = a'.bare ↔ s := by
  refine .step get fun c => ?_
  split
  · refine .step take fun _ => .step take fun _ => .step skipBreak fun _ => .bind (hself false) fun x x' s hx =>
      .span fun _ _ => .pure ?_
    simp [Argument.bare, hx.2]
  · refine .bind (hself false) fun x x' s hx => .span fun _ _ => .pure ?_
    simp [Argument.bare, hx.2]

theorem index : InStep (self false) (self' false) (self'' false) fun x x' s => x.node.bare = x'.node.bare ↔ s :=
  (hself false).mono fun _ _ _ h => h.2

theorem postfixed (fuel : Nat) {x x' : Part} (hx : Twins x x' s) :
    InStep (postfixed self fuel x) (postfixed self' fuel x') (postfixed self'' fuel x) fun y y' t =>
      Twins y y' (s ∧ t) := by
  induction fuel generalizing x x' s with
  | zero => exact .pure (by simpa [Twins] using hx)
  | succ fuel ih =>
    have hnext (t : Prop) {y y' : Part} (hy : Twins y y' (s ∧ t)) : InStep (Grammar.postfixed self fuel y)
        (Grammar.postfixed self' fuel y') (Grammar.postfixed self'' fuel y) fun z z' u => Twins z z' (s ∧ t ∧ u) :=
      (ih hy).mono fun z z' u h => by rwa [and_assoc] at h
    refine .step peek fun next => ?_
    split
    · refine .step take fun _ => .bind (parenList (argument hself)) fun r r' t hr => .span fun _ _ => hnext t ?_
      refine ⟨?_, ?_⟩
      · rw [isBlock_called, isBlock_called]
      · rw [called_bare_inj, hx.2, hr]
    · refine .step take fun _ => .step skipBreak fun _ => .bind (listed (index hself) closeBracket) fun r r' t hr =>
        .span fun _ _ => hnext t ?_
      refine ⟨rfl, ?_⟩
      simp [Node.bare, bareNodes_eq_map, Function.comp_def, hx.2, hr]
    · refine .step take fun _ => .step skipBreak fun _ => .bind (listed (index hself) closeDouble) fun r r' t hr =>
        .span fun _ _ => hnext t ?_
      refine ⟨rfl, ?_⟩
      simp [Node.bare, bareNodes_eq_map, Function.comp_def, hx.2, hr]
    · refine .step take fun _ => .step name fun r => .span fun _ _ => ih ⟨rfl, ?_⟩
      simp [Node.bare, hx.2]
    · exact .pure (by simpa [Twins] using hx)

theorem operand [Text.CharNames] : InStep (operand self) (operand self') (operand self'') Twins :=
  .bind (atom hself) fun _ _ _ hx => .step remaining fun n => postfixed hself n hx

end

/-! Operators. -/

theorem binary {l l' r r' : Part} (o : BinaryOp) (hl : Twins l l' s) (hr : Twins r r' t) :
    InStep (binary o l r) (binary o l' r') (binary o l r) fun x x' u => Twins x x' (s ∧ t ∧ u) :=
  .span fun _ _ => .pure ⟨rfl, by simp [Node.bare, hl.2, hr.2]⟩

theorem once {left left' left'' right right' right'' : Reader Part} (op : Lexeme → Option BinaryOp)
    (hleft : InStep left left' left'' Twins) (hright : InStep right right' right'' Twins) :
    InStep (once op left right) (once op left' right') (once op left'' right'') Twins := by
  refine .bind hleft fun l l' s hl => .step (select op) fun found => ?_
  cases found with
  | none => exact .pure (by simpa [Twins] using hl)
  | some found => exact .step skipBreak fun _ => .bind hright fun r r' t hr => binary found.1 hl hr

section
variable {item item' item'' : Reader Part} (op : Lexeme → Option BinaryOp) (hitem : InStep item item' item'' Twins)
include hitem

theorem leftFrom (fuel : Nat) {l l' : Part} (hl : Twins l l' s) :
    InStep (leftFrom op item fuel l) (leftFrom op item' fuel l') (leftFrom op item'' fuel l) fun x x' t =>
      Twins x x' (s ∧ t) := by
  induction fuel generalizing l l' s with
  | zero => exact .pure (by simpa [Twins] using hl)
  | succ fuel ih =>
    refine .step (select op) fun found => ?_
    cases found with
    | none => exact .pure (by simpa [Twins] using hl)
    | some found =>
      refine .step skipBreak fun _ => .bind hitem fun r r' t hr => .bind (binary found.1 hl hr) fun x x' u hx => ?_
      exact (ih hx).mono fun y y' v h => by simpa only [and_assoc] using h

theorem leftGrouped : InStep (leftGrouped op item) (leftGrouped op item') (leftGrouped op item'') Twins :=
  .bind hitem fun _ _ _ hl => .step remaining fun n => leftFrom op hitem n hl

end

theorem leading {item item' item'' : Reader Part → Reader Part} (op : Lexeme → Option UnaryOp)
    (hitem : ∀ {m m' m'' : Reader Part}, InStep m m' m'' Twins → InStep (item m) (item' m') (item'' m'') Twins)
    (fuel : Nat) :
    InStep (leading op item fuel) (leading op item' fuel) (leading op item'' fuel) Twins := by
  induction fuel with
  | zero => exact stop
  | succ fuel ih =>
    refine .step (select op) fun found => ?_
    cases found with
    | none => exact hitem ih
    | some found => exact .bind ih fun x x' s hx => .span fun _ _ => .pure ⟨rfl, by simp [Node.bare, hx.2]⟩

section
variable {self self' self'' : Bool → Reader Part} (hself : ∀ b, InStep (self b) (self' b) (self'' b) Twins)
include hself

theorem signed [Text.CharNames] : InStep (signed self) (signed self') (signed self'') Twins :=
  .step remaining fun n => leading signOp (once powOp (operand hself)) (n + 1)

theorem sum [Text.CharNames] : InStep (sum self) (sum self') (sum self'') Twins :=
  leftGrouped sumOp (leftGrouped productOp (leftGrouped specialOp (leftGrouped rangeOp (signed hself))))

theorem comparison [Text.CharNames] : InStep (comparison self) (comparison self') (comparison self'') Twins :=
  once relationOp (sum hself) (sum hself)

theorem negated [Text.CharNames] : InStep (negated self) (negated self') (negated self'') Twins :=
  .step remaining fun n => leading notOp (fun _ => comparison hself) (n + 1)

theorem disjunction [Text.CharNames] : InStep (disjunction self) (disjunction self') (disjunction self'') Twins :=
  leftGrouped orOp (leftGrouped andOp (negated hself))

/-! Chains. -/

theorem condition : InStep (condition self) (condition self') (condition self'') fun c c' s =>
    c.bare = c'.bare ↔ s := by
  refine .step (expect _) fun _ => .step skipBreak fun _ => .bind (hself false) fun x x' s hx =>
    .step skipBreak fun _ => .step (expect _) fun _ => .step skipBreak fun _ => .pure ?_
  simp [hx.2]

theorem parameter : InStep (parameter self) (parameter self') (parameter self'') fun a a' s =>
    a.bare = a'.bare ↔ s := by
  refine .step name fun r => .step (accept _) fun b => ?_
  cases b with
  | true =>
    refine .step skipBreak fun _ => .bind (hself false) fun x x' s hx => .span fun _ _ => .pure ?_
    simp [Parameter.bare, hx.2]
  | false => exact .span fun _ _ => .pure (by simp [Parameter.bare])

theorem forHeader : InStep (forHeader self) (forHeader self') (forHeader self'') TwinOpenings := by
  refine .step (expect _) fun _ => .step skipBreak fun _ => .step name fun r => .step (expect _) fun _ =>
    .bind (hself false) fun x x' s hx => .step skipBreak fun _ => .step (expect _) fun _ => .step skipBreak fun _ =>
    .span fun _ _ => .pure ⟨rfl, ?_⟩
  simp [Opening.bare, hx.2]

theorem functionHeader : InStep (functionHeader self) (functionHeader self') (functionHeader self'') TwinOpenings := by
  refine .step (expect _) fun _ => .bind (parenList (parameter hself)) fun r r' s hr => .step skipBreak fun _ =>
    .pure ⟨rfl, ?_⟩
  simp [Opening.bare, bareParameters_eq_map, hr]

theorem header (k : Keyword) :
    header self k = none ∧ header self' k = none ∧ header self'' k = none ∨
      ∃ h h' h'', header self k = some h ∧ header self' k = some h' ∧ header self'' k = some h'' ∧
        InStep h h' h'' TwinOpenings := by
  cases k with
  | ifWord =>
    refine .inr ⟨_, _, _, rfl, rfl, rfl, .bind (condition hself) fun c c' s hc => .pure ⟨rfl, ?_⟩⟩
    simp [Opening.bare, hc]
  | whileWord =>
    refine .inr ⟨_, _, _, rfl, rfl, rfl, .bind (condition hself) fun c c' s hc => .pure ⟨rfl, ?_⟩⟩
    simp [Opening.bare, hc]
  | repeatWord => exact .inr ⟨_, _, _, rfl, rfl, rfl, .step skipBreak fun _ => .pure ⟨rfl, by simp⟩⟩
  | forWord => exact .inr ⟨_, _, _, rfl, rfl, rfl, forHeader hself⟩
  | functionWord => exact .inr ⟨_, _, _, rfl, rfl, rfl, functionHeader hself⟩
  | _ => exact .inl ⟨rfl, rfl, rfl⟩

theorem link [Text.CharNames] : InStep (link self) (link self') (link self'') TwinLinks := by
  refine .step peek fun l => ?_
  have hcases : keyword? l >>= Grammar.header self = none ∧ keyword? l >>= Grammar.header self' = none ∧
      keyword? l >>= Grammar.header self'' = none ∨
        ∃ h h' h'', keyword? l >>= Grammar.header self = some h ∧ keyword? l >>= Grammar.header self' = some h' ∧
          keyword? l >>= Grammar.header self'' = some h'' ∧ InStep h h' h'' TwinOpenings := by
    cases keyword? l with
    | none => exact .inl ⟨rfl, rfl, rfl⟩
    | some k => exact header hself k
  split
  · exact .same _ TwinLinks.refl
  · exact .same _ TwinLinks.refl
  · obtain ⟨h, h', h''⟩ | ⟨m, m', m'', h, h', h'', hm⟩ := hcases
    · simp only [h, h', h'']
      refine .bind (disjunction hself) fun x x' s hx => .step (select assignOp) fun found => ?_
      cases found with
      | none => exact .pure (by simpa [TwinLinks, Twins] using hx)
      | some found => exact .step skipBreak fun _ => .pure ⟨rfl, by simp [Opening.bare, hx.2]⟩
    · simp only [h, h', h'']
      exact .step take fun _ => .bind hm fun o o' s ho => .pure (by simpa [TwinLinks, TwinOpenings] using ho)

theorem run [Text.CharNames] (fuel : Nat) {os os' : List (Position × Opening)}
    (hconds : os.map (·.2.isCond) = os'.map (·.2.isCond))
    (hos : (os.map fun o => ((⟨0, 0⟩ : Position), o.2.bare)) = (os'.map fun o => (⟨0, 0⟩, o.2.bare)) ↔ s) :
    InStep (run self fuel os) (run self' fuel os') (run self'' fuel os) fun r r' t => TwinRuns r r' (s ∧ t) := by
  induction fuel generalizing os os' s with
  | zero => exact stop
  | succ fuel ih =>
    refine .bind (link hself) fun l l' t hl => ?_
    match l, l', hl with
    | .inl o, .inl o', ho =>
      refine (ih (s := s ∧ t) ?_ ?_).mono fun r r' u h => by rwa [and_assoc] at h
      · simp [hconds, ho.1]
      · rw [List.map_append, List.map_append, ← hos, ← ho.2]
        exact ⟨fun heq => by simpa using List.append_inj' heq rfl, fun ⟨h₁, h₂⟩ => by simp [h₁, h₂]⟩
    | .inr x, .inr x', hx =>
      refine .pure ⟨⟨hconds, hx.1⟩, ?_⟩
      simp [Run.bare, Part.bare, hos, hx.2]

theorem alternatives [Text.CharNames] (fuel opened : Nat) :
    InStep (alternatives self fuel opened) (alternatives self' fuel opened) (alternatives self'' fuel opened)
      (TwinElses opened) := by
  induction fuel generalizing opened with
  | zero => exact .pure (.nil opened)
  | succ fuel ih =>
    cases opened with
    | zero => exact .pure (.nil 0)
    | succ opened =>
      refine .step get fun c => ?_
      split
      · exact .pure (.nil _)
      · next before _ =>
        refine .step skipBreak fun _ => .step take fun _ => .step (accept _) fun after => .step remaining fun n =>
          .bind (run hself n rfl (iff_of_true rfl trivial)) fun r r' s hr => ?_
        rw [← hr.1.conds_eq]
        refine .bind (ih (opened + r.conds)) fun as as' t has =>
          .pure ⟨has.closes, .cons ⟨rfl, rfl, hr.1⟩ has.similar, ?_⟩
        simp [Alternative.bare, hr.2, has.same]

theorem chainBy [Text.CharNames] {os os' : List (Position × Opening)}
    (hconds : os.map (·.2.isCond) = os'.map (·.2.isCond))
    (hos : (os.map fun o => ((⟨0, 0⟩ : Position), o.2.bare)) = (os'.map fun o => (⟨0, 0⟩, o.2.bare)) ↔ s) :
    InStep (chainBy outermost self os) (chainBy innermost self' os') (chainBy undisputed self'' os) fun x x' t =>
      Twins x x' (s ∧ t) := by
  refine .step remaining fun n => .bind (run hself n hconds hos) fun r r' t hr => .step remaining fun n => ?_
  rw [← hr.1.conds_eq]
  refine .bind (alternatives hself n r.conds) fun as as' u has => .step get fun c => ?_
  have hcompared := Chain.compared_nearest c.file hr.1 has.similar has.closes
  cases hsettled : settled r.conds as with
  | true =>
    have htree : undisputed c.file r as = some (Chain.build c.file r as) := if_pos hsettled
    simp only [htree]
    exact .pure ⟨hcompared.isBlock, by simp [hcompared.same, hr.2, has.same, hsettled, and_assoc]⟩
  | false =>
    have htree : undisputed c.file r as = none := if_neg (by simp [hsettled])
    simp only [htree]
    exact .refused ⟨hcompared.isBlock, by simp [hcompared.same, hsettled]⟩

theorem expressionOfBy [Text.CharNames] (statement : Bool) : InStep (expressionOfBy outermost self statement)
    (expressionOfBy innermost self' statement) (expressionOfBy undisputed self'' statement) Twins := by
  refine .step peek fun l => ?_
  split
  · exact (chainBy hself rfl (iff_of_true rfl trivial)).mono fun x x' s hx => by simpa using hx
  · refine .bind (disjunction hself) fun x x' s hx => .step peek fun l => ?_
    split
    · refine .step take fun _ => .step skipBreak fun _ => chainBy hself rfl ?_
      simp [Opening.bare, hx.2]
    · cases statement with
      | true =>
        refine .step take fun _ => .step skipBreak fun _ => .bind (hself false) fun v v' t hv =>
          .span fun _ _ => .pure ⟨rfl, ?_⟩
        simp [Node.bare, hx.2, hv.2]
      | false => exact .pure (by simpa [Twins] using hx)
    · exact .pure (by simpa [Twins] using hx)

end

theorem expressionBy [Text.CharNames] (depth : Nat) (statement : Bool) : InStep (expressionBy outermost depth statement)
    (expressionBy innermost depth statement) (expressionBy undisputed depth statement) Twins := by
  induction depth generalizing statement with
  | zero => exact stop
  | succ depth ih => exact expressionOfBy ih statement

theorem scriptBy [Text.CharNames] :
    InStep (scriptBy outermost) (scriptBy innermost) (scriptBy undisputed) fun ss ss' s =>
      bareNodes ss = bareNodes ss' ↔ s := by
  refine .step remaining fun n => .bind (sequence (expressionBy (n + 1) true) (n + 1)) fun ss ss' s hss =>
    .step remaining fun m => ?_
  split
  · exact .pure (by simp [hss])
  · exact stop

end InStep

end Grammar

/-- Screen a script and read it, with another way to nest its chains. -/
def Program.parseBy [Text.CharNames] (tree : Grammar.Nesting) (source file : String) : Option Program :=
  match Screen.find source.toList, Grammar.scriptBy tree ⟨Token.cut source.toList, none, file⟩ with
  | none, .ok (body, ⟨_, none, _⟩) => some ⟨extent file (Token.cut source.toList), file, body⟩
  | _, _ => none

theorem Program.parseBy_eq_some_iff [Text.CharNames] {tree : Grammar.Nesting} {source file : String} {p : Program} :
    parseBy tree source file = some p ↔ Screen.find source.toList = none ∧
      ∃ body d, Grammar.scriptBy tree ⟨Token.cut source.toList, none, file⟩ = .ok (body, d) ∧ d.misread = none ∧
        p = ⟨extent file (Token.cut source.toList), file, body⟩ := by
  unfold parseBy
  constructor
  · intro h
    split at h
    · next body tokens file' hfind hread =>
      exact ⟨hfind, body, _, hread, rfl, (Option.some.inj h).symm⟩
    · cases h
  · rintro ⟨hfind, body, ⟨tokens, misread, file'⟩, hread, rfl, rfl⟩
    simp only [hfind, hread]

theorem Program.parseBy_outermost [Text.CharNames] {source file : String} {p : Program}
    (h : parse source file = .ok p) : parseBy Grammar.outermost source file = some p := by
  rw [parseBy_eq_some_iff, Grammar.scriptBy_outermost]
  unfold parse Screen.check at h
  cases hfind : Screen.find source.toList with
  | some found => simp [hfind] at h
  | none =>
    simp only [hfind, ofTokens] at h
    split at h
    · cases h
    · next body d hread =>
      split at h
      · cases h
      · next hmisread => exact ⟨rfl, body, d, hread, hmisread, (Except.ok.inj h).symm⟩

/-- Exactly the scripts in which every `if` before the last `else` of its chain has an `else` are read
with each `else` at the nearest `if`. -/
theorem parse_innermost_iff [Text.CharNames] {source file : String} {p : Program}
    (h : Program.parse source file = .ok p) :
    ∃ q, Program.parseBy Grammar.innermost source file = some q ∧
      (q.bare = p.bare ↔ (Program.parseBy Grammar.undisputed source file).isSome) := by
  obtain ⟨hfind, body, d, hread, hmisread, rfl⟩ := Program.parseBy_eq_some_iff.1 (Program.parseBy_outermost h)
  obtain ⟨body', hread', hsame, hstrict⟩ := Grammar.InStep.scriptBy hread
  refine ⟨_, Program.parseBy_eq_some_iff.2 ⟨hfind, body', d, hread', hmisread, rfl⟩, ?_⟩
  have hbare (body body' : List Node) (s s' : Span) :
      (⟨s, file, body⟩ : Program).bare = (⟨s', file, body'⟩ : Program).bare ↔ bareNodes body' = bareNodes body := by
    simp [Program.bare, eq_comm]
  rw [hbare, hsame, Option.isSome_iff_exists]
  constructor
  · exact fun hstrict => ⟨_, Program.parseBy_eq_some_iff.2 ⟨hfind, body, d, hstrict, hmisread, rfl⟩⟩
  · rintro ⟨q, hq⟩
    obtain ⟨-, body₂, d₂, hread₂, -, -⟩ := Program.parseBy_eq_some_iff.1 hq
    rwa [hstrict _ hread₂] at hread₂

/-- The `if`s before the last `else` have an `else` each, in an argument as well. -/
theorem parse_innermost_settled :
    ∃ p q, Program.parse "if (a) f(if (b) c) else x <- while (d) if (e) if (g) h else i else j" "s" = .ok p ∧
      Program.parseBy Grammar.innermost "if (a) f(if (b) c) else x <- while (d) if (e) if (g) h else i else j" "s" =
        some q ∧ q.bare = p.bare := by
  have hok : (Program.parse "if (a) f(if (b) c) else x <- while (d) if (e) if (g) h else i else j" "s").isOk := by
    decide +kernel
  have hsettled : (Program.parseBy Grammar.undisputed
      "if (a) f(if (b) c) else x <- while (d) if (e) if (g) h else i else j" "s").isSome := by decide +kernel
  cases hp : Program.parse "if (a) f(if (b) c) else x <- while (d) if (e) if (g) h else i else j" "s" with
  | error e => rw [hp] at hok; cases hok
  | ok p =>
    obtain ⟨q, hq, hsame⟩ := parse_innermost_iff hp
    exact ⟨p, q, rfl, hq, hsame.2 hsettled⟩

/-- The `else` goes to the first of two `if`s, and not to the nearest. -/
theorem parse_dangling_else :
    ((Program.parse "if (a) if (b) c else d" "s").toOption.bind fun p => p.print.toOption) =
        some "if (a) \x7b\n  if (b) \x7b\n    c\n  \x7d\n\x7d else \x7b\n  d\n\x7d\n" ∧
      ((Program.parseBy Grammar.innermost "if (a) if (b) c else d" "s").bind fun p => p.print.toOption) =
        some "if (a) \x7b\n  if (b) \x7b\n    c\n  \x7d else \x7b\n    d\n  \x7d\n\x7d\n" := by
  decide +kernel

end Deadwood
