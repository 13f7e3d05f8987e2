import Deadwood.Proofs.Placement
import Deadwood.Proofs.Reserved

/-! Reserved words as targets of assignments. Where a reserved word stands right before an assignment sign, the tree
has an assignment whose target ends in that word, and an assignment to a reserved word is written with nothing but
closing parentheses and line breaks between the two. -/
namespace Deadwood
open Lexeme (assigns opensReserved)

/-! Targets. -/

/-- The literals of reserved words. -/
def Node.isReserved : Node → Bool
  | .boolean .. | .null _ => true
  | _ => false

theorem Node.of_isReserved {n : Node} {q : Prop} (h : n.isReserved = false) (hn : n.isReserved) : q := by
  rw [h] at hn
  cases hn

/-- The node is such a literal, or its last operand is. -/
def Node.endsReserved : Node → Bool
  | .unary _ _ x => x.endsReserved
  | .binary _ _ _ r => r.endsReserved
  | n => n.isReserved

def Node.assignsTo (e : Node → Bool) : Node → Bool
  | .assign _ _ t _ => e t
  | _ => false

/-- The node is no assignment to a target with `e`. -/
def Node.spares (e : Node → Bool) (n : Node) : Bool := !n.assignsTo e

theorem Node.isReserved_bare (n : Node) : n.bare.isReserved = n.isReserved := by
  cases n with
  | cond s c t e? => cases e? <;> rfl
  | jump s k x? => cases x? <;> rfl
  | _ => rfl

theorem Node.endsReserved_bare (n : Node) : n.bare.endsReserved = n.endsReserved := by
  fun_induction Node.endsReserved n with
  | case1 _ _ x ih => exact ih
  | case2 _ _ l r ih => exact ih
  | case3 n hunary hbinary =>
    rw [← n.isReserved_bare]
    cases n with
    | unary s op x => exact absurd rfl (hunary s op x)
    | binary s op l r => exact absurd rfl (hbinary s op l r)
    | cond s c t e? => cases e? <;> rfl
    | jump s k x? => cases x? <;> rfl
    | _ => rfl

theorem Node.spares_bare {e : Node → Bool} (he : ∀ n : Node, e n.bare = e n) (n : Node) :
    n.bare.spares e = n.spares e := by
  cases n with
  | assign s op t v => simp only [Node.bare, spares, assignsTo, he]
  | cond s c t e? => cases e? <;> rfl
  | jump s k x? => cases x? <;> rfl
  | _ => rfl

section
variable {e : Node → Bool}

theorem Node.all_asBlock_iff {n : Node} : n.asBlock.all (Node.spares e) ↔ n.all (Node.spares e) := by
  refine ⟨fun h => ?_, Node.all_asBlock⟩
  cases n with
  | block b => simpa [Node.asBlock, Node.all, spares, assignsTo] using h
  | _ => simpa [Node.asBlock, Block.all, allNodes] using h

theorem Grammar.all_called {f : Node} {args : List Argument} {s : Span} :
    (called f args s).all (Node.spares e) ↔ f.all (Node.spares e) ∧ allArguments (Node.spares e) args := by
  unfold called
  split <;> simp [Node.all, Node.spares, Node.assignsTo, allArguments]

/-! Chains. -/

def Opening.Spares (e : Node → Bool) : Opening → Prop
  | .cond c | .whileLoop c => c.all (Node.spares e)
  | .repeatLoop => True
  | .forLoop _ x => x.all (Node.spares e)
  | .function ps => allParameters (Node.spares e) ps
  | .assign _ t => e t = false ∧ t.all (Node.spares e)

def Run.Spares (e : Node → Bool) (r : Run) : Prop :=
  (∀ o ∈ r.openings, o.2.Spares e) ∧ r.leaf.node.all (Node.spares e)

theorem Opening.all_close {o : Opening} {s : Span} {n : Node} :
    (o.close s n).all (Node.spares e) ↔ o.Spares e ∧ n.all (Node.spares e) := by
  cases o with
  | assign op t => simp [close, Spares, Node.all, Node.spares, Node.assignsTo]
  | _ => simp [close, Spares, Node.all, ← Node.all_asBlock_iff (n := n), Node.spares, Node.assignsTo]

theorem Run.spares_opened {r : Run} {start : Position} {o : Opening} :
    (r.opened start o).Spares e ↔ o.Spares e ∧ r.Spares e := by
  simp [Run.Spares, Run.opened, and_assoc]

end

namespace Chain

/-- If an `else` is left over, the `if` that would close it can own one. -/
theorem exists_owned {k : Nat} {as : List Alternative} (h : closes (k + 1) as) (hk : closes k as = false) :
    ∃ before a after, as = before ++ a :: after ∧ closes k before ∧ closes a.run.conds after := by
  induction as generalizing k with
  | nil => cases k <;> cases hk
  | cons a as ih =>
    cases k with
    | zero => exact ⟨[], a, as, rfl, rfl, by simpa [closes] using h⟩
    | succ k =>
      rw [closes] at h hk
      rw [Nat.add_right_comm] at h
      obtain ⟨before, b, after, rfl, hbefore, hafter⟩ := ih h hk
      exact ⟨a :: before, b, after, rfl, hbefore, hafter⟩

theorem closes_of_owner? {k : Nat} {as : List Alternative} (h : closes (k + 1) as) (hnone : owner? k as = none) :
    closes k as := by
  cases hk : closes k as with
  | true => rfl
  | false =>
    obtain ⟨before, a, after, rfl, hbefore, hafter⟩ := exists_owned h hk
    have hmem := mem_owners hafter [] before hbefore
    have hbefore := prefer_ne_nil (p := (·.2.1.breakBefore)) (List.ne_nil_of_mem hmem)
    have hne := prefer_ne_nil (p := (·.2.1.breakAfter)) hbefore
    exact absurd (List.getLast?_eq_none_iff.1 hnone) hne

/-- Every part of a chain stands in its tree. -/
theorem all_nest_iff {e : Node → Bool} (file : String) {fuel : Nat} {r : Run} {as : List Alternative}
    (hfuel : depth r as ≤ fuel) (hcloses : closes r.conds as) :
    (nest file fuel r as).node.all (Node.spares e) ↔ r.Spares e ∧ ∀ a ∈ as, a.run.Spares e := by
  induction fuel generalizing r as with
  | zero =>
    cases r using Run.openedCases with
    | leaf x =>
      obtain rfl := eq_nil_of_closes hcloses
      simp [nest, Run.Spares]
    | opened start o r => simp [depth_opened] at hfuel
  | succ fuel ih =>
    cases r using Run.openedCases with
    | leaf x =>
      obtain rfl := eq_nil_of_closes hcloses
      simp [nest, Run.Spares]
    | opened start o r =>
      rw [depth_opened] at hfuel
      rw [conds_opened] at hcloses
      rw [Run.spares_opened]
      obtain hnone | ⟨c, before, a, after, rfl, hfound⟩ := owned_cases o r as
      · have hinner : closes r.conds as := by
          cases ho : o.isCond with
          | true =>
            rw [ho] at hcloses
            exact closes_of_owner? hcloses (hnone ho)
          | false => simpa [ho] using hcloses
        rw [nest_unowned hnone, Opening.all_close, ih (by omega) hinner, and_assoc]
      · obtain ⟨rfl, hbefore, hafter⟩ := of_owner? hfound
        rw [depth_append] at hfuel
        have hyes : (nest file fuel r before).node.all (Node.spares e) ↔ _ := ih (by omega) hbefore
        have hno : (nest file fuel a.run after).node.all (Node.spares e) ↔ _ := ih (by omega) hafter
        rw [nest_owned hfound]
        simp only [Node.all, Bool.and_eq_true, Node.all_asBlock_iff, hyes, hno, Opening.Spares, List.forall_mem_append,
          List.forall_mem_cons]
        simp only [Node.spares, Node.assignsTo, Bool.not_false, true_and]
        tauto

end Chain

namespace Grammar

theorem all_built_iff {e : Node → Bool} (he : ∀ n : Node, e n.bare = e n) {r : Run} {as : List Alternative}
    (h : Chain.closes r.conds as) :
    (built r as).all (Node.spares e) ↔ r.Spares e ∧ ∀ a ∈ as, a.run.Spares e := by
  rw [built, Node.all_bare (Node.spares_bare he)]
  exact Chain.all_nest_iff "" (Nat.le_refl _) h

theorem assigns_of_begins {l : Lexeme} (h : begins k l) : assigns l = false := by
  cases l with
  | assign | equals => simp [begins, signOp] at h
  | _ => rfl

/-- No assignment sign comes first. -/
def unassigned (ts : List Lexeme) : Prop := ts.head?.any assigns = false

theorem Begun.unassigned (h : Begun k ts rest) : unassigned ts := by
  obtain ⟨l, r, rfl, hl, -⟩ := h
  exact assigns_of_begins hl

theorem unassigned_gap {ts : List Lexeme} (h : unassigned ts) (g : Bool) : unassigned (gap g ts) := by
  cases g with
  | true => rfl
  | false => exact h

end Grammar

/-- Some end of the lexemes has the property. -/
def Lexeme.anywhere (p : List Lexeme → Bool) : List Lexeme → Bool
  | [] => false
  | l :: ts => p (l :: ts) || anywhere p ts

def Lexeme.isKeyword : Lexeme → Bool
  | .keyword _ => true
  | _ => false

namespace Grammar
open Lexeme (anywhere)

/-- A reserved word stands right before an assignment sign. -/
def meetsWord (ts : List Lexeme) : Bool := anywhere opensReserved ts

theorem meetsWord_cons {l : Lexeme} (hl : l.isKeyword = false) (ts : List Lexeme) :
    meetsWord (l :: ts) = meetsWord ts := by
  cases l with
  | keyword => cases hl
  | _ => rfl

theorem meetsWord_keyword {ts : List Lexeme} (h : unassigned ts) (k : Keyword) :
    meetsWord (.keyword k :: ts) = meetsWord ts := by
  have hopens : opensReserved (.keyword k :: ts) = false := h
  rw [meetsWord, anywhere, hopens]
  rfl

theorem meetsWord_gap (g : Bool) (ts : List Lexeme) : meetsWord (gap g ts) = meetsWord ts := by
  cases g with
  | true => exact meetsWord_cons rfl ts
  | false => rfl

theorem meetsWord_header (k : Keyword) (ts : List Lexeme) :
    meetsWord (.keyword k :: .openParen :: ts) = meetsWord ts := rfl

theorem isKeyword_of_argumentText? {l : Lexeme} {text : String} (h : argumentText? l = some text) :
    l.isKeyword = false := by
  cases l with
  | keyword => cases h
  | _ => rfl

theorem isKeyword_of_separates {l : Lexeme} (h : separates l) : l.isKeyword = false := by
  cases l with
  | keyword => cases h
  | _ => rfl

theorem assigns_of_separates {l : Lexeme} (h : separates l) : assigns l = false := by
  cases l with
  | assign | equals => cases h
  | _ => rfl

theorem isKeyword_of_signOp {l : Lexeme} {o : UnaryOp} (h : signOp l = some o) : l.isKeyword = false := by
  cases l with
  | keyword => cases h
  | _ => rfl

/-- A closing mark with line breaks around it is no assignment sign. -/
theorem unassigned_close {l : Lexeme} (hl : assigns l = false) (g : Bool) (ts : List Lexeme) :
    unassigned (gap g (l :: ts)) := by
  have hts : unassigned (l :: ts) := hl
  exact unassigned_gap hts g

/-- The assignments of an item. -/
def Item.Spares (e : Node → Bool) : (i : Item) → i.Value → Prop
  | .argument, a => a.value.all (Node.spares e)
  | .parameter, a => ∀ d, a.default? = some d → d.all (Node.spares e)
  | .index, x => x.all (Node.spares e)

/-- No word meets an assignment sign in what is used up, if the tree has no assignment to a target that ends in one.
An operand may do so with what follows it, if it does not end in a reserved word. -/
def Phrase.Keeps : (p : Phrase) → List Lexeme → p.Value → List Lexeme → Prop
  | .statements, ts, ss, rest => allNodes (Node.spares Node.endsReserved) ss → unassigned rest →
    meetsWord ts = meetsWord rest
  | .expression _, ts, x, rest => x.all (Node.spares Node.endsReserved) → unassigned rest →
    meetsWord ts = meetsWord rest
  | .layer _, ts, x, rest => x.all (Node.spares Node.endsReserved) → (x.endsReserved = false ∨ unassigned rest) →
    meetsWord ts = meetsWord rest
  | .tail _ l, ts, x, rest => x.all (Node.spares Node.endsReserved) → l.all (Node.spares Node.endsReserved) ∧
    ((x.endsReserved = false ∨ unassigned rest) →
      (l.endsReserved = false ∨ unassigned ts) ∧ meetsWord ts = meetsWord rest)
  | .opening, ts, o, rest => o.Spares Node.endsReserved → unassigned rest → meetsWord ts = meetsWord rest
  | .run, ts, r, rest => r.Spares Node.endsReserved → unassigned rest → meetsWord ts = meetsWord rest
  | .alternatives _, ts, as, rest => (∀ a ∈ as, a.run.Spares Node.endsReserved) → unassigned rest →
    unassigned ts ∧ meetsWord ts = meetsWord rest
  | .item i, ts, x, rest => i.Spares Node.endsReserved x → unassigned rest → meetsWord ts = meetsWord rest
  | .list i, ts, xs, rest => (∀ x ∈ xs, i.Spares Node.endsReserved x) → unassigned rest → meetsWord ts = meetsWord rest
  | .enclosed i, ts, xs, rest => (∀ x ∈ xs, i.Spares Node.endsReserved x) → meetsWord ts = meetsWord rest

theorem endsReserved_of_constant? {x : Node} (h : constant? k = some x) : x.endsReserved := by
  cases k with
  | trueWord | falseWord | nullWord =>
    cases h
    rfl
  | _ => cases h

theorem closes_after [Text.CharNames] {o : Opening} (ho : o.isCond = false)
    (h : Derives (.alternatives r.conds) ts as rest) : Chain.closes (after o r).conds as := by
  rw [conds_after, ho]
  exact h.closes

theorem Derives.keeps [Text.CharNames] (h : Derives p ts v rest) : p.Keeps ts v rest := by
  induction h with
  | done => exact fun _ _ => rfl
  | separator hl _ ih => exact fun hss hrest => (meetsWord_cons (isKeyword_of_separates hl) _).trans (ih hss hrest)
  | last _ ih =>
    intro hss hrest
    simp only [allNodes, Bool.and_true] at hss
    exact ih hss hrest
  | next _ hl _ ihs ihss =>
    intro hss hrest
    simp only [allNodes, Bool.and_eq_true] at hss
    exact (ihs hss.1 (assigns_of_separates hl)).trans (ihss hss.2 hrest)
  | operation _ ih => exact fun hx hrest => ih hx (.inr hrest)
  | control _ _ has ihr ihas =>
    intro hx hrest
    obtain ⟨hrun, hruns⟩ := (all_built_iff Node.endsReserved_bare has.closes).1 hx
    obtain ⟨hmid, heq⟩ := ihas hruns hrest
    exact (ihr hrun hmid).trans heq
  | assigned _ _ has iht ihr ihas =>
    intro hx hrest
    obtain ⟨hrun, hruns⟩ := (all_built_iff Node.endsReserved_bare (closes_after rfl has)).1 hx
    obtain ⟨⟨hends, ht⟩, hrun⟩ := Run.spares_opened.1 hrun
    obtain ⟨hmid, heq⟩ := ihas hruns hrest
    rw [iht ht (.inl hends), meetsWord_cons rfl, meetsWord_gap, ihr hrun hmid, heq]
  | equals _ _ iht ihv =>
    intro hx hrest
    simp only [Node.all, Node.spares, Node.assignsTo, Bool.and_eq_true, Bool.not_eq_true'] at hx
    rw [iht hx.1.2 (.inl hx.1.1), meetsWord_cons rfl, meetsWord_gap, ihv hx.2 hrest]
  | leaf _ ih => exact fun hr hrest => ih hr.2 (.inr hrest)
  | leave => exact fun _ hrest => meetsWord_keyword hrest _
  | opened _ hr iho ihr =>
    intro hrun hrest
    obtain ⟨ho, hrun⟩ := Run.spares_opened.1 hrun
    exact (iho ho hr.advances.unassigned).trans (ihr hrun hrest)
  | noElse => exact fun _ hrest => ⟨hrest, rfl⟩
  | orElse hr _ ihr ihas =>
    intro hruns hrest
    obtain ⟨hrun, hruns⟩ := List.forall_mem_cons.1 hruns
    obtain ⟨hmid, heq⟩ := ihas hruns hrest
    refine ⟨unassigned_close rfl _ _, ?_⟩
    rw [meetsWord_gap, meetsWord_keyword (unassigned_gap hr.advances.unassigned _), meetsWord_gap, ihr hrun hmid, heq]
  | cond _ ih | whileLoop _ ih =>
    intro ho _
    rw [meetsWord_header, meetsWord_gap, ih ho (unassigned_close rfl _ _), meetsWord_gap,
      meetsWord_cons rfl, meetsWord_gap]
  | repeatLoop =>
    intro _ hrest
    rw [meetsWord_keyword (unassigned_gap hrest _), meetsWord_gap]
  | forLoop hl hx ih =>
    intro ho _
    rw [meetsWord_header, meetsWord_gap,
      meetsWord_cons (isKeyword_of_argumentText? (argumentText?_of_name? hl)), meetsWord_keyword hx.advances.unassigned,
      ih ho (unassigned_close rfl _ _), meetsWord_gap, meetsWord_cons rfl, meetsWord_gap]
  | function _ ih =>
    intro ho _
    rw [meetsWord_header, ih (allParameters_iff.1 ho), meetsWord_gap]
  | assign _ ih =>
    intro ho _
    rw [ih ho.2 (.inl ho.1), meetsWord_cons rfl, meetsWord_gap]
  | positional _ ih | index _ ih => exact fun hx hrest => ih hx hrest
  | named hl _ ih =>
    intro hx hrest
    rw [meetsWord_cons (isKeyword_of_argumentText? hl), meetsWord_cons rfl, meetsWord_gap, ih hx hrest]
  | plain hl => exact fun _ _ => meetsWord_cons (isKeyword_of_argumentText? (argumentText?_of_name? hl)) _
  | defaulted hl _ ih =>
    intro hx hrest
    rw [meetsWord_cons (isKeyword_of_argumentText? (argumentText?_of_name? hl)), meetsWord_cons rfl, meetsWord_gap,
      ih (hx _ rfl) hrest]
  | single _ ih => exact fun hx hrest => ih (List.forall_mem_singleton.1 hx) hrest
  | comma _ _ ihx ihxs =>
    intro hxs hrest
    obtain ⟨hx, hxs⟩ := List.forall_mem_cons.1 hxs
    rw [ihx hx (unassigned_close rfl _ _), meetsWord_gap, meetsWord_cons rfl, meetsWord_gap, ihxs hxs hrest]
  | empty =>
    intro _
    rw [meetsWord_gap, meetsWord_gap, meetsWord_cons rfl]
  | filled _ ih =>
    intro hxs
    rw [meetsWord_gap, ih hxs (unassigned_close rfl _ _), meetsWord_gap, meetsWord_cons rfl]
  | tighter _ _ ih => exact ih
  | grouped _ _ _ ihl ihx =>
    intro hx hends
    obtain ⟨hl, htail⟩ := ihx hx
    obtain ⟨hlends, heq⟩ := htail hends
    exact (ihl hl hlends).trans heq
  | related _ _ ihl ihr | power _ _ ihl ihr =>
    intro hx hends
    simp only [Node.all, Bool.and_eq_true] at hx
    rw [ihl hx.1.2 (.inr rfl), meetsWord_cons rfl, meetsWord_gap, ihr hx.2 hends]
  | negated _ ih =>
    intro hx hends
    simp only [Node.all, Bool.and_eq_true] at hx
    rw [meetsWord_cons rfl, ih hx.2 hends]
  | signed hl _ ih =>
    intro hx hends
    simp only [Node.all, Bool.and_eq_true] at hx
    rw [meetsWord_cons (isKeyword_of_signOp hl), ih hx.2 hends]
  | stop => exact fun hx => ⟨hx, fun hends => ⟨hends, rfl⟩⟩
  | operator _ _ _ ihr ihx =>
    intro hx
    obtain ⟨hbinary, htail⟩ := ihx hx
    simp only [Node.all, Bool.and_eq_true] at hbinary
    refine ⟨hbinary.1.2, fun hends => ⟨.inr rfl, ?_⟩⟩
    obtain ⟨hright, heq⟩ := htail hends
    rw [meetsWord_cons rfl, meetsWord_gap, ihr hbinary.2 hright, heq]
  | call _ _ ihargs ihx =>
    intro hx
    obtain ⟨hcalled, htail⟩ := ihx hx
    obtain ⟨hl, hargs⟩ := all_called.1 hcalled
    refine ⟨hl, fun hends => ⟨.inr rfl, ?_⟩⟩
    rw [meetsWord_cons rfl, ihargs (allArguments_iff.1 hargs), (htail hends).2]
  | brackets _ _ ihxs ihx =>
    intro hx
    obtain ⟨hindex, htail⟩ := ihx hx
    simp only [Node.all, Bool.and_eq_true] at hindex
    refine ⟨hindex.1.2, fun hends => ⟨.inr rfl, ?_⟩⟩
    rw [meetsWord_cons rfl, meetsWord_gap, ihxs (allNodes_iff.1 hindex.2) (unassigned_close rfl _ _), meetsWord_gap,
      meetsWord_cons rfl, (htail hends).2]
  | doubleBrackets _ _ ihxs ihx =>
    intro hx
    obtain ⟨hindex, htail⟩ := ihx hx
    simp only [Node.all, Bool.and_eq_true] at hindex
    refine ⟨hindex.1.2, fun hends => ⟨.inr rfl, ?_⟩⟩
    rw [meetsWord_cons rfl, meetsWord_gap, ihxs (allNodes_iff.1 hindex.2) (unassigned_close rfl _ _), meetsWord_gap,
      meetsWord_cons rfl, meetsWord_cons rfl, (htail hends).2]
  | member hm _ ih =>
    intro hx
    obtain ⟨hmember, htail⟩ := ih hx
    simp only [Node.all, Bool.and_eq_true] at hmember
    refine ⟨hmember.2, fun hends => ⟨.inr rfl, ?_⟩⟩
    rw [meetsWord_cons rfl, meetsWord_cons (isKeyword_of_argumentText? (argumentText?_of_name? hm)), (htail hends).2]
  | number | string | name => exact fun _ _ => meetsWord_cons rfl _
  | constant hk =>
    intro _ hends
    refine meetsWord_keyword (hends.resolve_left ?_) _
    simp [endsReserved_of_constant? hk]
  | paren _ ih =>
    intro hx _
    rw [meetsWord_cons rfl, meetsWord_gap, ih hx (unassigned_close rfl _ _), meetsWord_gap, meetsWord_cons rfl]
  | block _ ih =>
    intro hx _
    simp only [Node.all, Block.all, Bool.and_eq_true] at hx
    rw [meetsWord_cons rfl, ih hx.2 rfl, meetsWord_cons rfl]

/-- A reserved word right before an assignment sign belongs to a target. -/
theorem not_spares_of_meetsWord [Text.CharNames] {ss : List Node} (h : Derives .statements ts ss [])
    (hts : meetsWord ts) : allNodes (Node.spares Node.endsReserved) ss = false := by
  cases hss : allNodes (Node.spares Node.endsReserved) ss with
  | false => rfl
  | true => exact absurd (hts.symm.trans (h.keeps hss rfl)) nofun

/-! Words as targets, in parentheses or not. -/

/-- What may stand between a target and its assignment sign. -/
def closesTarget : Lexeme → Bool
  | .newline | .closeParen => true
  | _ => false

def assignsBehind (ts : List Lexeme) : Bool := (ts.dropWhile closesTarget).head?.any assigns

def opensTarget : List Lexeme → Bool
  | .keyword _ :: ts => assignsBehind ts
  | _ => false

/-- Some reserved word stands before an assignment sign, closing parentheses and line breaks apart. -/
def targetsWord (ts : List Lexeme) : Bool := anywhere opensTarget ts

theorem assignsBehind_close (g : Bool) (ts : List Lexeme) :
    assignsBehind (gap g (.closeParen :: ts)) = assignsBehind ts := by
  cases g <;> rfl

/-- Lexemes without such a word. -/
def Free (ts : List Lexeme) : Prop := targetsWord ts = false

namespace Free

theorem cons_iff : Free (l :: ts) ↔ opensTarget (l :: ts) = false ∧ Free ts := by
  rw [Free, targetsWord, anywhere, Bool.or_eq_false_iff]
  rfl

theorem tail (h : Free (l :: ts)) : Free ts := (cons_iff.1 h).2

theorem suffix (h : Free ts) (hrest : rest <:+ ts) : Free rest := by
  obtain ⟨front, rfl⟩ := hrest
  induction front with
  | nil => exact h
  | cons l front ih => exact ih h.tail

theorem gap (h : Free (Grammar.gap g ts)) : Free ts := h.suffix (suffix_gap List.suffix_rfl)

end Free

/-- The tree has no assignment to a reserved word, and is one only if no assignment sign follows. -/
def Phrase.Avoids : (p : Phrase) → List Lexeme → p.Value → List Lexeme → Prop
  | .statements, _, ss, _ => allNodes (Node.spares Node.isReserved) ss
  | .expression _, _, x, rest | .layer _, _, x, rest =>
    x.all (Node.spares Node.isReserved) ∧ (x.isReserved → assignsBehind rest = false)
  | .tail _ l, ts, x, rest => l.all (Node.spares Node.isReserved) →
    x.all (Node.spares Node.isReserved) ∧ (x.isReserved → l = x ∧ ts = rest)
  | .opening, _, o, _ => o.Spares Node.isReserved
  | .run, _, r, _ => r.Spares Node.isReserved
  | .alternatives _, _, as, _ => ∀ a ∈ as, a.run.Spares Node.isReserved
  | .item i, _, x, _ => i.Spares Node.isReserved x
  | .list i, _, xs, _ | .enclosed i, _, xs, _ => ∀ x ∈ xs, i.Spares Node.isReserved x

theorem isReserved_close (o : Opening) (s : Span) (n : Node) : (o.close s n).isReserved = false := by cases o <;> rfl

theorem isReserved_called (f : Node) (args : List Argument) (s : Span) : (called f args s).isReserved = false := by
  unfold called
  split <;> rfl

/-- The tree of a chain with openings is no reserved word. -/
theorem isReserved_built_after (o : Opening) (r : Run) (as : List Alternative) :
    (built (after o r) as).isReserved = false := by
  rw [built, Node.isReserved_bare, Chain.build, after, Chain.depth_opened]
  obtain hnone | ⟨c, before, a, rest, rfl, hfound⟩ := Chain.owned_cases o r as
  · rw [Chain.nest_unowned hnone]
    exact isReserved_close ..
  · rw [Chain.nest_owned hfound]
    rfl

theorem isReserved_of_control [Text.CharNames] {as : List Alternative} (hts : startsControl ts.head?)
    (h : Derives .run ts r rest) : (built r as).isReserved = false := by
  cases h with
  | leaf hx =>
    obtain ⟨l, t, rfl, hl, -⟩ := hx.advances
    cases l with
    | keyword k =>
      cases k with
      | trueWord | falseWord | nullWord => cases hts
      | _ => cases hl
    | _ => cases hts
  | @leave k j _ hk =>
    have hbuilt : built (ending (.jump .blank j none)) as = .jump .blank j none := by
      rw [built, Chain.build]
      cases Chain.depth (ending (.jump .blank j none)) as <;> rfl
    rw [hbuilt]
    rfl
  | opened => exact isReserved_built_after ..

/-- A target is no reserved word, if none is before an assignment sign. -/
theorem isReserved_of_assigns {t : Node} {l : Lexeme} {rest : List Lexeme} (hl : assigns l)
    (h : t.isReserved → assignsBehind (l :: rest) = false) : t.isReserved = false := by
  have hbehind : assignsBehind (l :: rest) = true := by
    cases l with
    | assign | equals => rfl
    | _ => cases hl
  cases ht : t.isReserved with
  | false => rfl
  | true => exact absurd (hbehind.symm.trans (h ht)) nofun

theorem spares_after_assign (op : AssignOp) {t : Node} {r : Run} (ht : t.isReserved = false)
    (hall : t.all (Node.spares Node.isReserved)) (hr : r.Spares Node.isReserved) :
    (after (.assign op t) r).Spares Node.isReserved := Run.spares_opened.2 ⟨⟨ht, hall⟩, hr⟩

/-- What stands behind an operand makes it no reserved word. -/
theorem avoids_tail {l m x : Node} {ts mid rest : List Lexeme} (hm : m.isReserved = false)
    (h : (Phrase.tail k m).Avoids mid x rest) (hall : m.all (Node.spares Node.isReserved)) :
    x.all (Node.spares Node.isReserved) ∧ (x.isReserved → l = x ∧ ts = rest) := by
  refine ⟨(h hall).1, fun hreserved => ?_⟩
  obtain ⟨rfl, -⟩ := (h hall).2 hreserved
  exact Node.of_isReserved hm hreserved

theorem Derives.avoids [Text.CharNames] (h : Derives p ts v rest) : Free ts → p.Avoids ts v rest := by
  induction h with
  | done => exact fun _ => rfl
  | separator _ _ ih => exact fun hts => ih hts.tail
  | last _ ih =>
    intro hts
    simp only [Phrase.Avoids, allNodes, (ih hts).1, Bool.and_self]
  | next hs _ _ ihs ihss =>
    intro hts
    have hss : allNodes (Node.spares Node.isReserved) _ := ihss (hts.suffix hs.suffix)
    simp only [Phrase.Avoids, allNodes, (ihs hts).1, hss, Bool.and_self]
  | operation _ ih => exact ih
  | control hstart hr has ihr ihas =>
    intro hts
    refine ⟨(all_built_iff Node.isReserved_bare has.closes).2 ⟨ihr hts, ihas (hts.suffix hr.suffix)⟩, ?_⟩
    exact Node.of_isReserved (isReserved_of_control hstart hr)
  | @assigned _ _ op _ _ _ _ _ _ _ ht hr has iht ihr ihas =>
    intro hts
    have hmid := (hts.suffix ht.suffix).tail.gap
    have hrun := spares_after_assign op (isReserved_of_assigns rfl (iht hts).2) (iht hts).1 (ihr hmid)
    refine ⟨(all_built_iff Node.isReserved_bare (closes_after rfl has)).2 ⟨hrun, ihas (hmid.suffix hr.suffix)⟩, ?_⟩
    exact Node.of_isReserved (isReserved_built_after ..)
  | equals ht _ iht ihv =>
    intro hts
    have hv := ihv (hts.suffix ht.suffix).tail.gap
    have htarget := isReserved_of_assigns rfl (iht hts).2
    refine ⟨?_, Node.of_isReserved rfl⟩
    simp only [Node.all, Node.spares, Node.assignsTo, htarget, (iht hts).1, hv.1, Bool.not_false, Bool.and_self]
  | leaf _ ih => exact fun hts => ⟨List.forall_mem_nil _, (ih hts).1⟩
  | leave => exact fun _ => ⟨List.forall_mem_nil _, rfl⟩
  | opened ho _ iho ihr => exact fun hts => Run.spares_opened.2 ⟨iho hts, ihr (hts.suffix ho.suffix)⟩
  | noElse => exact fun _ => List.forall_mem_nil _
  | orElse hr _ ihr ihas =>
    intro hts
    have hts := hts.gap.tail.gap
    exact List.forall_mem_cons.2 ⟨ihr hts, ihas (hts.suffix hr.suffix)⟩
  | cond _ ih | whileLoop _ ih => exact fun hts => (ih hts.tail.tail.gap).1
  | repeatLoop => exact fun _ => trivial
  | forLoop _ _ ih => exact fun hts => (ih hts.tail.tail.gap.tail.tail).1
  | function _ ih => exact fun hts => allParameters_iff.2 (ih hts.tail.tail)
  | assign _ ih => exact fun hts => ⟨isReserved_of_assigns rfl (ih hts).2, (ih hts).1⟩
  | positional _ ih | index _ ih => exact fun hts => (ih hts).1
  | named _ _ ih => exact fun hts => (ih hts.tail.tail.gap).1
  | plain =>
    intro _ d hd
    cases hd
  | defaulted _ _ ih =>
    intro hts d hd
    cases hd
    exact (ih hts.tail.tail.gap).1
  | single _ ih => exact fun hts => List.forall_mem_singleton.2 (ih hts)
  | comma hx _ ihx ihxs =>
    intro hts
    exact List.forall_mem_cons.2 ⟨ihx hts, ihxs (hts.suffix hx.suffix).gap.tail.gap⟩
  | empty => exact fun _ => List.forall_mem_nil _
  | filled _ ih => exact fun hts => ih hts.gap
  | tighter _ _ ih => exact ih
  | grouped _ hl _ ihl ihx =>
    intro hts
    obtain ⟨hx, hword⟩ := ihx (hts.suffix hl.suffix) (ihl hts).1
    refine ⟨hx, fun hreserved => ?_⟩
    obtain ⟨rfl, rfl⟩ := hword hreserved
    exact (ihl hts).2 hreserved
  | related hl _ ihl ihr | power hl _ ihl ihr =>
    intro hts
    have hr := ihr (hts.suffix hl.suffix).tail.gap
    refine ⟨?_, Node.of_isReserved rfl⟩
    simp only [Node.all, Node.spares, Node.assignsTo, (ihl hts).1, hr.1, Bool.not_false, Bool.and_self]
  | negated _ ih | signed _ _ ih =>
    intro hts
    have hx := ih hts.tail
    refine ⟨?_, Node.of_isReserved rfl⟩
    simp only [Node.all, Node.spares, Node.assignsTo, hx.1, Bool.not_false, Bool.and_self]
  | stop => exact fun _ hl => ⟨hl, fun _ => ⟨rfl, rfl⟩⟩
  | operator _ hr _ ihr ihx =>
    intro hts hl
    have hright := ihr hts.tail.gap
    refine avoids_tail rfl (ihx (hts.tail.gap.suffix hr.suffix)) ?_
    simp only [Node.all, Node.spares, Node.assignsTo, hl, hright.1, Bool.not_false, Bool.and_self]
  | call hargs _ ihargs ihx =>
    intro hts hl
    refine avoids_tail (isReserved_called ..) (ihx (hts.tail.suffix hargs.suffix)) ?_
    exact all_called.2 ⟨hl, allArguments_iff.2 (ihargs hts.tail)⟩
  | brackets hxs _ ihxs ihx =>
    intro hts hl
    have hindices := allNodes_iff.2 (ihxs hts.tail.gap)
    refine avoids_tail rfl (ihx (hts.tail.gap.suffix hxs.suffix).gap.tail) ?_
    simp only [Node.all, Node.spares, Node.assignsTo, hl, hindices, Bool.not_false, Bool.and_self]
  | doubleBrackets hxs _ ihxs ihx =>
    intro hts hl
    have hindices := allNodes_iff.2 (ihxs hts.tail.gap)
    refine avoids_tail rfl (ihx (hts.tail.gap.suffix hxs.suffix).gap.tail.tail) ?_
    simp only [Node.all, Node.spares, Node.assignsTo, hl, hindices, Bool.not_false, Bool.and_self]
  | member _ _ ih =>
    intro hts hl
    refine avoids_tail rfl (ih hts.tail.tail) ?_
    simp only [Node.all, Node.spares, Node.assignsTo, hl, Bool.not_false, Bool.and_self]
  | number | string | name => exact fun _ => ⟨rfl, Node.of_isReserved rfl⟩
  | @constant k x _ hk =>
    intro hts
    refine ⟨?_, fun _ => (Free.cons_iff.1 hts).1⟩
    cases k with
    | trueWord | falseWord | nullWord =>
      cases hk
      rfl
    | _ => cases hk
  | paren _ ih =>
    intro hts
    obtain ⟨hx, hword⟩ := ih hts.tail.gap
    rw [assignsBehind_close] at hword
    exact ⟨hx, hword⟩
  | block _ ih =>
    intro hts
    have hss : allNodes (Node.spares Node.isReserved) _ := ih hts.tail
    refine ⟨?_, Node.of_isReserved rfl⟩
    simp only [Node.all, Block.all, Node.spares, Node.assignsTo, hss, Bool.not_false, Bool.and_self]

/-- An assignment to a reserved word is written as one. -/
theorem targetsWord_of_not_spares [Text.CharNames] {ss : List Node} (h : Derives .statements ts ss [])
    (hss : allNodes (Node.spares Node.isReserved) ss = false) : targetsWord ts := by
  cases hts : targetsWord ts with
  | true => rfl
  | false => exact absurd (hss.symm.trans (h.avoids hts)) nofun

end Grammar
end Deadwood
