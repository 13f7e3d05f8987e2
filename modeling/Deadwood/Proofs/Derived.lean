import Deadwood.Proofs.Derivation
import Deadwood.Proofs.Everywhere

/-! Properties that every derived tree has at every node, because the productions give them. -/
namespace Deadwood

/-- An assignment by `=`, which is a statement only. -/
def Node.isEquals : Node → Bool
  | .assign _ .equals _ _ => true
  | _ => false

theorem Node.isEquals_bare (n : Node) : n.bare.isEquals = n.isEquals := by
  cases n with
  | assign s op t v => cases op <;> rfl
  | cond s c t e? => cases e? <;> rfl
  | jump s k x? => cases x? <;> rfl
  | _ => rfl

namespace Grammar

def Each (q : Lexeme → Prop) (ts : List Lexeme) : Prop := ∀ l ∈ ts, q l

namespace Each

theorem head (h : Each q (l :: ts)) : q l := h l (by simp)

theorem tail (h : Each q (l :: ts)) : Each q ts := fun m hm => h m (by simp [hm])

theorem suffix (h : Each q ts) (hrest : rest <:+ ts) : Each q rest := fun l hl => h l (hrest.mem hl)

theorem gap (h : Each q (Grammar.gap g ts)) : Each q ts := h.suffix (suffix_gap List.suffix_rfl)

end Each

/-- The name of a parameter or variable comes from a lexeme with `q`. -/
def NameFrom (q : Lexeme → Prop) (text : String) : Prop := ∃ l, q l ∧ l.name? = some text

/-- The productions make nodes with `p` of lexemes with `q` and of operands that are no
assignments by `=`. -/
structure Respects [Text.CharNames] (q : Lexeme → Prop) (p : Node → Bool) : Prop where
  bare : ∀ n, p n.bare = p n
  arrow : q (.assign op) → op ≠ .equals
  number : q (.number text) → Literal.number text = .ok (v, i) → p (.number s v i)
  string : q (.string text) → Literal.string text = .ok v → p (.string s v)
  boolean : p (.boolean s b)
  null : p (.null s)
  identifier : q (.name text) → p (.identifier ⟨s, text⟩)
  unary : o.precedence?.isSome → !x.isEquals → p (.unary s o x)
  binary : q (.op o) → o.precedence?.isSome → !l.isEquals → !r.isEquals → p (.binary s o l r)
  called : !f.isEquals →
    (∀ a ∈ args, !a.value.isEquals ∧ ∀ text, a.name = some text → ∃ l, q l ∧ argumentText? l = some text) →
    p (called f args s)
  index : !t.isEquals → xs ≠ [] → (∀ x ∈ xs, !x.isEquals) → p (.index s t xs d)
  member : !t.isEquals → NameFrom q text → p (.member s t text)
  block : p (.block b)
  assign : q (.assign op) ∨ op = .equals → !t.isEquals → !v.isEquals → p (.assign s op t v)
  cond : !c.isEquals → p (.cond s c t e)
  whileLoop : !c.isEquals → p (.whileLoop s c b)
  repeatLoop : p (.repeatLoop s b)
  forLoop : NameFrom q v.name → !x.isEquals → p (.forLoop s v x b)
  function : (∀ a ∈ ps, NameFrom q a.name ∧ ∀ d, a.default? = some d → !d.isEquals) → p (.function s ps b)
  leave : leaves? k = some j → p (.jump s j none)

variable {q : Lexeme → Prop} {p : Node → Bool}

/-- An operand with `p` at every node. -/
def Fine (p : Node → Bool) (n : Node) : Prop := n.all p ∧ !n.isEquals

def FineParameter (q : Lexeme → Prop) (p : Node → Bool) (a : Parameter) : Prop :=
  NameFrom q a.name ∧ ∀ d, a.default? = some d → Fine p d

def FineOpening (q : Lexeme → Prop) (p : Node → Bool) : Opening → Prop
  | .cond c | .whileLoop c => Fine p c
  | .repeatLoop => True
  | .forLoop v x => NameFrom q v.name ∧ Fine p x
  | .function ps => ∀ a ∈ ps, FineParameter q p a
  | .assign op t => q (.assign op) ∧ Fine p t

def FineRun (q : Lexeme → Prop) (p : Node → Bool) (r : Run) : Prop :=
  (∀ o ∈ r.openings, FineOpening q p o.2) ∧ Fine p r.leaf.node

def FineItem (q : Lexeme → Prop) (p : Node → Bool) : (i : Item) → i.Value → Prop
  | .argument, a => Fine p a.value ∧ ∀ text, a.name = some text → ∃ l, q l ∧ argumentText? l = some text
  | .parameter, a => FineParameter q p a
  | .index, x => Fine p x

def Phrase.Fine (q : Lexeme → Prop) (p : Node → Bool) : (ph : Phrase) → ph.Value → Prop
  | .statements, ss => allNodes p ss
  | .expression b, x => x.all p ∧ (b = false → !x.isEquals)
  | .layer _, x => Grammar.Fine p x
  | .tail _ l, x => Grammar.Fine p l → Grammar.Fine p x
  | .opening, o => FineOpening q p o
  | .run, r => FineRun q p r
  | .alternatives _, as => ∀ a ∈ as, FineRun q p a.run
  | .item i, x => FineItem q p i x
  | .list i, xs => xs ≠ [] ∧ ∀ x ∈ xs, FineItem q p i x
  | .enclosed i, xs => ∀ x ∈ xs, FineItem q p i x

theorem FineRun.after (hr : FineRun q p r) (ho : FineOpening q p o) : FineRun q p (after o r) :=
  ⟨List.forall_mem_cons.2 ⟨ho, hr.1⟩, hr.2⟩

theorem signOp_known {l : Lexeme} {o : UnaryOp} (h : signOp l = some o) : o.precedence?.isSome := by
  unfold signOp at h
  split at h
  · cases h
    rfl
  · cases h
    rfl
  · cases h

namespace Respects
variable [Text.CharNames] (h : Respects q p)
include h

theorem fine_called (hf : Fine p f) (hargs : ∀ a ∈ args, FineItem q p .argument a) :
    Fine p (Grammar.called f args s) := by
  have hself : p (Grammar.called f args s) :=
    h.called hf.2 fun a ha => ⟨(hargs a ha).1.2, (hargs a ha).2⟩
  have hall : allArguments p args := allArguments_iff.2 fun a ha => (hargs a ha).1.1
  revert hself
  unfold Grammar.called
  split
  · intro hself
    exact ⟨hself, rfl⟩
  · intro hself
    simp only [allArguments, Bool.and_true] at hall
    exact ⟨by simp [Node.all, hself, hall], rfl⟩
  · intro hself
    exact ⟨by simp [Node.all, hself, hall, hf.1], rfl⟩

theorem fine_index (ht : Fine p t) (hxs : xs ≠ [] ∧ ∀ x ∈ xs, Fine p x) : Fine p (.index s t xs d) := by
  have hself := h.index (s := s) (d := d) ht.2 hxs.1 fun x hx => (hxs.2 x hx).2
  have hall : allNodes p xs := allNodes_iff.2 fun x hx => (hxs.2 x hx).1
  exact ⟨by simp [Node.all, hself, ht.1, hall], rfl⟩

theorem fine_close {o : Opening} (ho : FineOpening q p o) (hx : Fine p x) : Fine p (o.close s x) := by
  have hblock := Node.all_asBlock hx.1
  cases o with
  | cond c => exact ⟨by simp [Opening.close, Node.all, h.cond ho.2, ho.1, hblock], rfl⟩
  | whileLoop c => exact ⟨by simp [Opening.close, Node.all, h.whileLoop ho.2, ho.1, hblock], rfl⟩
  | repeatLoop => exact ⟨by simp [Opening.close, Node.all, h.repeatLoop, hblock], rfl⟩
  | forLoop v x => exact ⟨by simp [Opening.close, Node.all, h.forLoop ho.1 ho.2.2, ho.2.1, hblock], rfl⟩
  | function ps =>
    have hself := h.function (s := s) (b := x.asBlock) fun a ha => ⟨(ho a ha).1, fun d hd => ((ho a ha).2 d hd).2⟩
    have hps : allParameters p ps := allParameters_iff.2 fun a ha d hd => ((ho a ha).2 d hd).1
    exact ⟨by simp [Opening.close, Node.all, hself, hps, hblock], rfl⟩
  | assign op t =>
    refine ⟨by simp [Opening.close, Node.all, h.assign (.inl ho.1) ho.2.2 hx.2, ho.2.1, hx.1], ?_⟩
    have hop := h.arrow ho.1
    cases op <;> simp_all [Opening.close, Node.isEquals]

theorem fine_built {r : Run} {as : List Alternative} (hr : FineRun q p r)
    (has : ∀ a ∈ as, FineRun q p a.run) : Fine p (built r as) := by
  have hnest : Fine p (Chain.build "" r as).node := by
    refine Chain.nest_closure (fun o s n => h.fine_close) ?_ "" _ hr has
    intro c s yes no hc hyes hno
    have hself := h.cond (s := s) (t := yes.asBlock) (e := some no.asBlock) hc.2
    exact ⟨by simp [Node.all, hself, hc.1, Node.all_asBlock hyes.1, Node.all_asBlock hno.1], rfl⟩
  refine ⟨(Node.all_bare h.bare _).trans hnest.1, ?_⟩
  rw [built, Node.isEquals_bare]
  exact hnest.2

theorem fine_of_derives (hd : Derives ph ts v rest) : Each q ts → ph.Fine q p v := by
  induction hd with
  | done => exact fun _ => rfl
  | separator _ _ ih => exact fun hq => ih hq.tail
  | last _ ih => exact fun hq => by simp [Phrase.Fine, allNodes, (ih hq).1]
  | next hs _ _ ihs ihss =>
    intro hq
    have hrest : allNodes p _ := ihss (hq.suffix hs.suffix)
    simp [Phrase.Fine, allNodes, (ihs hq).1, hrest]
  | operation _ ih => exact fun hq => ⟨(ih hq).1, fun _ => (ih hq).2⟩
  | control _ hr _ ihr ihas =>
    intro hq
    have hbuilt := h.fine_built (ihr hq) (ihas (hq.suffix hr.suffix))
    exact ⟨hbuilt.1, fun _ => hbuilt.2⟩
  | assigned ht hr _ iht ihr ihas =>
    intro hq
    have hmid := hq.suffix ht.suffix
    have hrun := ihr hmid.tail.gap
    have hassign : FineOpening q p (.assign _ _) := ⟨hmid.head, iht hq⟩
    have hbuilt := h.fine_built (hrun.after hassign) (ihas (hmid.tail.gap.suffix hr.suffix))
    exact ⟨hbuilt.1, fun _ => hbuilt.2⟩
  | equals ht _ iht ihv =>
    intro hq
    have hv := ihv (hq.suffix ht.suffix).tail.gap
    have hself := h.assign (s := .blank) (.inr rfl) (iht hq).2 (hv.2 rfl)
    exact ⟨by simp [Node.all, hself, (iht hq).1, hv.1], fun hb => by cases hb⟩
  | leaf _ ih => exact fun hq => ⟨by simp [ending], ih hq⟩
  | leave hk => exact fun _ => ⟨by simp [ending], h.leave hk, rfl⟩
  | opened ho _ iho ihr => exact fun hq => FineRun.after (ihr (hq.suffix ho.suffix)) (iho hq)
  | noElse => exact fun _ => by simp [Phrase.Fine]
  | orElse hr _ ihr ihas =>
    intro hq
    have hts := hq.gap.tail.gap
    exact List.forall_mem_cons.2 ⟨ihr hts, ihas (hts.suffix hr.suffix)⟩
  | cond _ ih | whileLoop _ ih => exact fun hq => ⟨(ih hq.tail.tail.gap).1, (ih hq.tail.tail.gap).2 rfl⟩
  | repeatLoop => exact fun _ => trivial
  | forLoop hl _ ih =>
    intro hq
    have hname := hq.tail.tail.gap
    exact ⟨⟨_, hname.head, hl⟩, (ih hname.tail.tail).1, (ih hname.tail.tail).2 rfl⟩
  | function _ ih => exact fun hq => ih hq.tail.tail
  | assign ht iht => exact fun hq => ⟨(hq.suffix ht.suffix).head, iht hq⟩
  | positional _ ih => exact fun hq => ⟨⟨(ih hq).1, (ih hq).2 rfl⟩, fun text h => by cases h⟩
  | named hl _ ih =>
    intro hq
    have hx := ih hq.tail.tail.gap
    refine ⟨⟨hx.1, hx.2 rfl⟩, fun text h => ?_⟩
    cases h
    exact ⟨_, hq.head, hl⟩
  | plain hl => exact fun hq => ⟨⟨_, hq.head, hl⟩, fun d h => by cases h⟩
  | defaulted hl _ ih =>
    intro hq
    have hx := ih hq.tail.tail.gap
    refine ⟨⟨_, hq.head, hl⟩, fun d h => ?_⟩
    cases h
    exact ⟨hx.1, hx.2 rfl⟩
  | index _ ih => exact fun hq => ⟨(ih hq).1, (ih hq).2 rfl⟩
  | single _ ih => exact fun hq => ⟨by simp, List.forall_mem_singleton.2 (ih hq)⟩
  | comma hx _ ihx ihxs =>
    intro hq
    have hxs := ihxs (hq.suffix hx.suffix).gap.tail.gap
    exact ⟨by simp, List.forall_mem_cons.2 ⟨ihx hq, hxs.2⟩⟩
  | empty => exact fun _ => by simp [Phrase.Fine]
  | filled _ ih => exact fun hq => (ih hq.gap).2
  | tighter _ _ ih => exact ih
  | grouped _ hl _ ihl ihx => exact fun hq => ihx (hq.suffix hl.suffix) (ihl hq)
  | related hl _ ihl ihr =>
    intro hq
    have hmid := hq.suffix hl.suffix
    have hr := ihr hmid.tail.gap
    have hself := h.binary (s := .blank) hmid.head rfl (ihl hq).2 hr.2
    exact ⟨by simp [Node.all, hself, (ihl hq).1, hr.1], rfl⟩
  | power hl _ ihl ihr =>
    intro hq
    have hmid := hq.suffix hl.suffix
    have hr := ihr hmid.tail.gap
    have hself := h.binary (s := .blank) hmid.head rfl (ihl hq).2 hr.2
    exact ⟨by simp [Node.all, hself, (ihl hq).1, hr.1], rfl⟩
  | negated _ ih =>
    intro hq
    have hx := ih hq.tail
    have hself := h.unary (s := .blank) (o := .not) rfl hx.2
    exact ⟨by simp [Node.all, hself, hx.1], rfl⟩
  | signed hl _ ih =>
    intro hq
    have hx := ih hq.tail
    have hself := h.unary (s := .blank) (signOp_known hl) hx.2
    exact ⟨by simp [Node.all, hself, hx.1], rfl⟩
  | stop => exact fun _ hl => hl
  | operator ho hr _ ihr ihx =>
    intro hq hl
    have hts := hq.tail.gap
    have hright := ihr hts
    have hself := h.binary (s := .blank) hq.head (by simp [ho]) hl.2 hright.2
    exact ihx (hts.suffix hr.suffix) ⟨by simp [Node.all, hself, hl.1, hright.1], rfl⟩
  | call hargs _ ihargs ihx =>
    exact fun hq hl => ihx (hq.tail.suffix hargs.suffix) (h.fine_called hl (ihargs hq.tail))
  | brackets hxs _ ihxs ihx =>
    intro hq hl
    have hmid := (hq.tail.gap.suffix hxs.suffix).gap.tail
    exact ihx hmid (h.fine_index hl (ihxs hq.tail.gap))
  | doubleBrackets hxs _ ihxs ihx =>
    intro hq hl
    have hmid := (hq.tail.gap.suffix hxs.suffix).gap.tail.tail
    exact ihx hmid (h.fine_index hl (ihxs hq.tail.gap))
  | member hm _ ih =>
    intro hq hl
    have hself := h.member (s := .blank) hl.2 ⟨_, hq.tail.head, hm⟩
    exact ih hq.tail.tail ⟨by simp [Node.all, hself, hl.1], rfl⟩
  | number hs => exact fun hq => ⟨h.number hq.head hs, rfl⟩
  | string hs => exact fun hq => ⟨h.string hq.head hs, rfl⟩
  | @constant k x _ hk =>
    intro _
    cases k with
    | trueWord | falseWord =>
      cases hk
      exact ⟨h.boolean, rfl⟩
    | nullWord =>
      cases hk
      exact ⟨h.null, rfl⟩
    | _ => cases hk
  | name => exact fun hq => ⟨h.identifier hq.head, rfl⟩
  | paren _ ih => exact fun hq => ⟨(ih hq.tail.gap).1, (ih hq.tail.gap).2 rfl⟩
  | block _ ih =>
    intro hq
    have hss : allNodes p _ := ih hq.tail
    exact ⟨by simp [Node.all, Block.all, h.block, hss], rfl⟩

end Respects
end Grammar
end Deadwood
