import Deadwood.Proofs.Derivation
import Deadwood.Proofs.Lexing
import Deadwood.Source.Parse

/-! What a reader reads is derived by the grammar. -/
namespace Deadwood

theorem BinaryOp.precedence?_eq_four {o : BinaryOp} (h : o.precedence? = some 4) : ∃ r, o = .rel r := by
  cases o with
  | rel r => exact ⟨r, rfl⟩
  | arith a => cases a <;> simp [BinaryOp.precedence?] at h
  | _ => simp [BinaryOp.precedence?] at h

theorem BinaryOp.precedence?_eq_ten {o : BinaryOp} (h : o.precedence? = some 10) : o = .arith .pow := by
  cases o with
  | arith a =>
    cases a with
    | pow => rfl
    | _ => simp [BinaryOp.precedence?] at h
  | _ => simp [BinaryOp.precedence?] at h

namespace Grammar

def Cursor.lexemes (c : Cursor) : List Lexeme := c.tokens.map (·.lexeme)

/-- Every reading that leaves no literal without a value satisfies `P`. -/
def Yields (m : Reader α) (P : List Lexeme → α → List Lexeme → Prop) : Prop :=
  ∀ ⦃c a d⦄, m c = .ok (a, d) → d.misread = none → c.misread = none ∧ P c.lexemes a d.lexemes

theorem argumentName?_eq_some {tokens : List Token} {text : String}
    (h : argumentName? tokens = some text) :
    ∃ t u rest, tokens = t :: u :: rest ∧ u.lexeme = .equals ∧ argumentText? t.lexeme = some text := by
  unfold argumentName? at h
  split at h
  · next t u rest =>
    split at h
    · next hu =>
      refine ⟨t, u, rest, rfl, hu, ?_⟩
      unfold argumentText?
      split at h <;> simp_all
    · cases h
  · cases h

theorem elseNext_eq_some {tokens : List Token} {before : Bool} (h : elseNext tokens = some before) :
    ∃ ts, tokens.map (·.lexeme) = gap before (.keyword .elseWord :: ts) := by
  unfold elseNext at h
  split at h
  · split at h
    · simp_all [gap]
    · split at h <;> simp_all [gap]
  · split at h <;> simp_all [gap]
  · cases h

theorem gap_cons_inj {g h : Bool} {l m : Lexeme} {ts us : List Lexeme}
    (heq : gap g (l :: ts) = gap h (m :: us)) (hl : g = false → l ≠ .newline)
    (hm : h = false → m ≠ .newline) : g = h ∧ l = m ∧ ts = us := by
  cases g <;> cases h <;> simp_all [gap]

namespace Yields

theorem pure {P : List Lexeme → α → List Lexeme → Prop} (h : ∀ ts, P ts a ts) :
    Yields (Pure.pure a) P := by
  intro c b d hread hd
  cases hread
  exact ⟨hd, h _⟩

theorem bind {m : Reader α} {f : α → Reader β} {P : List Lexeme → α → List Lexeme → Prop}
    {Q : List Lexeme → β → List Lexeme → Prop} (hm : Yields m P)
    (hf : ∀ a, Yields (f a) fun mid b rest => ∀ ts, P ts a mid → Q ts b rest) : Yields (m >>= f) Q := by
  intro c b d hread hd
  change (m c >>= fun r => f r.1 r.2) = _ at hread
  cases hfirst : m c with
  | error e => rw [hfirst] at hread; cases hread
  | ok r =>
    rw [hfirst] at hread
    obtain ⟨hmid, hrest⟩ := hf r.1 hread hd
    obtain ⟨hc, hstart⟩ := hm hfirst hmid
    exact ⟨hc, hrest _ hstart⟩

theorem mono {m : Reader α} {P Q : List Lexeme → α → List Lexeme → Prop} (hm : Yields m P)
    (h : ∀ ts a rest, P ts a rest → Q ts a rest) : Yields m Q := fun _ _ _ hread hd =>
  (hm hread hd).imp_right (h _ _ _)

theorem stop {P : List Lexeme → α → List Lexeme → Prop} : Yields Grammar.stop P := by
  intro c a d hread
  cases hread

theorem get : Yields MonadState.get fun ts c rest => c.lexemes = ts ∧ rest = ts := by
  intro c a d hread hd
  cases hread
  exact ⟨hd, rfl, rfl⟩

theorem peek : Yields peek fun ts l rest => l = ts.head? ∧ rest = ts := by
  refine .bind get fun c => .pure fun ts ts' h => ?_
  obtain ⟨hc, rfl⟩ := h
  simp [← hc, Cursor.lexemes]

theorem length : Yields remaining fun ts n rest => rest = ts ∧ n = ts.length := by
  refine .bind get fun c => .pure fun rest ts h => ?_
  obtain ⟨rfl, rfl⟩ := h
  exact ⟨rfl, by simp [Cursor.lexemes]⟩

theorem remaining : Yields remaining fun ts _ rest => rest = ts := length.mono fun _ _ _ h => h.1

theorem span (a b : Position) : Yields (span a b) fun ts _ rest => rest = ts :=
  .bind get fun _ => .pure fun _ _ h => h.2

theorem take : Yields take fun ts t rest => ts = t.lexeme :: rest := by
  rintro ⟨_ | ⟨t, tokens⟩, misread, file⟩ a d hread hd
  · cases hread
  · cases hread
    exact ⟨hd, rfl⟩

/-- Taking a token that has been looked at. -/
theorem taken {f : Token → Reader β} {l : Lexeme} {Q : List Lexeme → β → List Lexeme → Prop}
    (hf : ∀ t, Yields (f t) fun mid b rest => Q (l :: mid) b rest) :
    Yields (Grammar.take >>= f) fun mid b rest => ∀ ts, some l = ts.head? ∧ mid = ts → Q ts b rest := by
  refine .bind take fun t => (hf t).mono fun mid b rest h m₁ hm₁ ts hts => ?_
  obtain ⟨hl, rfl⟩ := hts
  rw [hm₁] at hl ⊢
  cases Option.some.inj hl
  exact h

theorem select (f : Lexeme → Option α) : Yields (select f) fun ts r rest =>
    match r with
    | some (a, t) => ts = t.lexeme :: rest ∧ f t.lexeme = some a
    | none => rest = ts ∧ ∀ l, ts.head? = some l → f l = none := by
  rintro ⟨_ | ⟨t, tokens⟩, misread, file⟩ a d hread hd
  · cases hread
    exact ⟨hd, rfl, by simp [Cursor.lexemes]⟩
  · unfold Grammar.select at hread
    cases hf : f t.lexeme with
    | none =>
      simp only [hf] at hread
      cases hread
      exact ⟨hd, rfl, by simp [Cursor.lexemes, hf]⟩
    | some b =>
      simp only [hf] at hread
      cases hread
      exact ⟨hd, rfl, hf⟩

theorem accept (l : Lexeme) : Yields (accept l) fun ts b rest =>
    if b then ts = l :: rest else rest = ts ∧ ts.head? ≠ some l := by
  refine .bind (select _) fun r => .pure fun ts ts' h => ?_
  cases r with
  | none =>
    obtain ⟨rfl, h⟩ := h
    have hl : ts.head? ≠ some l := fun hl => by simpa using h l hl
    simp [hl]
  | some r =>
    obtain ⟨rfl, h⟩ := h
    have hl : r.2.lexeme = l := by simpa using h
    simp [hl]

theorem expect (l : Lexeme) : Yields (expect l) fun ts _ rest => ts = l :: rest := by
  refine .bind (select _) fun r => ?_
  cases r with
  | none => exact stop
  | some r =>
    refine .pure fun ts ts' h => ?_
    obtain ⟨rfl, h⟩ := h
    have hl : r.2.lexeme = l := by simpa using h
    rw [hl]

theorem skipBreak : Yields skipBreak fun ts _ rest =>
    ∃ g, ts = gap g rest ∧ (g = false → rest.head? ≠ some .newline) := by
  refine .bind (accept _) fun b => .pure fun ts ts' h => ⟨b, ?_⟩
  cases b with
  | true => simpa [gap] using h
  | false =>
    obtain ⟨rfl, h⟩ : ts = ts' ∧ ts'.head? ≠ some .newline := by simpa using h
    simp [gap, h]

theorem skipSeparators : Yields skipSeparators fun ts _ rest =>
    ∃ seps, ts = seps ++ rest ∧ ∀ l ∈ seps, separates l := by
  intro c a d hread hd
  cases hread
  refine ⟨hd, (c.tokens.takeWhile isSeparator).map (·.lexeme), ?_, ?_⟩
  · simp [Cursor.lexemes, ← List.map_append]
  · intro l hl
    obtain ⟨t, ht, rfl⟩ := List.mem_map.1 hl
    have hsep := List.all_eq_true.1 List.all_takeWhile t ht
    simp only [isSeparator, Bool.or_eq_true, decide_eq_true_eq] at hsep
    obtain h | h := hsep <;> rw [h] <;> rfl

theorem name : Yields name fun ts r rest => ∃ l, ts = l :: rest ∧ l.name? = some r.1 := by
  refine .bind (select _) fun r => ?_
  cases r with
  | none => exact stop
  | some r => exact .pure fun ts ts' h => ⟨_, h⟩

theorem closeBracket : Yields closeBracket fun ts _ rest => ∃ p, ts = .closeBracket p :: rest := by
  refine .bind (select _) fun r => ?_
  cases r with
  | none => exact stop
  | some r =>
    refine .pure fun ts ts' h => ?_
    obtain ⟨rfl, h⟩ := h
    cases hl : r.2.lexeme with
    | closeBracket p => exact ⟨p, rfl⟩
    | _ => simp [hl] at h

theorem closeDouble : Yields closeDouble fun ts _ rest =>
    ∃ p, ts = .closeBracket true :: .closeBracket p :: rest := by
  refine .bind (expect _) fun _ => closeBracket.mono fun ts _ rest h => ?_
  obtain ⟨p, rfl⟩ := h
  exact fun ts h => ⟨p, h⟩

theorem valued {r : Except Misread α} {node : Span → α → Node} {t : Token}
    {Q : List Lexeme → Node → List Lexeme → Prop} (h : ∀ a s ts, r = .ok a → Q ts (node s a).bare ts) :
    Yields (valued r node t) fun ts x rest => Q ts x.node.bare rest := by
  refine .bind (span _ _) fun s => ?_
  cases r with
  | ok a =>
    refine .pure fun ts ts' hts => ?_
    subst hts
    exact h a s ts rfl
  | error m =>
    intro c a d hread hd
    cases hread
    cases hc : c.misread <;> simp [hc] at hd

theorem leafOf {node : Span → Node} {t : Token} {Q : List Lexeme → Node → List Lexeme → Prop}
    (h : ∀ s ts, Q ts (node s).bare ts) :
    Yields (leafOf node t) fun ts x rest => Q ts x.node.bare rest := by
  refine .bind (span _ _) fun s => .pure fun ts ts' hts => ?_
  subst hts
  exact h s ts

theorem binary {o : BinaryOp} {l r : Part} : Yields (binary o l r) fun ts x rest =>
    rest = ts ∧ x.node.bare = .binary .blank o l.node.bare r.node.bare :=
  .bind (span _ _) fun _ => .pure fun _ _ h => ⟨h, rfl⟩

/-! Lists and sequences. -/

section
variable [Text.CharNames] {α : Type} {i : Item} {item : Reader α} {value : α → i.Value}
  (hitem : Yields item fun ts x rest => Derives (.item i) ts (value x) rest)
include hitem

theorem items {close : Reader Token} {C : List Lexeme → List Lexeme → Prop}
    (hclose : Yields close fun ts _ rest => C ts rest) (fuel : Nat) :
    Yields (items item close fuel) fun ts r rest =>
      ∃ g mid, Derives (.list i) ts (r.1.map value) (gap g mid) ∧ C mid rest := by
  induction fuel with
  | zero => exact stop
  | succ fuel ih =>
    refine .bind hitem fun x => .bind skipBreak fun _ => .bind (accept _) fun b => ?_
    cases b with
    | true =>
      refine .bind skipBreak fun _ => .bind ih fun r => .pure fun rest => ?_
      rintro m₁ ⟨g, last, hxs, hlast⟩ m₂ ⟨g₂, rfl, -⟩ m₃ rfl m₄ ⟨g₄, rfl, -⟩ ts hx
      exact ⟨g, last, .comma hx hxs, hlast⟩
    | false =>
      refine .bind hclose fun t => .pure fun rest => ?_
      rintro m₁ hlast m₂ ⟨rfl, -⟩ m₃ ⟨g, rfl, -⟩ ts hx
      exact ⟨g, m₁, .single hx, hlast⟩

theorem listed {close : Reader Token} {C : List Lexeme → List Lexeme → Prop}
    (hclose : Yields close fun ts _ rest => C ts rest) :
    Yields (listed item close) fun ts r rest =>
      ∃ g mid, Derives (.list i) ts (r.1.map value) (gap g mid) ∧ C mid rest := by
  refine .bind remaining fun n => (items hitem hclose n).mono fun ts r rest h ts' hts => ?_
  exact hts ▸ h

theorem parenList : Yields (parenList item) fun ts r rest => Derives (.enclosed i) ts (r.1.map value) rest := by
  refine .bind skipBreak fun _ => .bind peek fun l => ?_
  split
  · refine taken fun t => .pure fun rest ts h => ?_
    obtain ⟨g, rfl, -⟩ := h
    exact Derives.empty (g := g) (h := false)
  · refine .bind skipBreak fun _ => .bind (expect _) fun t => .pure fun rest => ?_
    rintro m₁ rfl m₂ ⟨g', rfl, -⟩ m₃ ⟨-, rfl⟩ ts ⟨g, rfl, -⟩
    exact .empty
  · refine (listed hitem (expect _)).mono fun ts r rest h => ?_
    obtain ⟨g', mid, hxs, rfl⟩ := h
    rintro m₁ ⟨-, rfl⟩ ts ⟨g, rfl, -⟩
    exact .filled hxs

end

theorem sequence [Text.CharNames] {statement : Reader Part}
    (hstatement : Yields statement fun ts s rest => Derives (.expression true) ts s.node.bare rest)
    (fuel : Nat) :
    Yields (sequence statement fuel) fun ts ss rest => Derives .statements ts (bareNodes ss) rest := by
  induction fuel with
  | zero => exact .pure fun ts => .done
  | succ fuel ih =>
    refine .bind skipSeparators fun _ => .bind peek fun l => ?_
    split
    · refine .pure fun rest => ?_
      rintro m₁ ⟨-, rfl⟩ ts ⟨seps, rfl, hseps⟩
      exact .separators hseps .done
    · refine .pure fun rest => ?_
      rintro m₁ ⟨-, rfl⟩ ts ⟨seps, rfl, hseps⟩
      exact .separators hseps .done
    · refine .bind hstatement fun s => .bind peek fun l' => ?_
      split
      · refine .bind ih fun ss => .pure fun rest => ?_
        rintro m₁ hss m₂ ⟨hl, rfl⟩ m₃ hs m₄ ⟨-, rfl⟩ ts ⟨seps, rfl, hseps⟩
        obtain ⟨mid, rfl⟩ := List.head?_eq_some_iff.1 hl.symm
        exact .separators hseps (.next hs rfl hss)
      · refine .bind ih fun ss => .pure fun rest => ?_
        rintro m₁ hss m₂ ⟨hl, rfl⟩ m₃ hs m₄ ⟨-, rfl⟩ ts ⟨seps, rfl, hseps⟩
        obtain ⟨mid, rfl⟩ := List.head?_eq_some_iff.1 hl.symm
        exact .separators hseps (.next hs rfl hss)
      · refine .pure fun rest => ?_
        rintro m₁ ⟨-, rfl⟩ m₂ hs m₃ ⟨-, rfl⟩ ts ⟨seps, rfl, hseps⟩
        exact .separators hseps (.last hs)

/-! Operands. The readers nested inside brackets are given. -/

section
variable [Text.CharNames] {self : Bool → Reader Part}
  (hself : ∀ b, Yields (self b) fun ts x rest => Derives (.expression b) ts x.node.bare rest)
include hself

theorem block : Yields (block (self true)) fun ts x rest => Derives (.layer 12) ts x.node.bare rest := by
  refine .bind (expect _) fun t => .bind remaining fun n => .bind (sequence (hself true) n) fun ss =>
    .bind (expect _) fun u => .bind (span _ _) fun s => .pure fun rest => ?_
  rintro m₁ rfl m₂ rfl m₃ hss m₄ rfl ts rfl
  exact .block hss

theorem atom : Yields (atom self) fun ts x rest => Derives (.layer 12) ts x.node.bare rest := by
  refine .bind peek fun l => ?_
  split
  · exact taken fun t => valued fun v s ts hv => .number hv
  · exact taken fun t => valued fun v s ts hv => .string hv
  · exact taken fun t => leafOf fun s ts => .constant rfl
  · exact taken fun t => leafOf fun s ts => .constant rfl
  · exact taken fun t => leafOf fun s ts => .constant rfl
  · exact taken fun t => leafOf fun s ts => .name
  · refine taken fun t => .bind skipBreak fun _ => .bind (hself false) fun x => .bind skipBreak fun _ =>
      .bind (expect _) fun u => .pure fun rest => ?_
    rintro m₁ rfl m₂ ⟨g, rfl, -⟩ m₃ hx m₄ ⟨g', rfl, -⟩
    exact .paren hx
  · exact (block hself).mono fun ts x rest h ts' hts => hts.2 ▸ h
  · exact stop

theorem argument : Yields (argument self) fun ts a rest => Derives (.item .argument) ts a.bare rest := by
  refine .bind get fun c => ?_
  split
  · next name hname =>
    obtain ⟨t, u, tokens, htokens, hu, hl⟩ := argumentName?_eq_some hname
    refine .bind take fun t' => .bind take fun u' => .bind skipBreak fun _ => .bind (hself false) fun x =>
      .bind (span _ _) fun s => .pure fun rest => ?_
    rintro m₁ rfl m₂ hx m₃ ⟨g, rfl, -⟩ m₄ rfl m₅ rfl ts ⟨hc, rfl⟩
    simp only [Cursor.lexemes, htokens, List.map_cons, List.cons.injEq] at hc
    rw [← hc.1, ← hc.2.1, hu]
    exact .named hl hx
  · refine .bind (hself false) fun x => .bind (span _ _) fun s => .pure fun rest => ?_
    rintro m₁ rfl m₂ hx ts ⟨-, rfl⟩
    exact .positional hx

theorem index : Yields (self false) fun ts x rest => Derives (.item .index) ts x.node.bare rest :=
  (hself false).mono fun _ _ _ h => .index h

theorem postfixed (fuel : Nat) (l : Part) : Yields (postfixed self fuel l) fun ts x rest =>
    Derives (.tail 11 l.node.bare) ts x.node.bare rest := by
  induction fuel generalizing l with
  | zero => exact .pure fun _ => .stop
  | succ fuel ih =>
    refine .bind peek fun next => ?_
    split
    · refine taken fun _ => .bind (parenList (argument hself)) fun r => .bind (span _ _) fun s =>
        (ih _).mono fun ts x rest hx => ?_
      rintro m₁ rfl m₂ hargs
      rw [called_bare, bareArguments_eq_map] at hx
      exact .call hargs hx
    · refine taken fun _ => .bind skipBreak fun _ => .bind (listed (index hself) closeBracket) fun r =>
        .bind (span _ _) fun s => (ih _).mono fun ts x rest hx => ?_
      rintro m₁ rfl m₂ ⟨g, mid, hxs, p, rfl⟩ m₃ ⟨g', rfl, -⟩
      rw [Node.bare, bareNodes_eq_map, List.map_map] at hx
      exact .brackets hxs hx
    · refine taken fun _ => .bind skipBreak fun _ => .bind (listed (index hself) closeDouble) fun r =>
        .bind (span _ _) fun s => (ih _).mono fun ts x rest hx => ?_
      rintro m₁ rfl m₂ ⟨g, mid, hxs, p, rfl⟩ m₃ ⟨g', rfl, -⟩
      rw [Node.bare, bareNodes_eq_map, List.map_map] at hx
      exact .doubleBrackets hxs hx
    · refine taken fun _ => .bind name fun r => .bind (span _ _) fun s => (ih _).mono fun ts x rest hx => ?_
      rintro m₁ rfl m₂ ⟨m, rfl, hm⟩
      exact .member hm hx
    · refine .pure fun rest ts h => ?_
      rw [h.2]
      exact .stop

theorem operand : Yields (operand self) fun ts x rest => Derives (.layer 11) ts x.node.bare rest := by
  refine .bind (atom hself) fun l => .bind remaining fun n => (postfixed hself n l).mono fun ts x rest hx => ?_
  rintro m₁ rfl ts hl
  exact .grouped rfl hl hx

end

/-! Operators. -/

theorem once {op : Lexeme → Option BinaryOp} {left right : Reader Part} {k : Nat} (hop : op = operatorAt k)
    {L R : List Lexeme → Node → List Lexeme → Prop}
    (hleft : Yields left fun ts x rest => L ts x.node.bare rest)
    (hright : Yields right fun ts x rest => R ts x.node.bare rest) :
    Yields (once op left right) fun ts x rest => L ts x.node.bare rest ∨
      ∃ o l r g mid, o.precedence? = some k ∧ x.node.bare = .binary .blank o l r ∧
        L ts l (.op o :: gap g mid) ∧ R mid r rest := by
  refine .bind hleft fun l => .bind (select op) fun found => ?_
  cases found with
  | none => exact .pure fun rest m₁ h ts hl => .inl (h.1 ▸ hl)
  | some found =>
    refine .bind skipBreak fun _ => .bind hright fun r => binary.mono fun ts x rest h => ?_
    rintro m₁ hr m₂ ⟨g, rfl, -⟩ m₃ ⟨rfl, ho⟩ ts hl
    obtain ⟨rfl, hx⟩ := h
    rw [hop, operatorAt_eq_some] at ho
    rw [ho.1] at hl
    exact .inr ⟨found.1, l.node.bare, r.node.bare, g, _, ho.2, hx, hl, hr⟩

section
variable [Text.CharNames] {op : Lexeme → Option BinaryOp} {item : Reader Part} {k : Nat} (hop : op = operatorAt k)
  (hitem : Yields item fun ts x rest => Derives (.layer (k + 1)) ts x.node.bare rest)
include hop hitem

theorem leftFrom (fuel : Nat) (l : Part) : Yields (leftFrom op item fuel l) fun ts x rest =>
    Derives (.tail k l.node.bare) ts x.node.bare rest := by
  induction fuel generalizing l with
  | zero => exact .pure fun _ => .stop
  | succ fuel ih =>
    refine .bind (select op) fun found => ?_
    cases found with
    | none => exact .pure fun rest ts h => h.1 ▸ .stop
    | some found =>
      refine .bind skipBreak fun _ => .bind hitem fun r => .bind binary fun x =>
        (ih x).mono fun ts y rest hy => ?_
      rintro m₁ ⟨rfl, hx⟩ m₂ hr m₃ ⟨g, rfl, -⟩ ts ⟨rfl, ho⟩
      rw [hop, operatorAt_eq_some] at ho
      rw [hx] at hy
      rw [ho.1]
      exact .operator ho.2 hr hy

theorem leftGrouped (hk : groupsLeft k) :
    Yields (leftGrouped op item) fun ts x rest => Derives (.layer k) ts x.node.bare rest := by
  refine .bind hitem fun l => .bind remaining fun n => (leftFrom hop hitem n l).mono fun ts x rest hx => ?_
  rintro m₁ rfl ts hl
  exact .grouped hk hl hx

end

theorem leading {op : Lexeme → Option UnaryOp} {item : Reader Part → Reader Part}
    {Q : List Lexeme → Node → List Lexeme → Prop}
    (hop : ∀ l o ts x rest, op l = some o → Q ts x rest → Q (l :: ts) (.unary .blank o x) rest)
    (hitem : ∀ m, Yields m (fun ts x rest => Q ts x.node.bare rest) →
      Yields (item m) fun ts x rest => Q ts x.node.bare rest) (fuel : Nat) :
    Yields (leading op item fuel) fun ts x rest => Q ts x.node.bare rest := by
  induction fuel with
  | zero => exact stop
  | succ fuel ih =>
    refine .bind (select op) fun found => ?_
    cases found with
    | none => exact (hitem _ ih).mono fun ts x rest h ts' hts => hts.1 ▸ h
    | some found =>
      refine .bind ih fun x => .bind (span _ _) fun s => .pure fun rest => ?_
      rintro m₁ rfl m₂ hx ts ⟨rfl, ho⟩
      exact hop _ _ _ _ _ ho hx

section
variable [Text.CharNames] {self : Bool → Reader Part}
  (hself : ∀ b, Yields (self b) fun ts x rest => Derives (.expression b) ts x.node.bare rest)
include hself

theorem signed : Yields (signed self) fun ts x rest => Derives (.layer 9) ts x.node.bare rest := by
  obtain ⟨-, -, -, -, -, -, -, hpow⟩ := operator_tables
  refine .bind remaining fun n => (leading (fun l o ts x rest ho hx => .signed ho hx) ?_ (n + 1)).mono
    fun ts x rest h ts' hts => hts ▸ h
  refine fun m hm => (once hpow (operand hself) hm).mono fun ts x rest h => ?_
  obtain h | ⟨o, l, r, g, mid, ho, hx, hl, hr⟩ := h
  · exact .tighter rfl (.tighter rfl h)
  · rw [BinaryOp.precedence?_eq_ten ho] at hl hx
    rw [hx]
    exact .tighter rfl (.power hl hr)

theorem sum : Yields (sum self) fun ts x rest => Derives (.layer 5) ts x.node.bare rest := by
  obtain ⟨-, -, -, hsum, hproduct, hspecial, hrange, -⟩ := operator_tables
  have hranges := leftGrouped hrange (signed hself) rfl
  have hspecials := leftGrouped hspecial hranges rfl
  exact leftGrouped hsum (leftGrouped hproduct hspecials rfl) rfl

theorem comparison : Yields (comparison self) fun ts x rest => Derives (.layer 4) ts x.node.bare rest := by
  obtain ⟨-, -, hrelation, -⟩ := operator_tables
  refine (once hrelation (sum hself) (sum hself)).mono fun ts x rest h => ?_
  obtain h | ⟨o, l, r, g, mid, ho, hx, hl, hr⟩ := h
  · exact .tighter rfl h
  · obtain ⟨o, rfl⟩ := BinaryOp.precedence?_eq_four ho
    rw [hx]
    exact .related hl hr

theorem negated : Yields (negated self) fun ts x rest => Derives (.layer 3) ts x.node.bare rest := by
  refine .bind remaining fun n => (leading (fun l o ts x rest ho hx => ?_) ?_ (n + 1)).mono
    fun ts x rest h ts' hts => hts ▸ h
  · cases l with
    | not =>
      cases Option.some.inj ho
      exact .negated hx
    | _ => cases ho
  · exact fun m _ => (comparison hself).mono fun ts x rest h => .tighter rfl h

theorem disjunction : Yields (disjunction self) fun ts x rest => Derives (.layer 1) ts x.node.bare rest := by
  obtain ⟨hor, hand, -⟩ := operator_tables
  exact leftGrouped hor (leftGrouped hand (negated hself) rfl) rfl

/-! Chains. -/

theorem condition : Yields (condition self) fun ts c rest => ∃ g ts' g₂ g₃, ts = .openParen :: gap g ts' ∧
    Derives (.expression false) ts' c.bare (gap g₂ (.closeParen :: gap g₃ rest)) := by
  refine .bind (expect _) fun _ => .bind skipBreak fun _ => .bind (hself false) fun c => .bind skipBreak fun _ =>
    .bind (expect _) fun _ => .bind skipBreak fun _ => .pure fun rest => ?_
  rintro m₁ ⟨g₃, rfl, -⟩ m₂ rfl m₃ ⟨g₂, rfl, -⟩ m₄ hc m₅ ⟨g, rfl, -⟩ ts rfl
  exact ⟨g, m₄, g₂, g₃, rfl, hc⟩

theorem parameter : Yields (parameter self) fun ts p rest => Derives (.item .parameter) ts p.bare rest := by
  refine .bind name fun r => .bind (accept _) fun b => ?_
  cases b with
  | true =>
    refine .bind skipBreak fun _ => .bind (hself false) fun x => .bind (span _ _) fun s => .pure fun rest => ?_
    rintro m₁ rfl m₂ hx m₃ ⟨g, rfl, -⟩ m₄ rfl ts ⟨l, rfl, hl⟩
    exact .defaulted hl hx
  | false =>
    refine .bind (span _ _) fun s => .pure fun rest => ?_
    rintro m₁ rfl m₂ ⟨rfl, -⟩ ts ⟨l, rfl, hl⟩
    exact .plain hl

theorem forHeader : Yields (forHeader self) fun ts o rest =>
    Derives .opening (.keyword .forWord :: ts) o.bare rest := by
  refine .bind (expect _) fun _ => .bind skipBreak fun _ => .bind name fun r => .bind (expect _) fun _ =>
    .bind (hself false) fun x => .bind skipBreak fun _ => .bind (expect _) fun _ => .bind skipBreak fun _ =>
    .bind (span _ _) fun s => .pure fun rest => ?_
  rintro m₁ rfl m₂ ⟨g₃, rfl, -⟩ m₃ rfl m₄ ⟨g₂, rfl, -⟩ m₅ hx m₆ rfl m₇ ⟨l, rfl, hl⟩ m₈ ⟨g, rfl, -⟩ ts rfl
  exact .forLoop hl hx

theorem functionHeader : Yields (functionHeader self) fun ts o rest =>
    Derives .opening (.keyword .functionWord :: ts) o.bare rest := by
  refine .bind (expect _) fun _ => .bind (parenList (parameter hself)) fun r => .bind skipBreak fun _ =>
    .pure fun rest => ?_
  rintro m₁ ⟨g, rfl, -⟩ m₂ hps ts rfl
  rw [Opening.bare, bareParameters_eq_map]
  exact .function hps

theorem header {k : Keyword} {h : Reader Opening} (hk : header self k = some h) :
    Yields h fun ts o rest => Derives .opening (.keyword k :: ts) o.bare rest := by
  cases k with
  | ifWord =>
    cases Option.some.inj hk
    refine .bind (condition hself) fun c => .pure fun rest ts h => ?_
    obtain ⟨g, ts', g₂, g₃, rfl, hc⟩ := h
    exact .cond hc
  | whileWord =>
    cases Option.some.inj hk
    refine .bind (condition hself) fun c => .pure fun rest ts h => ?_
    obtain ⟨g, ts', g₂, g₃, rfl, hc⟩ := h
    exact .whileLoop hc
  | repeatWord =>
    cases Option.some.inj hk
    refine .bind skipBreak fun _ => .pure fun rest ts h => ?_
    obtain ⟨g, rfl, -⟩ := h
    exact .repeatLoop
  | forWord =>
    cases Option.some.inj hk
    exact forHeader hself
  | functionWord =>
    cases Option.some.inj hk
    exact functionHeader hself
  | _ => cases hk

omit hself in
theorem leave {k : Keyword} {j : Jump} (hk : leaves? k = some j) {t : Token} :
    Yields (Grammar.leafOf (.jump · j none) t) fun ts x rest =>
      Derives .run (.keyword k :: ts) (ending x.node.bare) rest :=
  leafOf (Q := fun ts x rest => Derives .run (.keyword k :: ts) (ending x) rest) fun _ _ => .leave hk

theorem link : Yields (link self) fun ts r rest =>
    match r with
    | .inl o => Derives .opening ts o.2.bare rest
    | .inr x => Derives .run ts (ending x.node.bare) rest := by
  refine .bind peek fun l => ?_
  split
  · exact taken fun t => .bind (leave rfl) fun x => .pure fun rest ts h => h
  · exact taken fun t => .bind (leave rfl) fun x => .pure fun rest ts h => h
  · split
    · next h hh =>
      obtain ⟨k, hk, hh⟩ := Option.bind_eq_some_iff.1 hh
      obtain rfl : l = some (.keyword k) := by
        unfold keyword? at hk
        split at hk <;> simp_all
      exact taken fun t => .bind (header hself hh) fun o => .pure fun rest ts h => h
    · refine .bind (disjunction hself) fun x => .bind (select _) fun found => ?_
      cases found with
      | none =>
        refine .pure fun rest => ?_
        rintro m₁ ⟨rfl, -⟩ m₂ hx ts ⟨-, rfl⟩
        exact .leaf hx
      | some found =>
        refine .bind skipBreak fun _ => .pure fun rest => ?_
        rintro m₁ ⟨g, rfl, -⟩ m₂ ⟨rfl, ho⟩ m₃ hx ts ⟨-, rfl⟩
        cases hl : found.2.lexeme with
        | assign op =>
          rw [hl] at hx ho
          cases Option.some.inj ho
          exact .assign hx
        | _ => simp [hl, assignOp] at ho

theorem run (fuel : Nat) (os : List (Position × Opening)) : Yields (run self fuel os) fun ts r rest =>
    ∃ more : Run, r = ⟨os ++ more.openings, more.leaf⟩ ∧ Derives .run ts more.bare rest := by
  induction fuel generalizing os with
  | zero => exact stop
  | succ fuel ih =>
    refine .bind (link hself) fun r => ?_
    split
    · next o =>
      refine (ih (os ++ [o])).mono fun ts r rest h ts' ho => ?_
      obtain ⟨more, rfl, hr⟩ := h
      exact ⟨more.opened o.1 o.2, by simp [Run.opened], .opened ho hr⟩
    · next x => exact .pure fun rest ts hx => ⟨⟨[], x⟩, by simp, hx⟩

theorem alternatives (fuel opened : Nat) : Yields (alternatives self fuel opened) fun ts as rest =>
    Derives (.alternatives opened) ts (as.map Alternative.bare) rest := by
  induction fuel generalizing opened with
  | zero => exact .pure fun _ => .noElse
  | succ fuel ih =>
    cases opened with
    | zero => exact .pure fun _ => .noElse
    | succ opened =>
      refine .bind get fun c => ?_
      split
      · refine .pure fun rest ts h => ?_
        rw [h.2]
        exact .noElse
      · next before hbefore =>
        refine .bind skipBreak fun _ => .bind take fun t => .bind (accept _) fun b => .bind remaining fun n =>
          .bind (run hself n []) fun r => .bind (ih _) fun as => .pure fun rest => ?_
        rintro m₁ has m₂ ⟨more, rfl, hr⟩ m₃ rfl m₄ hb m₅ rfl m₆ ⟨g, rfl, hg⟩ ts ⟨hc, rfl⟩
        obtain ⟨ts', hts'⟩ := elseNext_eq_some hbefore
        obtain ⟨rfl, hl, rfl⟩ := gap_cons_inj (hts'.symm.trans hc) (by simp) (by simpa using hg)
        rw [← hl]
        have hb : ts' = gap b m₂ := by
          cases b with
          | true => exact hb
          | false => exact hb.1.symm
        rw [hb]
        rw [← Run.conds_bare] at has
        exact .orElse hr has

theorem chain (os : List (Position × Opening)) : Yields (chain self os) fun ts x rest =>
    ∃ r mid as, Derives .run ts (Run.bare r) mid ∧
      Derives (.alternatives (Run.conds ⟨os ++ r.openings, r.leaf⟩)) mid as rest ∧
      x.node.bare = built (Run.bare ⟨os ++ r.openings, r.leaf⟩) as := by
  refine .bind remaining fun n => .bind (run hself n os) fun r => .bind remaining fun n' =>
    .bind (alternatives hself n' _) fun as => .bind get fun c => .pure fun rest => ?_
  rintro m₁ ⟨-, rfl⟩ m₂ has m₃ rfl m₄ ⟨more, rfl, hr⟩ ts rfl
  exact ⟨more, _, _, hr, has, (Chain.build_bare _ _ _).symm⟩

theorem expressionOf (b : Bool) : Yields (expressionOf self b) fun ts x rest =>
    Derives (.expression b) ts x.node.bare rest := by
  refine .bind peek fun l => ?_
  split
  · next hl =>
    refine (chain hself []).mono fun ts x rest h ts' hts => ?_
    obtain ⟨rfl, rfl⟩ := hts
    obtain ⟨r, mid, as, hr, has, hx⟩ := h
    rw [hx]
    rw [← Run.conds_bare] at has
    exact .control hl hr has
  · refine .bind (disjunction hself) fun t => .bind peek fun l' => ?_
    split
    · next op =>
      refine taken fun u => .bind skipBreak fun _ => (chain hself _).mono fun ts x rest h => ?_
      rintro m₁ ⟨g, rfl, -⟩ m₂ ht ts ⟨-, rfl⟩
      obtain ⟨r, mid, as, hr, has, hx⟩ := h
      rw [hx]
      have hconds : Run.conds ⟨(t.start, .assign op t.node) :: r.openings, r.leaf⟩ = r.bare.conds := by
        rw [Run.conds_bare]
        rfl
      rw [List.singleton_append, hconds] at has
      exact .assigned ht hr has
    · split
      · next hb =>
        subst hb
        refine taken fun u => .bind skipBreak fun _ => .bind (hself false) fun v => .bind (span _ _) fun s =>
          .pure fun rest => ?_
        rintro m₁ rfl m₂ hv m₃ ⟨g, rfl, -⟩ m₄ ht ts ⟨-, rfl⟩
        exact .equals ht hv
      · refine .pure fun rest => ?_
        rintro m₁ ⟨-, rfl⟩ m₂ ht ts ⟨-, rfl⟩
        exact .operation ht
    · refine .pure fun rest => ?_
      rintro m₁ ⟨-, rfl⟩ m₂ ht ts ⟨-, rfl⟩
      exact .operation ht

end

theorem expression [Text.CharNames] (depth : Nat) (b : Bool) : Yields (expression depth b) fun ts x rest =>
    Derives (.expression b) ts x.node.bare rest := by
  induction depth generalizing b with
  | zero => exact stop
  | succ depth ih => exact expressionOf ih b

theorem script [Text.CharNames] : Yields script fun ts ss _ => Derives .statements ts (bareNodes ss) [] := by
  refine .bind remaining fun n => .bind (sequence (expression _ true) (n + 1)) fun ss =>
    .bind length fun left => ?_
  split
  · next hleft =>
    refine .pure fun rest => ?_
    rintro m₁ ⟨rfl, hm₁⟩ m₂ hss ts rfl
    obtain rfl : rest = [] := by simpa [hm₁] using hleft
    exact hss
  · exact stop

end Yields

/-- A script is read as a tree that the grammar derives from its lexemes. -/
theorem derives_of_read [Text.CharNames] {file : String} {tokens : List Token} {ss : List Node} {d : Cursor}
    (h : read file tokens = .ok (ss, d)) (hd : d.misread = none) :
    Derives .statements (tokens.map (·.lexeme)) (bareNodes ss) [] :=
  (Yields.script h hd).2

end Grammar

theorem Program.derives_of_ofTokens [Text.CharNames] {source file : String} {p : Program}
    (h : ofTokens file (Token.cut source.toList) = .ok p) :
    Grammar.Derives .statements (lexemes source.toList) (bareNodes p.body) [] := by
  unfold ofTokens at h
  split at h
  · cases h
  · next body d hread =>
    split at h
    · cases h
    · next hmisread =>
      cases h
      exact Grammar.derives_of_read hread hmisread

theorem Program.derives_of_parse [Text.CharNames] {source file : String} {p : Program} (h : parse source file = .ok p) :
    Grammar.Derives .statements (lexemes source.toList) (bareNodes p.body) [] := by
  unfold parse at h
  split at h
  · cases h
  · exact derives_of_ofTokens h

end Deadwood
