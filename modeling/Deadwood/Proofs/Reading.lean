import Deadwood.Proofs.Soundness

/-! Readers that succeed. Where soundness asks what a reader that succeeded has seen, this asks
what it makes of lexemes that are known to be ahead. -/
namespace Deadwood.Grammar

/-- The reader succeeds with a result that satisfies `P`, leaves `rest`, and notes nothing. -/
def Reads (m : Reader α) (c : Cursor) (rest : List Lexeme) (P : α → Prop) : Prop :=
  ∃ a d, m c = .ok (a, d) ∧ P a ∧ d.lexemes = rest ∧ d.misread = c.misread

namespace Reads
variable {c : Cursor} {ts rest : List Lexeme} {P : α → Prop} {Q : β → Prop}

theorem pure (hc : c.lexemes = rest) (h : P a) : Reads (Pure.pure a) c rest P := ⟨a, c, rfl, h, hc, rfl⟩

theorem bind {m : Reader α} {f : α → Reader β} (hm : Reads m c mid P)
    (hf : ∀ a d, P a → d.lexemes = mid → Reads (f a) d rest Q) : Reads (m >>= f) c rest Q := by
  obtain ⟨a, d, hread, ha, hd, hmisread⟩ := hm
  obtain ⟨b, e, hread', hb, he, hmisread'⟩ := hf a d ha hd
  refine ⟨b, e, ?_, hb, he, hmisread'.trans hmisread⟩
  change (m c >>= fun r => f r.1 r.2) = _
  rw [hread]
  exact hread'

theorem mono {m : Reader α} {Q : α → Prop} (hm : Reads m c rest P) (h : ∀ a, P a → Q a) :
    Reads m c rest Q := by
  obtain ⟨a, d, hread, ha, hrest⟩ := hm
  exact ⟨a, d, hread, h a ha, hrest⟩

theorem of_skip {m : Reader α} {f : α → Reader β} (h : Reads (m >>= f) d rest Q) (hm : m c = m d)
    (hmisread : c.misread = d.misread) : Reads (m >>= f) c rest Q := by
  obtain ⟨b, e, hread, hb, he, hmisread'⟩ := h
  refine ⟨b, e, ?_, hb, he, hmisread'.trans hmisread.symm⟩
  change (m c >>= fun r => f r.1 r.2) = _
  rw [hm]
  exact hread

theorem get {f : Cursor → Reader β} (h : Reads (f c) c rest Q) : Reads (MonadState.get >>= f) c rest Q := h

theorem remaining {f : Nat → Reader β} (h : Reads (f c.lexemes.length) c rest Q) :
    Reads (remaining >>= f) c rest Q := by
  rw [Cursor.lexemes, List.length_map] at h
  exact h

theorem span {f : Span → Reader β} (h : Reads (f (.between c.file a b)) c rest Q) :
    Reads (span a b >>= f) c rest Q := h

theorem peek {f : Option Lexeme → Reader β} (h : Reads (f c.lexemes.head?) c rest Q) :
    Reads (peek >>= f) c rest Q := by
  rw [Cursor.lexemes, List.head?_map] at h
  exact h

theorem take (hc : c.lexemes = l :: ts) : Reads take c ts (·.lexeme = l) := by
  obtain ⟨_ | ⟨t, tokens⟩, misread, file⟩ := c
  · cases hc
  · cases hc
    exact ⟨t, _, rfl, rfl, rfl, rfl⟩

theorem select_some {f : Lexeme → Option α} (hc : c.lexemes = l :: ts) (hl : f l = some a) :
    Reads (select f) c ts fun r => ∃ t, r = some (a, t) := by
  obtain ⟨_ | ⟨t, tokens⟩, misread, file⟩ := c
  · cases hc
  · cases hc
    exact ⟨some (a, t), ⟨tokens, misread, file⟩, by simp [Grammar.select, hl], ⟨t, rfl⟩, rfl, rfl⟩

theorem select_none {f : Lexeme → Option α} (hc : c.lexemes = ts) (h : ∀ l, ts.head? = some l → f l = none) :
    Reads (select f) c ts (· = none) := by
  subst hc
  obtain ⟨_ | ⟨t, tokens⟩, misread, file⟩ := c
  · exact ⟨none, _, rfl, rfl, rfl, rfl⟩
  · have ht : f t.lexeme = none := h _ rfl
    exact ⟨none, _, by simp [Grammar.select, ht], rfl, rfl, rfl⟩

theorem accept_true (hc : c.lexemes = l :: ts) : Reads (accept l) c ts (· = true) := by
  refine .bind (select_some hc (if_pos rfl)) fun r d hr hd => .pure hd ?_
  obtain ⟨t, rfl⟩ := hr
  rfl

theorem accept_false (hc : c.lexemes = ts) (h : ts.head? ≠ some l) : Reads (accept l) c ts (· = false) := by
  refine .bind (select_none hc fun m hm => if_neg ?_) fun r d hr hd => .pure hd (by rw [hr]; rfl)
  rintro rfl
  exact h hm

theorem expect (hc : c.lexemes = l :: ts) : Reads (expect l) c ts fun _ => True := by
  refine .bind (select_some hc (if_pos rfl)) fun r d hr hd => ?_
  obtain ⟨t, rfl⟩ := hr
  exact .pure hd trivial

theorem skipBreak (hc : c.lexemes = gap g ts) (hts : ts.head? ≠ some .newline) :
    Reads skipBreak c ts fun _ => True := by
  cases g with
  | true => exact .bind (accept_true hc) fun _ d _ hd => .pure hd trivial
  | false => exact .bind (accept_false hc hts) fun _ d _ hd => .pure hd trivial

theorem name (hc : c.lexemes = l :: ts) (hl : l.name? = some text) : Reads name c ts (·.1 = text) := by
  refine .bind (select_some hc hl) fun r d hr hd => ?_
  obtain ⟨t, rfl⟩ := hr
  exact .pure hd rfl

theorem closeBracket (hc : c.lexemes = .closeBracket p :: ts) : Reads closeBracket c ts fun _ => True := by
  refine .bind (select_some (a := ()) hc rfl) fun r d hr hd => ?_
  obtain ⟨t, rfl⟩ := hr
  exact .pure hd trivial

theorem closeDouble (hc : c.lexemes = .closeBracket true :: .closeBracket p :: ts) :
    Reads closeDouble c ts fun _ => True :=
  .bind (expect hc) fun _ _ _ hd => closeBracket hd

theorem skipSeparators (hc : c.lexemes = ts) (hts : ∀ l, ts.head? = some l → !separates l) :
    Reads skipSeparators c ts fun _ => True := by
  refine ⟨(), { c with tokens := c.tokens.dropWhile isSeparator }, rfl, trivial, ?_, rfl⟩
  have hdrop : (c.tokens.dropWhile isSeparator).map (·.lexeme) = c.lexemes.dropWhile separates := by
    rw [Cursor.lexemes, List.dropWhile_map]
    congr 2
    funext t
    cases h : t.lexeme <;> simp [isSeparator, separates, h]
  rw [Cursor.lexemes, hdrop, hc]
  cases ts with
  | nil => rfl
  | cons l ts =>
    have hl : separates l = false := by simpa using hts l rfl
    rw [List.dropWhile_cons_of_neg (by simp [hl])]

theorem valued {node : Span → α → Node} (hc : c.lexemes = ts) (hnode : ∀ s, (node s a).bare = v) :
    Reads (valued (.ok a) node t) c ts (·.node.bare = v) :=
  .span (.pure hc (hnode _))

theorem leafOf {node : Span → Node} (hc : c.lexemes = ts) (hnode : ∀ s, (node s).bare = v) :
    Reads (leafOf node t) c ts (·.node.bare = v) :=
  .span (.pure hc (hnode _))

theorem binary {l r : Part} (hc : c.lexemes = ts) :
    Reads (binary o l r) c ts (·.node.bare = .binary .blank o l.node.bare r.node.bare) :=
  .span (.pure hc rfl)

theorem once_none {left right : Reader Part} {P : Part → Prop} (hleft : Reads left c rest P)
    (hop : ∀ l, rest.head? = some l → op l = none) : Reads (once op left right) c rest P := by
  refine .bind hleft fun x d hx hd => .bind (select_none hd hop) fun r d hr hd => ?_
  rw [hr]
  exact .pure hd hx

theorem once_some {left right : Reader Part} (hleft : Reads left c (l :: gap g mid) (·.node.bare = x))
    (hop : op l = some o) (hmid : mid.head? ≠ some .newline)
    (hright : ∀ d : Cursor, d.lexemes = mid → Reads right d rest (·.node.bare = y)) :
    Reads (once op left right) c rest (·.node.bare = .binary .blank o x y) := by
  refine .bind hleft fun l d hl hd => .bind (select_some hd hop) fun s d hs hd => ?_
  obtain ⟨t, rfl⟩ := hs
  refine .bind (skipBreak hd hmid) fun _ d _ hd => .bind (hright d hd) fun r d hr hd => ?_
  exact (binary hd).mono fun x hx => by rw [hx, hl, hr]

theorem leading_none {item : Reader Part → Reader Part} {P : Part → Prop} (hc : c.lexemes = ts)
    (hop : ∀ l, ts.head? = some l → op l = none)
    (hitem : ∀ d : Cursor, d.lexemes = ts → Reads (item (leading op item fuel)) d rest P) :
    Reads (leading op item (fuel + 1)) c rest P := by
  refine .bind (select_none hc hop) fun r d hr hd => ?_
  rw [hr]
  exact hitem d hd

theorem leading_some {item : Reader Part → Reader Part} (hc : c.lexemes = l :: ts) (hop : op l = some o)
    (h : ∀ d : Cursor, d.lexemes = ts → Reads (leading op item fuel) d rest (·.node.bare = x)) :
    Reads (leading op item (fuel + 1)) c rest (·.node.bare = .unary .blank o x) := by
  refine .bind (select_some hc hop) fun r d hr hd => ?_
  obtain ⟨t, rfl⟩ := hr
  exact .bind (h d hd) fun x d hx hd => .span (.pure hd (by rw [Node.bare, hx]))

end Reads

end Deadwood.Grammar
