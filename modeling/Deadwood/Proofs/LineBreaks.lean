import Deadwood.Proofs.Concatenation

/-! Line breaks that separate statements and line breaks that do not. A change of lexemes that leaves
everything but separators as it is carries derivations over. Two such changes show what a line break
is for: two of them side by side separate statements, unless they are all that an empty list holds,
and a separator may be replaced by others. -/
namespace Deadwood.Grammar

/-- A change of lexemes that the grammar follows. `R true` is the change behind an opening
parenthesis, where an empty list may begin. -/
structure Harmless (R : Bool → List Lexeme → List Lexeme → Prop) : Prop where
  refl : R false ts ts
  mark : R b (l :: ts) us → separates l = false → ∃ us', us = l :: us' ∧ R (decide (l = .openParen)) ts us'
  lead : R b (l :: ts) us → separates l = false → R false (l :: ts) us
  feed : R b (.newline :: l :: ts) us → separates l = false → (b = true → l ≠ .closeParen) →
    ∃ us', us = .newline :: us' ∧ R false (l :: ts) us'
  lone : R true (.newline :: .closeParen :: ts) us →
    ∃ g us', us = .newline :: gap g (.closeParen :: us') ∧ R false ts us'
  pair : R true (.newline :: .newline :: .closeParen :: ts) us →
    ∃ us', us = .newline :: .newline :: .closeParen :: us' ∧ R false ts us'
  /-- A separator becomes any number of them, or two line breaks become a semicolon. -/
  separator : R false (l :: ts) us → separates l →
    (∃ seps us', us = seps ++ us' ∧ (∀ m ∈ seps, separates m) ∧ R false ts us') ∨
      ∃ r, ts = .newline :: r ∧ us = .semicolon :: r
  starts : R false (l :: ts) us → separates l → ∃ m us', us = m :: us' ∧ separates m

theorem separates_of_begins {k : Nat} {l : Lexeme} (h : begins k l) : separates l = false := by
  cases l with
  | newline | semicolon => cases h
  | _ => rfl

theorem ne_openParen {l : Lexeme} (h : separates l) : decide (l = .openParen) = false := by
  cases l with
  | openParen => cases h
  | _ => rfl

namespace Harmless
variable {R : Bool → List Lexeme → List Lexeme → Prop} (hR : Harmless R)
include hR

theorem next (h : R b (l :: ts) us) (hl : separates l = false) (hl' : l ≠ .openParen) :
    ∃ us', us = l :: us' ∧ R false ts us' := by
  simpa [hl'] using hR.mark h hl

/-- A phrase after a place for a line break. -/
theorem begun (h : R b (gap g ts) us) (hts : Begun k ts rest) : ∃ us', us = gap g us' ∧ R false ts us' := by
  obtain ⟨l, r, rfl, hl, -⟩ := hts
  have hsep := separates_of_begins hl
  cases g with
  | false => exact ⟨us, rfl, hR.lead h hsep⟩
  | true =>
    refine hR.feed h hsep ?_
    rintro - rfl
    cases hl

/-- A phrase after a mark and a place for a line break. -/
theorem following (h : R b (l :: gap g ts) us) (hl : separates l = false) (hts : Begun k ts rest) :
    ∃ us', us = l :: gap g us' ∧ R false ts us' := by
  obtain ⟨us, rfl, h₁⟩ := hR.mark h hl
  obtain ⟨us, rfl, h₂⟩ := hR.begun h₁ hts
  exact ⟨us, rfl, h₂⟩

/-- A mark after a place for a line break, behind a phrase. -/
theorem closed (h : R false (gap g (l :: ts)) us) (hl : separates l = false) (hl' : l ≠ .openParen) :
    ∃ us', us = gap g (l :: us') ∧ R false ts us' := by
  cases g with
  | false => exact hR.next h hl hl'
  | true =>
    obtain ⟨us, rfl, h₁⟩ := hR.feed h hl nofun
    obtain ⟨us, rfl, h₂⟩ := hR.next h₁ hl hl'
    exact ⟨us, rfl, h₂⟩

/-- A mark between two places for a line break, behind one phrase and before another. -/
theorem crossed (h : R false (gap g (l :: gap g' ts)) us) (hl : separates l = false) (hl' : l ≠ .openParen)
    (hts : Begun k ts rest) : ∃ us', us = gap g (l :: gap g' us') ∧ R false ts us' := by
  obtain ⟨us, rfl, h₁⟩ := hR.closed h hl hl'
  obtain ⟨us, rfl, h₂⟩ := hR.begun h₁ hts
  exact ⟨us, rfl, h₂⟩

/-- A phrase of one lexeme. -/
theorem single [Text.CharNames] (hl : separates l = false) (hl' : l ≠ .openParen)
    (hp : ∀ us, Derives p (l :: us) v us) :
    ∀ us, R false (l :: ts) us → ∃ rest', R false ts rest' ∧ Derives p us v rest' := by
  intro us h
  obtain ⟨us, rfl, h₁⟩ := hR.next h hl hl'
  exact ⟨us, h₁, hp us⟩

/-- The end of an empty list. -/
theorem empty {g h : Bool} (hus : R true (gap g (gap h (.closeParen :: ts))) us) :
    ∃ g' h' us', us = gap g' (gap h' (.closeParen :: us')) ∧ R false ts us' := by
  cases g with
  | false =>
    cases h with
    | false =>
      obtain ⟨us, rfl, h₁⟩ := hR.next hus rfl nofun
      exact ⟨false, false, us, rfl, h₁⟩
    | true =>
      obtain ⟨g', us, rfl, h₁⟩ := hR.lone hus
      exact ⟨true, g', us, rfl, h₁⟩
  | true =>
    cases h with
    | false =>
      obtain ⟨g', us, rfl, h₁⟩ := hR.lone hus
      exact ⟨true, g', us, rfl, h₁⟩
    | true =>
      obtain ⟨us, rfl, h₁⟩ := hR.pair hus
      exact ⟨true, true, us, rfl, h₁⟩

end Harmless

/-- A change of the lexemes at the front makes a change of the rest, and the phrase in between keeps its
value. -/
def Phrase.Carries [Text.CharNames] (R : Bool → List Lexeme → List Lexeme → Prop) :
    (p : Phrase) → List Lexeme → p.Value → List Lexeme → Prop
  | .statements, ts, ss, rest => rest.head? ≠ some .newline → ∀ us, R false ts us →
    ∃ rest', R false rest rest' ∧ Derives .statements us ss rest'
  | .opening, ts, o, rest => (∃ rest₂, Begun 0 rest rest₂) → ∀ us, R false ts us →
    ∃ rest', R false rest rest' ∧ Derives .opening us o rest'
  | .enclosed i, ts, xs, rest => ∀ us, R true ts us → ∃ rest', R false rest rest' ∧ Derives (.enclosed i) us xs rest'
  | p, ts, v, rest => ∀ us, R false ts us → ∃ rest', R false rest rest' ∧ Derives p us v rest'

/-- A harmless change before a derived phrase is carried through it. -/
theorem Derives.carries [Text.CharNames] {R : Bool → List Lexeme → List Lexeme → Prop} (hR : Harmless R)
    (h : Derives p ts v rest) : p.Carries R ts v rest := by
  induction h with
  | done => exact fun _ us h => ⟨us, h, .done⟩
  | separator hl hss ih =>
    intro hrest us h
    obtain ⟨seps, us, rfl, hseps, h⟩ | ⟨r, rfl, rfl⟩ := hR.separator h hl
    · obtain ⟨rest', h, hss⟩ := ih hrest us h
      exact ⟨rest', h, hss.separators hseps⟩
    · -- the other line break separates too, as no statement begins with one
      cases hss with
      | done => exact absurd rfl hrest
      | separator _ hss => exact ⟨_, hR.refl, .separator rfl hss⟩
      | last hs | next hs => exact absurd rfl (hs.advances.head_ne (l := .newline) rfl)
  | last _ ih => exact fun _ us h => (ih us h).imp fun _ => .imp_right .last
  | next _ hl _ ihs ihss =>
    intro hrest us h
    obtain ⟨mid, h₁, hs⟩ := ihs us h
    obtain ⟨m, mid, rfl, hm⟩ := hR.starts h₁ hl
    obtain ⟨rest', h₂, hss⟩ := ihss hrest _ h₁
    exact ⟨rest', h₂, .next hs hm hss⟩
  | operation _ ih => exact fun us h => (ih us h).imp fun _ => .imp_right .operation
  | control hts hr _ ihr ihas =>
    intro us h
    obtain ⟨mid, hmid, hr'⟩ := ihr us h
    obtain ⟨rest', hrest, has⟩ := ihas mid hmid
    obtain ⟨l, r, rfl, hl, -⟩ := hr.advances
    obtain ⟨us, rfl, -⟩ := hR.mark h (separates_of_begins hl)
    exact ⟨rest', hrest, .control hts hr' has⟩
  | assigned _ hr _ iht ihr ihas =>
    intro us h
    obtain ⟨mid, h₁, ht⟩ := iht us h
    obtain ⟨mid, rfl, h₂⟩ := hR.following h₁ rfl hr.advances
    obtain ⟨mid₂, h₃, hr⟩ := ihr mid h₂
    obtain ⟨rest', h₄, has⟩ := ihas mid₂ h₃
    exact ⟨rest', h₄, .assigned ht hr has⟩
  | equals _ hv iht ihv =>
    intro us h
    obtain ⟨mid, h₁, ht⟩ := iht us h
    obtain ⟨mid, rfl, h₂⟩ := hR.following h₁ rfl hv.advances
    obtain ⟨rest', h₃, hv⟩ := ihv mid h₂
    exact ⟨rest', h₃, .equals ht hv⟩
  | leaf _ ih => exact fun us h => (ih us h).imp fun _ => .imp_right .leaf
  | leave hk => exact hR.single rfl nofun fun _ => .leave hk
  | opened _ hr iho ihr =>
    intro us h
    obtain ⟨mid, h₁, ho⟩ := iho ⟨_, hr.advances⟩ us h
    obtain ⟨rest', h₂, hr⟩ := ihr mid h₁
    exact ⟨rest', h₂, .opened ho hr⟩
  | noElse => exact fun us h => ⟨us, h, .noElse⟩
  | orElse hr _ ihr ihas =>
    intro us h
    obtain ⟨us, rfl, h₁⟩ := hR.crossed h rfl nofun hr.advances
    obtain ⟨mid, h₂, hr⟩ := ihr us h₁
    obtain ⟨rest', h₃, has⟩ := ihas mid h₂
    exact ⟨rest', h₃, .orElse hr has⟩
  | cond hc ih =>
    rintro ⟨_, hrest⟩ us h
    obtain ⟨us, rfl, h₁⟩ := hR.next h rfl nofun
    obtain ⟨us, rfl, h₂⟩ := hR.following h₁ rfl hc.advances
    obtain ⟨mid, h₃, hc⟩ := ih us h₂
    obtain ⟨rest', rfl, h₄⟩ := hR.crossed h₃ rfl nofun hrest
    exact ⟨rest', h₄, .cond hc⟩
  | whileLoop hc ih =>
    rintro ⟨_, hrest⟩ us h
    obtain ⟨us, rfl, h₁⟩ := hR.next h rfl nofun
    obtain ⟨us, rfl, h₂⟩ := hR.following h₁ rfl hc.advances
    obtain ⟨mid, h₃, hc⟩ := ih us h₂
    obtain ⟨rest', rfl, h₄⟩ := hR.crossed h₃ rfl nofun hrest
    exact ⟨rest', h₄, .whileLoop hc⟩
  | repeatLoop =>
    rintro ⟨_, hrest⟩ us h
    obtain ⟨rest', rfl, h₁⟩ := hR.following h rfl hrest
    exact ⟨rest', h₁, .repeatLoop⟩
  | forLoop hl _ ih =>
    rintro ⟨_, hrest⟩ us h
    obtain ⟨us, rfl, h₁⟩ := hR.next h rfl nofun
    obtain ⟨us, rfl, h₂⟩ := hR.mark h₁ rfl
    have hname {r : List Lexeme} := Begun.of_cons (begins_of_argumentText? (argumentText?_of_name? hl) 0) r.nil_suffix
    obtain ⟨us, rfl, h₃⟩ := hR.begun h₂ hname
    obtain ⟨us, rfl, h₄⟩ := hR.mark h₃ (separates_of_name? hl)
    obtain ⟨us, rfl, h₅⟩ := hR.next h₄ rfl nofun
    obtain ⟨mid, h₆, hx⟩ := ih us h₅
    obtain ⟨rest', rfl, h₇⟩ := hR.crossed h₆ rfl nofun hrest
    exact ⟨rest', h₇, .forLoop hl hx⟩
  | function _ ih =>
    rintro ⟨_, hrest⟩ us h
    obtain ⟨us, rfl, h₁⟩ := hR.next h rfl nofun
    obtain ⟨us, rfl, h₂⟩ := hR.mark h₁ rfl
    obtain ⟨mid, h₃, hps⟩ := ih us h₂
    obtain ⟨rest', rfl, h₄⟩ := hR.begun h₃ hrest
    exact ⟨rest', h₄, .function hps⟩
  | assign _ ih =>
    rintro ⟨_, hrest⟩ us h
    obtain ⟨mid, h₁, ht⟩ := ih us h
    obtain ⟨rest', rfl, h₂⟩ := hR.following h₁ rfl hrest
    exact ⟨rest', h₂, .assign ht⟩
  | positional _ ih => exact fun us h => (ih us h).imp fun _ => .imp_right .positional
  | named hl hx ih =>
    intro us h
    obtain ⟨us, rfl, h₁⟩ := hR.mark h (separates_of_begins (begins_of_argumentText? hl 0))
    obtain ⟨us, rfl, h₂⟩ := hR.following h₁ rfl hx.advances
    obtain ⟨rest', h₃, hx⟩ := ih us h₂
    exact ⟨rest', h₃, .named hl hx⟩
  | plain hl => exact hR.single (separates_of_name? hl) (by rintro rfl; cases hl) fun _ => .plain hl
  | defaulted hl hx ih =>
    intro us h
    obtain ⟨us, rfl, h₁⟩ := hR.mark h (separates_of_name? hl)
    obtain ⟨us, rfl, h₂⟩ := hR.following h₁ rfl hx.advances
    obtain ⟨rest', h₃, hx⟩ := ih us h₂
    exact ⟨rest', h₃, .defaulted hl hx⟩
  | index _ ih => exact fun us h => (ih us h).imp fun _ => .imp_right .index
  | single _ ih => exact fun us h => (ih us h).imp fun _ => .imp_right .single
  | comma _ hxs ihx ihxs =>
    intro us h
    obtain ⟨mid, h₁, hx⟩ := ihx us h
    obtain ⟨mid, rfl, h₂⟩ := hR.crossed h₁ rfl nofun hxs.advances
    obtain ⟨rest', h₃, hxs⟩ := ihxs mid h₂
    exact ⟨rest', h₃, .comma hx hxs⟩
  | empty =>
    intro us h
    obtain ⟨g, h', us, rfl, h₁⟩ := hR.empty h
    exact ⟨us, h₁, .empty⟩
  | filled hxs ih =>
    intro us h
    obtain ⟨us, rfl, h₁⟩ := hR.begun h hxs.advances
    obtain ⟨mid, h₂, hxs⟩ := ih us h₁
    obtain ⟨rest', rfl, h₃⟩ := hR.closed h₂ rfl nofun
    exact ⟨rest', h₃, .filled hxs⟩
  | tighter hk _ ih => exact fun us h => (ih us h).imp fun _ => .imp_right (.tighter hk)
  | grouped hk _ _ ihl ihx =>
    intro us h
    obtain ⟨mid, h₁, hl⟩ := ihl us h
    obtain ⟨rest', h₂, hx⟩ := ihx mid h₁
    exact ⟨rest', h₂, .grouped hk hl hx⟩
  | related _ hr ihl ihr =>
    intro us h
    obtain ⟨mid, h₁, hl⟩ := ihl us h
    obtain ⟨mid, rfl, h₂⟩ := hR.following h₁ rfl hr.advances
    obtain ⟨rest', h₃, hr⟩ := ihr mid h₂
    exact ⟨rest', h₃, .related hl hr⟩
  | power _ hr ihl ihr =>
    intro us h
    obtain ⟨mid, h₁, hl⟩ := ihl us h
    obtain ⟨mid, rfl, h₂⟩ := hR.following h₁ rfl hr.advances
    obtain ⟨rest', h₃, hr⟩ := ihr mid h₂
    exact ⟨rest', h₃, .power hl hr⟩
  | negated _ ih =>
    intro us h
    obtain ⟨us, rfl, h₁⟩ := hR.next h rfl nofun
    obtain ⟨rest', h₂, hx⟩ := ih us h₁
    exact ⟨rest', h₂, .negated hx⟩
  | signed hl _ ih =>
    intro us h
    obtain ⟨us, rfl, h₁⟩ := hR.next h (separates_of_begins (begins_of_signOp hl)) (by rintro rfl; cases hl)
    obtain ⟨rest', h₂, hx⟩ := ih us h₁
    exact ⟨rest', h₂, .signed hl hx⟩
  | stop => exact fun us h => ⟨us, h, .stop⟩
  | operator ho hr _ ihr ihx =>
    intro us h
    obtain ⟨us, rfl, h₁⟩ := hR.following h rfl hr.advances
    obtain ⟨mid, h₂, hr⟩ := ihr us h₁
    obtain ⟨rest', h₃, hx⟩ := ihx mid h₂
    exact ⟨rest', h₃, .operator ho hr hx⟩
  | call _ _ ihargs ihx =>
    intro us h
    obtain ⟨us, rfl, h₁⟩ := hR.mark h rfl
    obtain ⟨mid, h₂, hargs⟩ := ihargs us h₁
    obtain ⟨rest', h₃, hx⟩ := ihx mid h₂
    exact ⟨rest', h₃, .call hargs hx⟩
  | brackets hxs _ ihxs ihx =>
    intro us h
    obtain ⟨us, rfl, h₁⟩ := hR.following h rfl hxs.advances
    obtain ⟨mid, h₂, hxs⟩ := ihxs us h₁
    obtain ⟨mid, rfl, h₃⟩ := hR.closed h₂ rfl nofun
    obtain ⟨rest', h₄, hx⟩ := ihx mid h₃
    exact ⟨rest', h₄, .brackets hxs hx⟩
  | doubleBrackets hxs _ ihxs ihx =>
    intro us h
    obtain ⟨us, rfl, h₁⟩ := hR.following h rfl hxs.advances
    obtain ⟨mid, h₂, hxs⟩ := ihxs us h₁
    obtain ⟨mid, rfl, h₃⟩ := hR.closed h₂ rfl nofun
    obtain ⟨mid, rfl, h₄⟩ := hR.next h₃ rfl nofun
    obtain ⟨rest', h₅, hx⟩ := ihx mid h₄
    exact ⟨rest', h₅, .doubleBrackets hxs hx⟩
  | member hm _ ih =>
    intro us h
    obtain ⟨us, rfl, h₁⟩ := hR.next h rfl nofun
    obtain ⟨us, rfl, h₂⟩ := hR.next h₁ (separates_of_name? hm) (by rintro rfl; cases hm)
    obtain ⟨rest', h₃, hx⟩ := ih us h₂
    exact ⟨rest', h₃, .member hm hx⟩
  | number hs => exact hR.single rfl nofun fun _ => .number hs
  | string hs => exact hR.single rfl nofun fun _ => .string hs
  | constant hk => exact hR.single rfl nofun fun _ => .constant hk
  | name => exact hR.single rfl nofun fun _ => .name
  | paren hx ih =>
    intro us h
    obtain ⟨us, rfl, h₁⟩ := hR.following h rfl hx.advances
    obtain ⟨mid, h₂, hx⟩ := ih us h₁
    obtain ⟨rest', rfl, h₃⟩ := hR.closed h₂ rfl nofun
    exact ⟨rest', h₃, .paren hx⟩
  | block _ ih =>
    intro us h
    obtain ⟨us, rfl, h₁⟩ := hR.next h rfl nofun
    obtain ⟨mid, h₂, hss⟩ := ih nofun us h₁
    obtain ⟨rest', rfl, h₃⟩ := hR.next h₂ rfl nofun
    exact ⟨rest', h₃, .block hss⟩

/-! Two line breaks are no more than one semicolon. -/

/-- Two line breaks become a semicolon, unless they are all that a list holds. -/
inductive Collapsed : Bool → List Lexeme → List Lexeme → Prop where
  | refl : Collapsed b ts ts
  | pair (h : b = true → ts.head? ≠ some .closeParen) : Collapsed b (.newline :: .newline :: ts) (.semicolon :: ts)
  | later (h : Collapsed (decide (l = .openParen)) ts us) : Collapsed b (l :: ts) (l :: us)

theorem Collapsed.cons (h : Collapsed b (l :: ts) us) (hl : l = .newline → ts.head? ≠ some .newline) :
    ∃ us', us = l :: us' ∧ Collapsed (decide (l = .openParen)) ts us' := by
  cases h with
  | refl => exact ⟨ts, rfl, .refl⟩
  | pair => exact absurd rfl (hl rfl)
  | later h => exact ⟨_, rfl, h⟩

theorem harmless_collapsed : Harmless Collapsed where
  refl := .refl
  mark h hl := h.cons (by rintro rfl; cases hl)
  lead h hl := by
    obtain ⟨us, rfl, h₁⟩ := h.cons (by rintro rfl; cases hl)
    exact .later h₁
  feed h hl _ := h.cons fun _ h' => by cases Option.some.inj h'; cases hl
  lone h := by
    obtain ⟨us, rfl, h₁⟩ := h.cons nofun
    obtain ⟨us, rfl, h₂⟩ := h₁.cons nofun
    exact ⟨false, us, rfl, h₂⟩
  pair h := by
    cases h with
    | refl => exact ⟨_, rfl, .refl⟩
    | pair h => exact absurd rfl (h rfl)
    | later h =>
      obtain ⟨us, rfl, h₁⟩ := h.cons nofun
      obtain ⟨us, rfl, h₂⟩ := h₁.cons nofun
      exact ⟨us, rfl, h₂⟩
  separator {l ts us} h hl := by
    cases h with
    | refl => exact .inl ⟨[l], ts, rfl, by simpa using hl, .refl⟩
    | pair => exact .inr ⟨_, rfl, rfl⟩
    | later h => exact .inl ⟨[l], _, rfl, by simpa using hl, ne_openParen hl ▸ h⟩
  starts h hl := by
    cases h with
    | refl => exact ⟨_, _, rfl, hl⟩
    | pair => exact ⟨_, _, rfl, rfl⟩
    | later => exact ⟨_, _, rfl, hl⟩

theorem Collapsed.of_pair (xs : List Lexeme) {ys : List Lexeme} (b : Bool)
    (h : b = true → xs = [] → ys.head? ≠ some .closeParen)
    (hxs : xs.getLast? = some .openParen → ys.head? ≠ some .closeParen) :
    Collapsed b (xs ++ .newline :: .newline :: ys) (xs ++ .semicolon :: ys) := by
  induction xs generalizing b with
  | nil => exact .pair fun hb => h hb rfl
  | cons l xs ih =>
    refine .later (ih _ ?_ ?_)
    · rintro hl rfl
      exact hxs (by simpa using hl)
    · intro hlast
      exact hxs (by rw [List.getLast?_cons, hlast]; rfl)

theorem Derives.of_newlines [Text.CharNames] (hxs : xs.getLast? = some .openParen → ys.head? ≠ some .closeParen)
    (h : Derives .statements (xs ++ .newline :: .newline :: ys) ss []) :
    Derives .statements (xs ++ .semicolon :: ys) ss [] := by
  obtain ⟨rest, hrest, hss⟩ := h.carries harmless_collapsed nofun _ (.of_pair xs false nofun hxs)
  cases hrest with
  | refl => exact hss

/-! A semicolon stands for any separators, and the line break of an empty list for two. -/

inductive Loosened : Bool → List Lexeme → List Lexeme → Prop where
  | refl : Loosened b ts ts
  | separators (hl : separates l) (hseps : ∀ m ∈ seps, separates m) : Loosened b (.semicolon :: ts) (l :: (seps ++ ts))
  | lone : Loosened true (.newline :: .closeParen :: ts) (.newline :: .newline :: .closeParen :: ts)
  | later (h : Loosened (decide (l = .openParen)) ts us) : Loosened b (l :: ts) (l :: us)

theorem Loosened.cons (h : Loosened b (l :: ts) us) (hl : l ≠ .semicolon)
    (hb : b = true → l = .newline → ts.head? ≠ some .closeParen) :
    ∃ us', us = l :: us' ∧ Loosened (decide (l = .openParen)) ts us' := by
  cases h with
  | refl => exact ⟨ts, rfl, .refl⟩
  | separators => exact absurd rfl hl
  | lone => exact absurd rfl (hb rfl rfl)
  | later h => exact ⟨_, rfl, h⟩

theorem harmless_loosened : Harmless Loosened where
  refl := .refl
  mark h hl := h.cons (by rintro rfl; cases hl) (by rintro - rfl; cases hl)
  lead h hl := by
    obtain ⟨us, rfl, h₁⟩ := h.cons (by rintro rfl; cases hl) (by rintro - rfl; cases hl)
    exact .later h₁
  feed h hl hb := h.cons nofun fun hb' _ h' => hb hb' (Option.some.inj h')
  lone h := by
    cases h with
    | refl => exact ⟨false, _, rfl, .refl⟩
    | lone => exact ⟨true, _, rfl, .refl⟩
    | later h =>
      obtain ⟨us, rfl, h₁⟩ := h.cons nofun nofun
      exact ⟨false, us, rfl, h₁⟩
  pair h := by
    obtain ⟨us, rfl, h₁⟩ := h.cons nofun nofun
    obtain ⟨us, rfl, h₂⟩ := h₁.cons nofun nofun
    obtain ⟨us, rfl, h₃⟩ := h₂.cons nofun nofun
    exact ⟨us, rfl, h₃⟩
  separator {l ts us} h hl := by
    cases h with
    | refl => exact .inl ⟨[l], ts, rfl, by simpa using hl, .refl⟩
    | separators hm hseps => exact .inl ⟨_ :: _, ts, rfl, List.forall_mem_cons.2 ⟨hm, hseps⟩, .refl⟩
    | later h => exact .inl ⟨[l], _, rfl, by simpa using hl, ne_openParen hl ▸ h⟩
  starts h hl := by
    cases h with
    | refl => exact ⟨_, _, rfl, hl⟩
    | separators hm => exact ⟨_, _, rfl, hm⟩
    | later => exact ⟨_, _, rfl, hl⟩

theorem Loosened.append (xs : List Lexeme) (h : ∀ b, Loosened b ts us) (b : Bool) :
    Loosened b (xs ++ ts) (xs ++ us) := by
  induction xs generalizing b with
  | nil => exact h b
  | cons l xs ih => exact .later (ih _)

theorem Derives.of_loosened [Text.CharNames] (hus : Loosened false ts us) (h : Derives .statements ts ss []) :
    Derives .statements us ss [] := by
  obtain ⟨rest, hrest, hss⟩ := h.carries harmless_loosened nofun _ hus
  cases hrest with
  | refl => exact hss

theorem Derives.of_semicolon [Text.CharNames] (h : Derives .statements (xs ++ .semicolon :: ys) ss [])
    (hl : separates l)
    (seps : List Lexeme) (hseps : ∀ m ∈ seps, separates m) : Derives .statements (xs ++ l :: (seps ++ ys)) ss [] :=
  h.of_loosened (.append xs (fun _ => .separators hl hseps) false)

theorem Derives.of_lone [Text.CharNames]
    (h : Derives .statements (xs ++ .openParen :: .newline :: .closeParen :: ys) ss []) :
    Derives .statements (xs ++ .openParen :: .newline :: .newline :: .closeParen :: ys) ss [] :=
  h.of_loosened (.append xs (fun _ => .later (l := .openParen) .lone) false)

end Deadwood.Grammar
