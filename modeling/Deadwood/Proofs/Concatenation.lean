import Deadwood.Proofs.Completeness
import Deadwood.Proofs.Screening

/-! Scripts joined by a line feed. No statement ends in a line break, so the line feed between
two scripts can only separate statements. -/
namespace Deadwood
namespace Grammar

/-- The last lexeme of a phrase is no separator. -/
def EndsAt (ts rest : List Lexeme) : Prop := ∃ l, l :: rest <:+ ts ∧ separates l = false

namespace EndsAt

theorem of_suffix (h : l :: rest <:+ ts) (hl : separates l = false) : EndsAt ts rest := ⟨l, h, hl⟩

theorem extend (h : EndsAt mid rest) (hmid : mid <:+ ts) : EndsAt ts rest := by
  obtain ⟨l, hsuffix, hl⟩ := h
  exact .of_suffix (hsuffix.trans hmid) hl

end EndsAt

def Phrase.EndsAt : Phrase → List Lexeme → List Lexeme → Prop
  | .tail .., ts, rest | .alternatives _, ts, rest => ts = rest ∨ Grammar.EndsAt ts rest
  | .statements, _, _ | .opening, _, _ => True
  | _, ts, rest => Grammar.EndsAt ts rest

/-- An optional part at the end of a phrase. -/
theorem EndsAt.optional (h : EndsAt ts mid) (hmid : mid = rest ∨ EndsAt mid rest) (hts : mid <:+ ts) :
    EndsAt ts rest := by
  obtain rfl | hmid := hmid
  · exact h
  · exact hmid.extend hts

theorem separates_of_name? (h : Lexeme.name? l = some text) : separates l = false := by
  cases l with
  | newline | semicolon => cases h
  | _ => rfl

theorem Derives.suffix_past [Text.CharNames] (h : Derives p ts v (l :: gap g mid)) : mid <:+ ts :=
  (suffix_beyond (suffix_gap List.suffix_rfl)).trans h.suffix

theorem Derives.suffix_mark [Text.CharNames] (h : Derives p ts v (gap g (l :: mid))) : l :: mid <:+ ts :=
  (suffix_gap List.suffix_rfl).trans h.suffix

theorem Derives.endsAt [Text.CharNames] (h : Derives p ts v rest) : p.EndsAt ts rest := by
  induction h with
  | done | separator | last | next | cond | whileLoop | repeatLoop | forLoop | function | assign => trivial
  | operation _ ih | leaf _ ih | tighter _ _ ih | positional _ ih | index _ ih | single _ ih => exact ih
  | control _ hr _ ihr ihas => exact ihr.optional ihas hr.suffix
  | assigned ht hr _ _ ihr ihas => exact (ihr.optional ihas hr.suffix).extend ht.suffix_past
  | equals ht _ _ ihv => exact ihv.extend ht.suffix_past
  | leave => exact .of_suffix List.suffix_rfl rfl
  | opened ho _ _ ihr => exact ihr.extend ho.suffix
  | noElse | stop => exact .inl rfl
  | orElse hr _ ihr ihas =>
    exact .inr ((ihr.optional ihas hr.suffix).extend (suffix_gap (suffix_beyond (suffix_gap List.suffix_rfl))))
  | named _ _ ih | defaulted _ _ ih =>
    exact ih.extend (suffix_beyond (suffix_beyond (suffix_gap List.suffix_rfl)))
  | plain hl => exact .of_suffix List.suffix_rfl (separates_of_name? hl)
  | comma hx _ _ ihxs => exact ihxs.extend ((suffix_beyond (suffix_gap List.suffix_rfl)).trans hx.suffix_mark)
  | empty => exact .of_suffix (suffix_gap (suffix_gap List.suffix_rfl)) rfl
  | filled hxs => exact .of_suffix (suffix_gap hxs.suffix_mark) rfl
  | grouped _ hl _ ihl ihx => exact ihl.optional ihx hl.suffix
  | related hl _ _ ihr | power hl _ _ ihr => exact ihr.extend hl.suffix_past
  | negated _ ih | signed _ _ ih => exact ih.extend (List.suffix_cons _ _)
  | operator _ hr _ ihr ihx =>
    exact .inr ((ihr.optional ihx hr.suffix).extend (suffix_beyond (suffix_gap List.suffix_rfl)))
  | call hargs _ ihargs ihx => exact .inr ((ihargs.optional ihx hargs.suffix).extend (List.suffix_cons _ _))
  | brackets hxs _ _ ihx =>
    have hclose := EndsAt.of_suffix hxs.suffix_mark rfl
    exact .inr ((hclose.optional ihx ((List.suffix_cons _ _).trans hxs.suffix_mark)).extend
      (suffix_beyond (suffix_gap List.suffix_rfl)))
  | doubleBrackets hxs _ _ ihx =>
    have hclose := EndsAt.of_suffix ((List.suffix_cons _ _).trans hxs.suffix_mark) rfl
    exact .inr ((hclose.optional ihx ((suffix_beyond (List.suffix_cons _ _)).trans hxs.suffix_mark)).extend
      (suffix_beyond (suffix_gap List.suffix_rfl)))
  | member hm _ ih =>
    exact .inr (EndsAt.optional (.of_suffix (List.suffix_cons _ _) (separates_of_name? hm)) ih
      (suffix_beyond (List.suffix_cons _ _)))
  | number | string | constant | name => exact .of_suffix List.suffix_rfl rfl
  | paren hx => exact .of_suffix (suffix_beyond (suffix_gap hx.suffix_mark)) rfl
  | block hss => exact .of_suffix (suffix_beyond hss.suffix) rfl

/-! What follows the rest of a phrase does not matter to it. -/

theorem gap_append (g : Bool) (ts us : List Lexeme) : gap g ts ++ us = gap g (ts ++ us) := by
  cases g <;> rfl

theorem Derives.append [Text.CharNames] (h : Derives p ts v rest) (us : List Lexeme) :
    Derives p (ts ++ us) v (rest ++ us) := by
  induction h with
  | done => exact .done
  | separator hl _ ih => exact .separator hl ih
  | last _ ih => exact .last ih
  | next _ hl _ ihs ihss => exact .next ihs hl ihss
  | operation _ ih => exact .operation ih
  | control hts hr _ ihr ihas =>
    refine .control ?_ ihr ihas
    obtain ⟨l, r, rfl, -⟩ := hr.advances
    exact hts
  | assigned _ _ _ iht ihr ihas =>
    rw [List.cons_append, gap_append] at iht
    exact .assigned iht ihr ihas
  | equals _ _ iht ihv =>
    rw [List.cons_append, gap_append] at iht
    exact .equals iht ihv
  | leaf _ ih => exact .leaf ih
  | leave hk => exact .leave hk
  | opened _ _ iho ihr => exact .opened iho ihr
  | noElse => exact .noElse
  | orElse _ _ ihr ihas =>
    simp only [List.cons_append, gap_append]
    exact .orElse ihr ihas
  | cond _ ih =>
    simp only [List.cons_append, gap_append] at ih ⊢
    exact .cond ih
  | whileLoop _ ih =>
    simp only [List.cons_append, gap_append] at ih ⊢
    exact .whileLoop ih
  | repeatLoop =>
    simp only [List.cons_append, gap_append]
    exact .repeatLoop
  | forLoop hl _ ih =>
    simp only [List.cons_append, gap_append] at ih ⊢
    exact .forLoop hl ih
  | function _ ih =>
    simp only [List.cons_append, gap_append] at ih ⊢
    exact .function ih
  | assign _ ih =>
    simp only [List.cons_append, gap_append] at ih ⊢
    exact .assign ih
  | positional _ ih => exact .positional ih
  | named hl _ ih =>
    simp only [List.cons_append, gap_append]
    exact .named hl ih
  | plain hl => exact .plain hl
  | defaulted hl _ ih =>
    simp only [List.cons_append, gap_append]
    exact .defaulted hl ih
  | index _ ih => exact .index ih
  | single _ ih => exact .single ih
  | comma _ _ ihx ihxs =>
    simp only [List.cons_append, gap_append] at ihx
    exact .comma ihx ihxs
  | empty =>
    simp only [List.cons_append, gap_append]
    exact .empty
  | filled _ ih =>
    simp only [List.cons_append, gap_append] at ih ⊢
    exact .filled ih
  | tighter hk _ ih => exact .tighter hk ih
  | grouped hk _ _ ihl ihx => exact .grouped hk ihl ihx
  | related _ _ ihl ihr =>
    simp only [List.cons_append, gap_append] at ihl
    exact .related ihl ihr
  | power _ _ ihl ihr =>
    simp only [List.cons_append, gap_append] at ihl
    exact .power ihl ihr
  | negated _ ih => exact .negated ih
  | signed hl _ ih => exact .signed hl ih
  | stop => exact .stop
  | operator ho _ _ ihr ihx =>
    simp only [List.cons_append, gap_append]
    exact .operator ho ihr ihx
  | call _ _ ihargs ihx => exact .call ihargs ihx
  | brackets _ _ ihxs ihx =>
    simp only [List.cons_append, gap_append] at ihxs ⊢
    exact .brackets ihxs ihx
  | doubleBrackets _ _ ihxs ihx =>
    simp only [List.cons_append, gap_append] at ihxs ⊢
    exact .doubleBrackets ihxs ihx
  | member hm _ ih => exact .member hm ih
  | number hs => exact .number hs
  | string hs => exact .string hs
  | constant hk => exact .constant hk
  | name => exact .name
  | paren _ ih =>
    simp only [List.cons_append, gap_append] at ih ⊢
    exact .paren ih
  | block _ ih => exact .block ih

theorem getLast?_of_suffix {mid ts : List Lexeme} (h : mid <:+ ts) (hl : mid.getLast? = some l) :
    ts.getLast? = some l := by
  obtain ⟨front, rfl⟩ := h
  rw [List.getLast?_append, hl]
  rfl

theorem Derives.eq_nil [Text.CharNames] (h : Derives .statements [] ss rest) : ss = [] := by
  cases h with
  | done => rfl
  | last hs | next hs =>
    obtain ⟨l, r, heq, -⟩ := hs.advances
    cases heq

/-- A separator at the front of a sequence belongs to no statement. -/
theorem Derives.tail_of_separates [Text.CharNames] (h : Derives .statements (l :: ts) ss []) (hl : separates l) :
    Derives .statements ts ss [] := by
  cases h with
  | separator _ hss => exact hss
  | last hs | next hs => exact absurd rfl (hs.advances.head_ne (Complete.begins_of_separates hl))

def Phrase.Continues [Text.CharNames] : (p : Phrase) → List Lexeme → p.Value → List Lexeme → Prop
  | .statements, ts, ss, rest => rest = [] → ∀ us ss', Derives .statements us ss' [] →
    (∀ l, us.head? = some l → separates l) ∨ (∀ l, ts.getLast? = some l → separates l) →
    Derives .statements (ts ++ us) (ss ++ ss') []
  | _, _, _, _ => True

/-- A sequence is continued by another one if a separator stands on either side. -/
theorem Derives.continues [Text.CharNames] (h : Derives p ts v rest) : p.Continues ts v rest := by
  induction h with
  | done =>
    rintro rfl us ss' hss' -
    exact hss'
  | separator hl _ ih =>
    intro hrest us ss' hss' hjoin
    refine .separator hl (ih hrest us ss' hss' (hjoin.imp_right fun hlast m hm => hlast m ?_))
    exact getLast?_of_suffix (List.suffix_cons _ _) hm
  | last hs ih =>
    rintro rfl us ss' hss' hjoin
    obtain hfirst | hlast := hjoin
    · cases us with
      | nil =>
        rw [hss'.eq_nil, List.append_nil]
        exact .last hs
      | cons l us => exact .next (hs.append (l :: us)) (hfirst l rfl) hss'
    · -- a statement does not end in a separator
      obtain ⟨l, hsuffix, hl⟩ := hs.endsAt
      rw [hlast l (getLast?_of_suffix hsuffix rfl)] at hl
      cases hl
  | next hs hl _ _ ihss =>
    intro hrest us ss' hss' hjoin
    refine .next (hs.append us) hl (ihss hrest us ss' hss' (hjoin.imp_right fun hlast m hm => hlast m ?_))
    exact getLast?_of_suffix hs.suffix hm
  | _ => trivial

end Grammar

theorem Program.derives_append_newline [Text.CharNames] {a b : List Char} {ss ss' : List Node}
    (ha : Grammar.Derives .statements (lexemes a) ss []) (hb : Grammar.Derives .statements (lexemes b) ss' []) :
    Grammar.Derives .statements (lexemes (a ++ '\n' :: b)) (ss ++ ss') [] := by
  obtain ⟨ts, hts, happend⟩ := lexemes_append_newline a
  -- what is left of the second text after a line break at its front
  have hrest : Grammar.Derives .statements (lexemes (b.drop (Lexeme.newlines b))) ss' [] := by
    obtain h | h := lexemes_drop_newlines b
    · rwa [h] at hb
    · rw [h] at hb
      exact hb.tail_of_separates rfl
  rw [happend]
  obtain rfl | hts := hts
  · exact ha.continues rfl _ ss' (.separator rfl hrest) (.inl (by simp [Grammar.separates]))
  · rw [hts] at ha
    have hjoin := ha.continues rfl _ ss' hrest (.inr (by simp [Grammar.separates]))
    simpa using hjoin

/-- Scripts are read one after the other: neither a statement nor an `else` crosses the line feed
between them. -/
theorem parse_append_newline [Text.CharNames] {source source' file file' : String} {p p' : Program}
    (h : Program.parse source file = .ok p) (h' : Program.parse source' file' = .ok p') (name : String) :
    ∃ q, Program.parse (source ++ "\n" ++ source') name = .ok q ∧
      bareNodes q.body = bareNodes p.body ++ bareNodes p'.body := by
  obtain ⟨hfind, hderives⟩ := Program.parse_iff_derives.1 ⟨p, h, rfl⟩
  obtain ⟨hfind', hderives'⟩ := Program.parse_iff_derives.1 ⟨p', h', rfl⟩
  have htext : (source ++ "\n" ++ source').toList = source.toList ++ '\n' :: source'.toList := by simp
  refine Program.parse_iff_derives.2 ?_
  rw [htext]
  exact ⟨Screen.find_append_newline hfind hfind', Program.derives_append_newline hderives hderives'⟩

/-- The first script could go on after its last word, and the second one starts with a line break
and a sign. -/
theorem parse_append_newline_sign :
    ∃ p p' q, Program.parse "if (a)\n  b # else\r" "a" = .ok p ∧ Program.parse "\n-c\n" "b" = .ok p' ∧
      Program.parse ("if (a)\n  b # else\r" ++ "\n" ++ "\n-c\n") "c" = .ok q ∧
      bareNodes q.body = bareNodes p.body ++ bareNodes p'.body ∧ q.body.length = 2 := by
  have hok {x : Except ParseError Program} (h : x.isOk) : ∃ p, x = .ok p := by
    cases x with
    | error e => cases h
    | ok p => exact ⟨p, rfl⟩
  obtain ⟨p, hp⟩ := hok (x := Program.parse "if (a)\n  b # else\r" "a") (by decide +kernel)
  obtain ⟨p', hp'⟩ := hok (x := Program.parse "\n-c\n" "b") (by decide +kernel)
  obtain ⟨q, hq, hbody⟩ := parse_append_newline hp hp' "c"
  have hlength : (Program.parse ("if (a)\n  b # else\r" ++ "\n" ++ "\n-c\n") "c").toOption.map (·.body.length) =
    some 2 := by decide +kernel
  rw [hq] at hlength
  exact ⟨p, p', q, hp, hp', hq, hbody, Option.some.inj hlength⟩

end Deadwood
