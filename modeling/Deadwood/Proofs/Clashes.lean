import Deadwood.Proofs.Placement

/-! Reserved words as names of arguments. They are printed without quotes, and nothing is derived from lexemes in which
a reserved word and `=` stand behind an opening parenthesis or a comma. -/
namespace Deadwood
open Print

namespace Grammar

/-- A reserved word in front of `=`. -/
def namesWord : List Lexeme → Bool
  | .keyword _ :: .equals :: _ => true
  | _ => false

/-- What an item can stand behind. -/
def precedesItem : Lexeme → Bool
  | .openParen | .comma => true
  | _ => false

/-- Some item begins with a reserved word in front of `=`. -/
def clashes : List Lexeme → Bool
  | [] => false
  | l :: ts => precedesItem l && namesWord ts || clashes ts

theorem namesWord_iff {ts : List Lexeme} : namesWord ts ↔ ∃ k r, ts = .keyword k :: .equals :: r := by
  constructor
  · intro h
    unfold namesWord at h
    split at h
    · exact ⟨_, _, rfl⟩
    · cases h
  · rintro ⟨k, r, rfl⟩
    rfl

theorem namesWord_cons {l : Lexeme} {text : String} (h : argumentText? l = some text) (ts : List Lexeme) :
    namesWord (l :: ts) = false := by
  cases l with
  | keyword => cases h
  | _ => rfl

theorem namesWord_gap {ts : List Lexeme} (h : namesWord ts = false) (g : Bool) : namesWord (gap g ts) = false := by
  cases g with
  | true => rfl
  | false => exact h

theorem clashes_cons {l : Lexeme} (h : precedesItem l = false) (ts : List Lexeme) : clashes (l :: ts) = clashes ts := by
  rw [clashes, h]
  rfl

theorem clashes_of_namesWord {ts : List Lexeme} (h : namesWord ts = false) (l : Lexeme) :
    clashes (l :: ts) = clashes ts := by
  rw [clashes, h, Bool.and_false, Bool.false_or]

theorem clashes_gap (g : Bool) (ts : List Lexeme) : clashes (gap g ts) = clashes ts := by cases g <;> rfl

theorem clashes_mark {l : Lexeme} (h : precedesItem l = false) (g : Bool) (ts : List Lexeme) :
    clashes (l :: gap g ts) = clashes ts := by
  rw [clashes_cons h, clashes_gap]

theorem clashes_close (g : Bool) {l : Lexeme} (h : precedesItem l = false) (ts : List Lexeme) :
    clashes (gap g (l :: ts)) = clashes ts := by
  rw [clashes_gap, clashes_cons h]

theorem clashes_name {l : Lexeme} {text : String} (h : argumentText? l = some text) (ts : List Lexeme) :
    clashes (l :: ts) = clashes ts := by
  refine clashes_cons ?_ ts
  cases l with
  | openParen | comma => cases h
  | _ => rfl

/-! Derivations. -/

theorem Derives.namesWord_expression [Text.CharNames] (h : Derives (.expression false) ts x rest)
    (hrest : rest.head? ≠ some .equals) : namesWord ts = false := by
  rw [← Bool.not_eq_true, namesWord_iff]
  rintro ⟨k, r, rfl⟩
  rw [h.stopsAtEquals _ r rfl] at hrest
  exact hrest rfl

theorem Derives.namesWord_item [Text.CharNames] (h : Derives (.item i) ts x rest) (hrest : rest.head? ≠ some .equals) :
    namesWord ts = false := by
  cases h with
  | positional hx | index hx => exact hx.namesWord_expression hrest
  | named hl => exact namesWord_cons hl _
  | plain hl | defaulted hl => exact namesWord_cons (argumentText?_of_name? hl) _

theorem head?_gap_ne (g : Bool) {l : Lexeme} (hl : l ≠ .equals) (ts : List Lexeme) :
    (gap g (l :: ts)).head? ≠ some .equals := by
  cases g with
  | true => nofun
  | false => simpa [gap] using hl

theorem Derives.namesWord_list [Text.CharNames] (h : Derives (.list i) ts xs rest) (hrest : rest.head? ≠ some .equals) :
    namesWord ts = false := by
  cases h with
  | single hx => exact hx.namesWord_item hrest
  | comma hx => exact hx.namesWord_item (head?_gap_ne _ (l := .comma) nofun _)

theorem Derives.namesWord_enclosed [Text.CharNames] (h : Derives (.enclosed i) ts xs rest) : namesWord ts = false := by
  cases h with
  | empty => exact namesWord_gap (namesWord_gap rfl _) _
  | filled hxs => exact namesWord_gap (hxs.namesWord_list (head?_gap_ne _ (l := .closeParen) nofun _)) _

/-- No item of a phrase clashes; the last of a list does not if no `=` follows. -/
def Phrase.Clear : Phrase → List Lexeme → List Lexeme → Prop
  | .list _, ts, rest => rest.head? ≠ some .equals → clashes ts = clashes rest
  | _, ts, rest => clashes ts = clashes rest

theorem Derives.clear [Text.CharNames] (h : Derives p ts v rest) : p.Clear ts rest := by
  induction h with
  | done | noElse | stop | leave | number | string | name | constant => rfl
  | @separator l _ _ _ hl _ ih =>
    have hl : precedesItem l = false := by
      cases l with
      | openParen | comma => cases hl
      | _ => rfl
    exact (clashes_cons hl _).trans ih
  | last _ ih | operation _ ih | leaf _ ih | positional _ ih | index _ ih | tighter _ _ ih => exact ih
  | next _ _ _ ihx ihy | control _ _ _ ihx ihy | opened _ _ ihx ihy | grouped _ _ _ ihx ihy => exact Eq.trans ihx ihy
  | assigned _ _ _ iht ihr ihas => exact (Eq.trans iht (clashes_mark rfl _ _)).trans (Eq.trans ihr ihas)
  | equals _ _ iht ihv => exact (Eq.trans iht (clashes_mark rfl _ _)).trans ihv
  | orElse _ _ ihr ihas =>
    exact (clashes_close _ rfl _).trans ((clashes_gap _ _).trans (Eq.trans ihr ihas))
  | cond hc ih | whileLoop hc ih =>
    have hopen := namesWord_gap (hc.namesWord_expression (head?_gap_ne _ (l := .closeParen) nofun _))
    refine (clashes_cons rfl _).trans ((clashes_of_namesWord (hopen _) _).trans ?_)
    rw [clashes_gap, ih, clashes_close _ rfl, clashes_gap]
  | repeatLoop => exact clashes_mark rfl _ _
  | forLoop hl _ ih =>
    have hname := argumentText?_of_name? hl
    refine (clashes_cons rfl _).trans ((clashes_of_namesWord (namesWord_gap (namesWord_cons hname _) _) _).trans ?_)
    rw [clashes_gap, clashes_name hname, clashes_cons rfl, ih, clashes_close _ rfl, clashes_gap]
  | function hps ih =>
    refine (clashes_cons rfl _).trans ((clashes_of_namesWord hps.namesWord_enclosed _).trans ?_)
    rw [ih, clashes_gap]
  | assign _ ih => exact Eq.trans ih (clashes_mark rfl _ _)
  | named hl _ ih => exact (clashes_name hl _).trans ((clashes_mark rfl _ _).trans ih)
  | plain hl => exact clashes_name (argumentText?_of_name? hl) _
  | defaulted hl _ ih => exact (clashes_name (argumentText?_of_name? hl) _).trans ((clashes_mark rfl _ _).trans ih)
  | single _ ih => exact fun _ => ih
  | comma _ hxs ihx ihxs =>
    intro hrest
    rw [ihx, clashes_gap, clashes_of_namesWord (namesWord_gap (hxs.namesWord_list hrest) _), clashes_gap, ihxs hrest]
  | empty => exact (clashes_gap _ _).trans (clashes_close _ rfl _)
  | filled _ ih =>
    exact (clashes_gap _ _).trans ((ih (head?_gap_ne _ (l := .closeParen) nofun _)).trans (clashes_close _ rfl _))
  | related _ _ ihl ihr | power _ _ ihl ihr => exact (Eq.trans ihl (clashes_mark rfl _ _)).trans ihr
  | negated _ ih => exact ih
  | @signed l _ _ _ _ hl _ ih =>
    have hl : precedesItem l = false := by
      cases l with
      | openParen | comma => cases hl
      | _ => rfl
    exact (clashes_cons hl _).trans ih
  | operator _ _ _ ihr ihx => exact (clashes_mark rfl _ _).trans (Eq.trans ihr ihx)
  | call hargs _ ihargs ihx =>
    exact (clashes_of_namesWord hargs.namesWord_enclosed _).trans (Eq.trans ihargs ihx)
  | brackets _ _ ihxs ihx =>
    refine (clashes_mark rfl _ _).trans ((ihxs (head?_gap_ne _ (l := .closeBracket _) nofun _)).trans ?_)
    rw [clashes_close _ rfl, ihx]
  | doubleBrackets _ _ ihxs ihx =>
    refine (clashes_mark rfl _ _).trans ((ihxs (head?_gap_ne _ (l := .closeBracket _) nofun _)).trans ?_)
    rw [clashes_close _ rfl, clashes_cons rfl, ihx]
  | member hm _ ih => exact (clashes_cons rfl _).trans ((clashes_name (argumentText?_of_name? hm) _).trans ih)
  | paren hx ih =>
    have hopen := namesWord_gap (hx.namesWord_expression (head?_gap_ne _ (l := .closeParen) nofun _))
    refine (clashes_of_namesWord (hopen _) _).trans ?_
    rw [clashes_gap, ih, clashes_close _ rfl]
  | block _ ih => exact Eq.trans ih (clashes_cons rfl _)

end Grammar

open Grammar

/-! Printed trees. -/

def Print.sparesWord (name? : Option String) : Bool := name?.all fun s => (Keyword.ofText? s).isNone

/-- No argument of a call is named by a reserved word. -/
def Node.sparesNames : Node → Bool
  | .call _ _ args => args.all (sparesWord ·.name)
  | _ => true

theorem Node.isLegible_of_isCut {n : Node} (h : n.isCut) (hnames : n.sparesNames) : n.isLegible := by
  cases n with
  | call s f args =>
    simp only [isCut, isLegible, sparesNames, Bool.and_eq_true, List.all_eq_true] at h hnames ⊢
    refine ⟨⟨h.1.1, fun a ha => ?_⟩, h.2⟩
    have hname := hnames a ha
    rw [Argument.isLegible, h.1.2 a ha, Bool.true_and]
    cases hn : a.name with
    | none => rfl
    | some name => simpa [sparesWord, hn] using hname
  | _ => exact h

/-- Where the lexemes do not clash, whatever follows, `p` holds. -/
def Unclashed (ts : Bool → List Lexeme) (p : Bool) : Prop := ∀ tight rest, clashes (ts tight ++ rest) = false → p

theorem clashes_of_cons {l : Lexeme} {ts : List Lexeme} (h : clashes (l :: ts) = false) : clashes ts = false := by
  rw [clashes, Bool.or_eq_false_iff] at h
  exact h.2

theorem clashes_of_append {ts us : List Lexeme} (h : clashes (ts ++ us) = false) : clashes us = false := by
  induction ts with
  | nil => exact h
  | cons l ts ih => exact ih (clashes_of_cons h)

namespace Unclashed

theorem congr {p q : Bool} (h : Unclashed ts p) (hp : p = q) : Unclashed ts q := hp ▸ h

theorem trivial : Unclashed ts true := fun _ _ _ => rfl

theorem fix (h : Unclashed x p) (tight : Bool) : Unclashed (fun _ => x tight) p := fun _ => h tight

theorem append (hx : Unclashed x p) (hy : Unclashed y q) : Unclashed (fun tight => x false ++ y tight) (p && q) := by
  intro tight rest hts
  rw [List.append_assoc] at hts
  rw [hx false _ hts, hy tight rest (clashes_of_append hts)]
  rfl

theorem cons (h : Unclashed x p) (l : Lexeme) : Unclashed (fun tight => l :: x tight) p :=
  fun tight rest hts => h tight rest (clashes_of_cons hts)

theorem before (h : Unclashed x p) (ls : Bool → List Lexeme) : Unclashed (fun tight => x false ++ ls tight) p :=
  (h.append (show Unclashed ls true from .trivial)).congr (Bool.and_true p)

theorem enclosed (h : Unclashed x p) (needed : Bool) :
    Unclashed (fun tight => Print.enclosed needed (x false) (x tight)) p := by
  cases needed with
  | true => exact (h.before fun _ => [.closeParen]).cons .openParen
  | false => exact h

end Unclashed

/-- Items that are looked at one by one. -/
inductive UnclashedEach : List (Bool → List Lexeme) → Bool → Prop where
  | nil : UnclashedEach [] true
  | cons (hx : Unclashed x p) (hxs : UnclashedEach xs q) : UnclashedEach (x :: xs) (p && q)

namespace UnclashedEach

theorem commas (h : UnclashedEach xs p) : Unclashed (fun tight => Print.commas tight xs) p := by
  induction h with
  | nil => exact .trivial
  | @cons x _ xs q hx hxs ih =>
    cases hxs with
    | nil => exact hx.congr (by simp)
    | cons => exact hx.append (ih.cons .comma)

theorem rows (h : UnclashedEach xs p) : Unclashed (fun _ => Print.rows xs) p := by
  induction h with
  | nil => exact .trivial
  | @cons x _ xs q hx hxs ih =>
    have hrow := hx.append (ih.cons .newline)
    intro tight rest hts
    exact hrow tight rest (by simpa [Print.rows] using hts)

theorem braces (h : UnclashedEach xs p) : Unclashed (fun _ => Print.braces xs) p := by
  have hrows := ((h.rows.before fun _ => [.closeBrace]).cons .newline).cons .openBrace
  cases h with
  | nil => exact .trivial
  | cons => exact hrows

end UnclashedEach

theorem Print.nameLexeme_of_ofText? {name : String} {k : Keyword} (h : Keyword.ofText? name = some k) :
    nameLexeme name = .keyword k := by
  have hname : Lexeme.isName name.toList := by
    rw [Keyword.eq_text_of_ofText? h]
    cases k <;> decide
  rw [nameLexeme, if_pos hname, h]
  rfl

theorem Print.commas_cons (tight : Bool) (x : Bool → List Lexeme) (xs : List (Bool → List Lexeme)) :
    ∃ t us, commas tight (x :: xs) = x t ++ us ∧ (xs = [] ∨ us = .comma :: commas tight xs) := by
  cases xs with
  | nil => exact ⟨tight, [], (List.append_nil _).symm, .inl rfl⟩
  | cons => exact ⟨false, _, rfl, .inr rfl⟩

theorem spellArguments_cons (a : Argument) (args : List Argument) :
    ∃ x, spellArguments (a :: args) = x :: spellArguments args ∧
      ∀ tight rest, namesWord (x tight ++ rest) = false → sparesWord a.name := by
  obtain ⟨s, _ | name, v⟩ := a
  · exact ⟨_, rfl, fun _ _ _ => rfl⟩
  · refine ⟨_, rfl, fun tight rest h => ?_⟩
    cases hk : Keyword.ofText? name with
    | none => simp [sparesWord, hk]
    | some k =>
      rw [Print.nameLexeme_of_ofText? hk] at h
      cases h

/-- The names of arguments stand behind a parenthesis or a comma. -/
theorem sparesNames_of_commas {args : List Argument} {l : Lexeme} (hl : precedesItem l) {tight : Bool}
    {rest : List Lexeme} (h : clashes (l :: (Print.commas tight (spellArguments args) ++ rest)) = false) :
    args.all (sparesWord ·.name) := by
  induction args generalizing l with
  | nil => rfl
  | cons a args ih =>
    obtain ⟨x, hspell, hx⟩ := spellArguments_cons a args
    obtain ⟨t, us, hcommas, hus⟩ := Print.commas_cons tight x (spellArguments args)
    rw [hspell, hcommas, List.append_assoc, clashes, hl, Bool.true_and, Bool.or_eq_false_iff] at h
    rw [List.all_cons, hx t _ h.1, Bool.true_and]
    obtain hnil | rfl := hus
    · cases args with
      | nil => rfl
      | cons b bs => obtain ⟨_, _ | _, _⟩ := b <;> cases hnil
    · exact ih (l := .comma) rfl (clashes_of_append h.2)

mutual

theorem Node.unclashed : (n : Node) → n.all Node.isCut → Unclashed (fun tight => n.spell tight) (n.all Node.sparesNames)
  | .number .., _ | .string .., _ | .boolean .., _ | .null _, _ | .identifier _, _ => .trivial
  | .unary _ op x, h => by
    simp only [Node.all, Bool.and_eq_true] at h
    exact ((x.unclashed h.2).enclosed _).cons op.lexeme
  | .binary _ op l r, h => by
    simp only [Node.all, Bool.and_eq_true] at h
    have hleft := (l.unclashed h.1.2).enclosed (l.precedence < op.leftStrength)
    have hright := (r.unclashed h.2).enclosed (r.precedence < op.rightStrength)
    exact hleft.append (hright.cons (.op op))
  | .call _ f args, h => by
    simp only [Node.all, Bool.and_eq_true] at h
    have hcallee := (f.unclashed h.1.2).enclosed (f.precedence < atomic)
    have hargs := ((unclashed_arguments args h.2).commas.before fun _ => [.closeParen]).cons .openParen
    intro tight rest hclash
    dsimp only at hclash
    have hvalues := hcallee.append hargs tight rest (by simpa only [Node.spell] using hclash)
    rw [Node.spell, List.append_assoc, List.cons_append, List.append_assoc] at hclash
    have hnames : args.all (sparesWord ·.name) := sparesNames_of_commas rfl (clashes_of_append hclash)
    rw [Node.all, Node.sparesNames, hnames, Bool.true_and, hvalues]
  | .index _ t xs true, h | .index _ t xs false, h => by
    simp only [Node.all, Bool.and_eq_true] at h
    have htarget := (t.unclashed h.1.2).enclosed (t.precedence < atomic)
    have hitems := (unclashed_nodes xs h.2).commas.fix true
    exact (htarget.append ((hitems.before _).cons _))
  | .member _ t name, h => by
    simp only [Node.all, Bool.and_eq_true] at h
    have htarget := (t.unclashed h.2).enclosed (t.precedence < atomic)
    exact htarget.before fun _ => [.dollar, .member name]
  | .block b, h => by
    simp only [Node.all, Bool.and_eq_true] at h
    exact b.unclashed h.2
  | .assign _ op t v, h => by
    simp only [Node.all, Bool.and_eq_true] at h
    exact (t.unclashed h.1.2).append ((v.unclashed h.2).cons op.lexeme)
  | .cond _ c t none, h => by
    simp only [Node.all, Bool.and_eq_true] at h
    have hbody := (t.unclashed h.2).cons .closeParen
    exact (((c.unclashed h.1.2).append hbody).cons .openParen).cons (.keyword .ifWord)
  | .cond _ c t (some e), h => by
    simp only [Node.all, Bool.and_eq_true] at h
    have hbodies := ((t.unclashed h.1.2).append ((e.unclashedElse h.2).cons (.keyword .elseWord))).cons .closeParen
    have hcond := (((c.unclashed h.1.1.2).append hbodies).cons .openParen).cons (.keyword .ifWord)
    exact hcond.congr (Bool.and_assoc ..).symm
  | .whileLoop _ c b, h => by
    simp only [Node.all, Bool.and_eq_true] at h
    have hbody := (b.unclashed h.2).cons .closeParen
    exact (((c.unclashed h.1.2).append hbody).cons .openParen).cons (.keyword .whileWord)
  | .repeatLoop _ b, h => by
    simp only [Node.all, Bool.and_eq_true] at h
    exact (b.unclashed h.2).cons (.keyword .repeatWord)
  | .forLoop _ v x b, h => by
    simp only [Node.all, Bool.and_eq_true] at h
    have hbody := (b.unclashed h.2).cons .closeParen
    have hheader := (((x.unclashed h.1.2).append hbody).cons (.keyword .inWord)).cons (.member v.name)
    exact (hheader.cons .openParen).cons (.keyword .forWord)
  | .function _ ps b, h => by
    simp only [Node.all, Bool.and_eq_true] at h
    have hbody := (b.unclashed h.2).cons .closeParen
    have hheader := (unclashed_parameters ps h.1.2).commas.append hbody
    exact (hheader.cons .openParen).cons (.keyword .functionWord)
  | .jump _ .ret none, _ | .jump _ .brk none, _ | .jump _ .nxt none, _ => .trivial
  | .jump _ .ret (some x), h => by
    simp only [Node.all, Bool.and_eq_true] at h
    exact (((x.unclashed h.2).before fun _ => [.closeParen]).cons .openParen).cons (.name "return")
  | .jump _ .brk (some x), h | .jump _ .nxt (some x), h => by
    simp only [Node.all, Node.isCut, Node.isSpelled, Bool.and_eq_true] at h
    cases h.1

theorem Block.unclashed : (b : Block) → b.all Node.isCut → Unclashed (fun _ => b.spell) (b.all Node.sparesNames)
  | ⟨_, ss⟩, h => (unclashed_nodes ss h).braces

theorem Block.unclashedElse : (b : Block) → b.all Node.isCut →
    Unclashed (fun _ => b.spellElse) (b.all Node.sparesNames)
  | ⟨_, ss⟩, h => by
    have hss := unclashed_nodes ss h
    rw [Block.spellElse]
    cases hif : Print.isElseIf ss with
    | true =>
      obtain ⟨s, c, t, e?, rfl⟩ := Print.isElseIf_eq hif
      have hcond := hss.commas.fix false
      simpa [spellNodes, Print.commas, Block.all] using hcond
    | false => exact hss.braces

theorem unclashed_nodes : (ns : List Node) → allNodes Node.isCut ns →
    UnclashedEach (spellNodes ns) (allNodes Node.sparesNames ns)
  | [], _ => .nil
  | n :: ns, h => by
    simp only [allNodes, Bool.and_eq_true] at h
    exact .cons (n.unclashed h.1) (unclashed_nodes ns h.2)

theorem unclashed_arguments : (as : List Argument) → allArguments Node.isCut as →
    UnclashedEach (spellArguments as) (allArguments Node.sparesNames as)
  | [], _ => .nil
  | ⟨_, none, v⟩ :: as, h => by
    simp only [allArguments, Bool.and_eq_true] at h
    exact .cons (v.unclashed h.1) (unclashed_arguments as h.2)
  | ⟨_, some name, v⟩ :: as, h => by
    simp only [allArguments, Bool.and_eq_true] at h
    exact .cons (((v.unclashed h.1).cons .equals).cons (nameLexeme name)) (unclashed_arguments as h.2)

theorem unclashed_parameters : (ps : List Parameter) → allParameters Node.isCut ps →
    UnclashedEach (spellParameters ps) (allParameters Node.sparesNames ps)
  | [], _ => .nil
  | ⟨_, name, none⟩ :: ps, h => .cons .trivial (unclashed_parameters ps h)
  | ⟨_, name, some d⟩ :: ps, h => by
    simp only [allParameters, Bool.and_eq_true] at h
    exact .cons (((d.unclashed h.1).cons .equals).cons (.member name)) (unclashed_parameters ps h.2)

end

/-- What is printed is not read if an argument is named by a reserved word. -/
theorem sparesNames_of_derives [Text.CharNames] {ns : List Node} (h : allNodes Node.isCut ns)
    (hderives : Derives .statements (Print.rows (spellNodes ns)) ss []) : allNodes Node.sparesNames ns := by
  have hclear : clashes (Print.rows (spellNodes ns)) = false := hderives.clear
  exact (unclashed_nodes ns h).rows true [] (by rwa [List.append_nil])

/-- If none is, and everything is in its place, it is read. -/
theorem derives_rows_of_sparesNames [Text.CharNames] {ns : List Node} (h : allNodes Node.isCut ns)
    (hnames : allNodes Node.sparesNames ns) (hplaced : allNodes Node.isPlaced ns) :
    Derives .statements (Print.rows (spellNodes ns)) (bareNodes (rereadNodes ns)) [] := by
  have hlegible : allNodes Node.isLegible ns :=
    allNodes_imp (fun n hn hspares => n.isLegible_of_isCut (Node.self_of_all hn) hspares) ns h hnames
  have hrows := derives_rows (derived_nodes ns hlegible hplaced) []
  rwa [List.append_nil] at hrows

end Deadwood
