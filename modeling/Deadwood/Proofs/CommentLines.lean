import Deadwood.Proofs.LineBreaks
import Deadwood.Proofs.Reserved

/-! Lines that hold a comment only. The line feed behind the comment is a line break of its own, so
such a line turns the line break before it into two. That is no matter between statements and in an
empty list. Everywhere else one line break is allowed at most, and the script is no longer one. -/
namespace Deadwood
open Text Lexeme Screen

/-- Whether a line without its end is blank but for a comment. -/
def Text.isCommentLine : List Char → Bool
  | [] => false
  | c :: r => if c == '#' then r.all (!isLineEnd ·) else isBlank c && isCommentLine r

namespace Text
variable {l : List Char}

theorem head?_of_isCommentLine (h : isCommentLine l) (b : List Char) : (l ++ b).head? ≠ some '\n' := by
  cases l with
  | nil => cases h
  | cons c r =>
    rintro hc
    cases Option.some.inj hc
    cases h

theorem newlines_of_isCommentLine (h : isCommentLine l) (b : List Char) : newlines (l ++ b) = 0 := by
  unfold newlines
  split
  · next heq => exact absurd (by rw [heq]; rfl) (head?_of_isCommentLine h b)
  · next r heq =>
    -- the line goes on behind a return
    cases l with
    | nil => cases h
    | cons c l =>
      obtain ⟨rfl, hr⟩ : c = '\r' ∧ l ++ b = '\n' :: r := List.cons.inj heq
      have hl : isCommentLine l := h
      exact absurd (by rw [hr]; rfl) (head?_of_isCommentLine hl b)
  · rfl

theorem dropWhile_of_isCommentLine (h : isCommentLine l) :
    ∃ cs, l.dropWhile isBlank = '#' :: cs ∧ ∀ c ∈ cs, isLineEnd c = false := by
  fun_induction isCommentLine l with
  | case1 => cases h
  | case2 c r hc =>
    obtain rfl : c = '#' := by simpa using hc
    exact ⟨r, rfl, by simpa using h⟩
  | case3 c r hc ih =>
    rw [Bool.and_eq_true] at h
    rw [List.dropWhile_cons_of_pos h.1]
    exact ih h.2

/-- A comment line has no lexemes, and the line feed behind it is a line break. -/
theorem lexemes_of_isCommentLine (h : isCommentLine l) (b : List Char) :
    lexemes (l ++ '\n' :: b) = .newline :: lexemes (b.drop (newlines b)) := by
  have hcomment {cs : List Char} (hcs : ∀ c ∈ cs, isLineEnd c = false) :
      lexemes ('#' :: cs ++ '\n' :: b) = .newline :: lexemes (b.drop (newlines b)) := by
    have hdrop : (cs ++ '\n' :: b).dropWhile (· != '\n') = '\n' :: b := by
      refine List.dropWhile_append_of_pos fun c hc => ?_
      have hfeed : c ≠ '\n' := fun hfeed => (not_mem_of_line hcs).1 (hfeed ▸ hc)
      simpa using hfeed
    have hscan : scan '#' (cs ++ '\n' :: b) = (none, ((cs ++ '\n' :: b).takeWhile (· != '\n')).length) := rfl
    rw [List.cons_append, lexemes_cons, hscan, drop_length_takeWhile, hdrop, lexemes_newline]
    rfl
  cases l with
  | nil => cases h
  | cons c r =>
    rw [isCommentLine] at h
    split at h
    · next hc =>
      obtain rfl : c = '#' := by simpa using hc
      exact hcomment (by simpa using h)
    · rw [Bool.and_eq_true] at h
      obtain ⟨cs, hcs, hends⟩ := dropWhile_of_isCommentLine h.2
      have hdrop : (r ++ '\n' :: b).dropWhile isBlank = '#' :: cs ++ '\n' :: b := by
        rw [List.dropWhile_append, hcs]
        rfl
      have hnext := head?_of_isCommentLine h.2 ('\n' :: b)
      rw [List.cons_append, lexemes_cons, scan_blank h.1 fun hbreak => hnext hbreak.2, drop_length_takeWhile, hdrop]
      exact hcomment hends

end Text

/-! What the screen makes of such a line. -/

namespace Screen

/-- Characters in front of a line that the screen passes over. -/
def isIdle (c : Char) : Bool := isBlank c || c == ';'

theorem isIdle_of_isBlank {c : Char} (h : isBlank c) : isIdle c := by rw [isIdle, h, Bool.true_or]

section
variable {c : Char} (hc : isIdle c)
include hc

theorem isIdle_cases : c = ' ' ∨ c = '\t' ∨ c = '\x0c' ∨ c = '\r' ∨ c = ';' := by
  simpa [isIdle, isBlank, or_assoc] using hc

theorem outside_idle (m : List Char) : outside none (c :: m) = (c :: (outside none m).1, (outside none m).2) := by
  obtain rfl | rfl | rfl | rfl | rfl := isIdle_cases hc <;> rfl

theorem nests_idle (opened m : List Char) : nests opened (c :: m) = nests opened m := by
  obtain rfl | rfl | rfl | rfl | rfl := isIdle_cases hc <;> rfl

theorem reservedIn_idle (m : List Char) : reservedIn (c :: m) = reservedIn m := by
  have hblank (hspace : isSpace c) (hcontinues : continues c) : reservedIn (c :: m) = reservedIn m := by
    have hword (s : List Char) : assignedWord? (c :: s) = assignedWord? s := by
      rw [assignedWord?, List.dropWhile_cons_of_pos hspace, assignedWord?]
    have hreserved (l : List Char) : reservedIn l = (statements l).findSome? fun s =>
      (assignedWord? s).filter fun w => (Keyword.ofText? w).isSome := rfl
    rw [hreserved, hreserved, statements_cons hcontinues, statements_eq m, consLine, List.findSome?_cons, hword,
      List.findSome?_cons]
  obtain rfl | rfl | rfl | rfl | rfl := isIdle_cases hc
  · exact hblank rfl rfl
  · exact hblank rfl rfl
  · exact hblank rfl rfl
  · exact hblank rfl rfl
  · rfl

theorem lineOk_idle {m : List Char} (h : LineOk m) : LineOk (c :: m) := by
  rw [LineOk, outside_idle hc, reservedIn_idle hc]
  exact h

end

/-- A line that is blank up to its comment. -/
inductive Vacant : List Char → Prop where
  | nil : Vacant []
  | comment : Vacant ('#' :: r)
  | blank (hc : isBlank c) (h : Vacant r) : Vacant (c :: r)

theorem Vacant.lineOk (h : Vacant m) : LineOk m := by
  induction h with
  | nil | comment => exact ⟨rfl, rfl⟩
  | blank hc _ ih => exact lineOk_idle (isIdle_of_isBlank hc) ih

theorem Vacant.nests_eq (h : Vacant m) (opened : List Char) : nests opened (outside none m).1 = some opened := by
  induction h with
  | nil | comment => rfl
  | blank hc _ ih => rw [outside_idle (isIdle_of_isBlank hc), nests_idle (isIdle_of_isBlank hc), ih]

theorem nests_visible (opened : List Char) {ls : List (List Char)} (h : ∀ m ∈ ls, Vacant m) :
    nests opened (visible ls) = some opened := by
  induction ls with
  | nil => rfl
  | cons m ls ih =>
    rw [List.forall_mem_cons] at h
    rw [visible_cons, nests_append, h.1.nests_eq, Option.bind_some, ih h.2]

theorem vacant_lines {l : List Char} (h : isCommentLine l) : ∀ m ∈ lines l, Vacant m := by
  fun_induction isCommentLine l with
  | case1 => cases h
  | case2 c r hc =>
    obtain rfl : c = '#' := by simpa using hc
    have hends : ∀ c ∈ '#' :: r, isLineEnd c = false := List.forall_mem_cons.2 ⟨rfl, by simpa using h⟩
    have hlines := lines_append hends []
    rw [List.append_nil, lines.eq_1, foldr_consLine_nil (List.cons_ne_nil _ _)] at hlines
    rw [hlines, List.forall_mem_singleton]
    exact .comment
  | case3 c r hc ih =>
    rw [Bool.and_eq_true] at h
    obtain ⟨hblank, hr⟩ := h
    have hhead := head?_of_isCommentLine hr []
    rw [List.append_nil] at hhead
    rw [lines.eq_3 c r fun t _ heq => hhead (by rw [heq]; rfl)]
    split
    · exact List.forall_mem_cons.2 ⟨.nil, ih hr⟩
    · have ih := ih hr
      cases hlines : lines r with
      | nil => exact List.forall_mem_singleton.2 (.blank hblank .nil)
      | cons m ms =>
        rw [hlines, List.forall_mem_cons] at ih
        exact List.forall_mem_cons.2 ⟨.blank hblank ih.1, ih.2⟩

theorem find_comment_line {a b l : List Char} (hl : isCommentLine l) (h : find (a ++ '\n' :: b) = none) :
    find (a ++ '\n' :: (l ++ '\n' :: b)) = none := by
  refine find_behind_newline h (fun hb => ?_) fun opened => ?_
  · rw [lineOk_append_newline]
    exact ⟨fun m hm => (vacant_lines hl m hm).lineOk, hb⟩
  · rw [visible_append_newline, nests_append, nests_visible opened (vacant_lines hl), Option.bind_some]

theorem find_semicolon {a b : List Char} (h : find (a ++ '\n' :: b) = none) : find (a ++ '\n' :: ';' :: b) = none := by
  have hlines : lines (';' :: b) = consLine ';' (lines b) := lines_cons rfl b
  refine find_behind_newline h (fun hb => ?_) fun opened => ?_
  · rw [hlines]
    cases hb' : lines b with
    | nil => exact List.forall_mem_singleton.2 ⟨rfl, rfl⟩
    | cons m ms =>
      rw [hb', List.forall_mem_cons] at hb
      exact List.forall_mem_cons.2 ⟨lineOk_idle rfl hb.1, hb.2⟩
  · rw [hlines]
    cases lines b with
    | nil => rfl
    | cons m ms => rw [consLine, visible_cons, visible_cons, outside_idle rfl, List.cons_append, nests_idle rfl]

end Screen

/-! What the grammar makes of two line breaks for one. -/

namespace Grammar
variable {ts rest b : List Lexeme}

theorem Derives.of_doubled [Text.CharNames] (hlist : ts.getLast? = some .openParen → rest.head? ≠ some .closeParen)
    (hb : b = rest ∨ b = .newline :: rest) (h : Derives .statements (ts ++ .newline :: .newline :: rest) ss []) :
    Derives .statements (ts ++ .newline :: rest) ss [] ∧
      Derives .statements (ts ++ .newline :: .semicolon :: b) ss [] := by
  have hsemicolon := h.of_newlines hlist
  refine ⟨hsemicolon.of_semicolon rfl [] nofun, ?_⟩
  obtain rfl | rfl := hb
  · exact hsemicolon.of_semicolon rfl [.semicolon] (by simp [separates])
  · exact hsemicolon.of_semicolon rfl [.semicolon, .newline] (by simp [separates])

theorem Derives.doubled_of_semicolon [Text.CharNames] (hb : b = rest ∨ b = .newline :: rest)
    (h : Derives .statements (ts ++ .newline :: .semicolon :: b) ss []) :
    Derives .statements (ts ++ .newline :: .newline :: rest) ss [] := by
  have htwo : Derives .statements (ts ++ .newline :: .newline :: b) ss [] := by
    rw [List.append_cons] at h ⊢
    exact h.of_semicolon rfl [] nofun
  obtain rfl | rfl := hb
  · exact htwo
  · -- of three line breaks two are one separator
    exact (htwo.of_newlines fun _ => by simp).of_semicolon rfl [] nofun

end Grammar

/-- Whether the line break between two texts is all that a list in parentheses holds. -/
def isLoneBreak (a b : List Char) : Bool :=
  (lexemes (a ++ ['\n'])).dropLast.getLast? == some .openParen && (lexemes ('\n' :: b)).tail.head? == some .closeParen

/-- The lexemes around a line feed, with a comment line and with a semicolon behind it. -/
theorem exists_lexemes_around (a b : List Char) :
    ∃ ts rest, lexemes (a ++ '\n' :: b) = ts ++ .newline :: rest ∧
      (∀ l, isCommentLine l → lexemes (a ++ '\n' :: (l ++ '\n' :: b)) = ts ++ .newline :: .newline :: rest) ∧
      (∃ us, (us = rest ∨ us = .newline :: rest) ∧
        lexemes (a ++ '\n' :: ';' :: b) = ts ++ .newline :: .semicolon :: us) ∧
      (isLoneBreak a b ↔ ts.getLast? = some .openParen ∧ rest.head? = some .closeParen) := by
  obtain ⟨ts, -, happend⟩ := lexemes_append_newline a
  refine ⟨ts, lexemes (b.drop (newlines b)), happend b, fun l hl => ?_, ⟨lexemes b, lexemes_drop_newlines b, ?_⟩, ?_⟩
  · rw [happend, newlines_of_isCommentLine hl, List.drop_zero, lexemes_of_isCommentLine hl]
  · have hsemicolon : lexemes (';' :: b) = .semicolon :: lexemes b := by rw [lexemes_cons]; rfl
    rw [happend, ← hsemicolon]
    rfl
  · have hbefore : lexemes (a ++ ['\n']) = ts ++ [.newline] := happend []
    rw [isLoneBreak, hbefore, List.dropLast_concat, lexemes_newline, List.tail_cons, Bool.and_eq_true, beq_iff_eq,
      beq_iff_eq]

/-- A comment line behind a line feed changes nothing where the line break separates statements, so
that a semicolon may stand behind it, and where it is all that a list holds. Everywhere else the text
is no script any more. -/
theorem parse_comment_line [Text.CharNames] {a l b file : String} {p : Program} (hl : isCommentLine l.toList)
    (h : Program.parse (a ++ "\n" ++ b) file = .ok p) :
    (Program.parse (a ++ "\n" ++ l ++ "\n" ++ b) file).toOption.map Program.bare =
      if (Program.parse (a ++ "\n;" ++ b) file).isOk || isLoneBreak a.toList b.toList then some p.bare else none := by
  obtain ⟨ts, rest, hplain, hcomment, ⟨us, hus, hsemicolon⟩, hlone⟩ := exists_lexemes_around a.toList b.toList
  have htext : (a ++ "\n" ++ b).toList = a.toList ++ '\n' :: b.toList := by simp
  have htext₁ : (a ++ "\n" ++ l ++ "\n" ++ b).toList = a.toList ++ '\n' :: (l.toList ++ '\n' :: b.toList) := by simp
  have htext₂ : (a ++ "\n;" ++ b).toList = a.toList ++ '\n' :: ';' :: b.toList := by simp
  obtain ⟨hfind, hderives⟩ := Program.parse_iff_derives.1 ⟨p, h, rfl⟩
  rw [htext] at hfind hderives
  rw [hplain] at hderives
  have hcond : ((Program.parse (a ++ "\n;" ++ b) file).isOk || isLoneBreak a.toList b.toList) ↔
      (∃ ss, Grammar.Derives .statements (ts ++ .newline :: .semicolon :: us) ss []) ∨
        ts.getLast? = some .openParen ∧ rest.head? = some .closeParen := by
    rw [Bool.or_eq_true, Program.isOk_parse_iff, htext₂, hsemicolon, and_iff_right (find_semicolon hfind), hlone]
  split
  · next hok =>
    have hdoubled : Grammar.Derives .statements (ts ++ .newline :: .newline :: rest) (bareNodes p.body) [] := by
      by_cases hlist : ts.getLast? = some .openParen ∧ rest.head? = some .closeParen
      · obtain ⟨xs, rfl⟩ := List.getLast?_eq_some_iff.1 hlist.1
        obtain ⟨ys, rfl⟩ := List.head?_eq_some_iff.1 hlist.2
        rw [List.append_assoc] at hderives ⊢
        exact hderives.of_lone
      · obtain ⟨ss, hss⟩ := (hcond.1 hok).resolve_right hlist
        have hdoubled := hss.doubled_of_semicolon hus
        have hone := (hdoubled.of_doubled (not_and.1 hlist) hus).1
        rw [← hplain, ← htext] at hone
        exact Program.eq_of_derives h hone ▸ hdoubled
    refine Program.parse_bare_iff.2 ⟨?_, bareNodes p.body, ?_, ?_⟩
    · rw [htext₁]
      exact find_comment_line hl hfind
    · rw [htext₁, hcomment _ hl]
      exact hdoubled
    · rw [← Program.file_of_parse h]
      rfl
  · next hok =>
    rw [Option.eq_none_iff_forall_ne_some]
    intro q hq
    obtain ⟨-, ss, hss, -⟩ := Program.parse_bare_iff.1 hq
    rw [htext₁, hcomment _ hl] at hss
    rw [hcond, not_or] at hok
    exact hok.1 ⟨ss, (hss.of_doubled (not_and.1 hok.2) hus).2⟩

/-- A comment with a bracket and a quote of its own between two statements of a block. -/
theorem parse_comment_line_between :
    ∃ p, isCommentLine " \t# if ('".toList ∧ Program.parse ("\x7b f()" ++ "\n" ++ "\n-c \x7d") "s" = .ok p ∧
      (Program.parse ("\x7b f()" ++ "\n;" ++ "\n-c \x7d") "s").isOk ∧
      (Program.parse ("\x7b f()" ++ "\n" ++ " \t# if ('" ++ "\n" ++ "\n-c \x7d") "s").toOption.map Program.bare =
        some p.bare := by
  have hline : isCommentLine " \t# if ('".toList := by decide +kernel
  have hsemicolon : (Program.parse ("\x7b f()" ++ "\n;" ++ "\n-c \x7d") "s").isOk := by decide +kernel
  have hok : (Program.parse ("\x7b f()" ++ "\n" ++ "\n-c \x7d") "s").isOk := by decide +kernel
  cases hp : Program.parse ("\x7b f()" ++ "\n" ++ "\n-c \x7d") "s" with
  | error e => rw [hp] at hok; cases hok
  | ok p =>
    have hcomment := parse_comment_line hline hp
    rw [hsemicolon, Bool.true_or, if_pos rfl] at hcomment
    exact ⟨p, hline, rfl, hsemicolon, hcomment⟩

/-- A comment between two arguments. -/
theorem parse_comment_between_arguments :
    isCommentLine "# c".toList ∧ (Program.parse "f(a,\nb)" "s").isOk ∧
      (Program.parse "f(a,\n# c\nb)" "s").isOk = false := by
  decide +kernel

end Deadwood
