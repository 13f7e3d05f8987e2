import Deadwood.Proofs.Clauses
import Deadwood.Proofs.PrintedScreen

/-! The screen beside the grammar. For a script in order that the grammar accepts, the screen looks for a reserved word
before an assignment sign only where a clause begins, in strings as well as outside of them. What it finds outside of
strings is part of a target in the tree. What is a target in the tree may stand elsewhere. -/
namespace Deadwood
open Text Screen
open Lexeme (scan sighted assigns opensReserved)

/-! Lexemes next to each other. -/

/-- A piece shows its lexeme, or only ends of lines. A line break shows at least one. -/
theorem Lexeme.sighted_cases (c : Char) (r : List Char) :
    (∃ l, (scan c r).1 = some l ∧ sighted ((scan c r).1, c :: r.take (scan c r).2) = [some l]) ∨
      (∀ m ∈ sighted ((scan c r).1, c :: r.take (scan c r).2), m = none) ∧
        ((scan c r).1 = none ∨ none ∈ sighted ((scan c r).1, c :: r.take (scan c r).2)) := by
  have hcut := cut_scan c r
  cases hscan : (scan c r).1 with
  | none => exact .inr ⟨by simp [sighted], .inl rfl⟩
  | some l =>
    by_cases hl : l = .newline
    · subst hl
      rw [hscan] at hcut
      cases hcut with
      | breaks hends =>
        refine .inr ⟨by simp [sighted], .inr ?_⟩
        simp [sighted, hends c List.mem_cons_self]
      | code hcode => cases hcode
    · exact .inl ⟨l, rfl, if_neg hl⟩

namespace Screen

theorem head?_lexemes {text : List Char} {l : Lexeme} (h : (sight text).head? = some (some l)) :
    (lexemes text).head? = some l := by
  match text with
  | [] => cases h
  | c :: r =>
    rw [sight_cons] at h
    rw [lexemes_cons]
    obtain ⟨m, hscan, hshown⟩ | ⟨hends, hscan⟩ := Lexeme.sighted_cases c r
    · rw [hshown] at h
      rw [hscan]
      simpa using h
    · cases hshown : sighted ((scan c r).1, c :: r.take (scan c r).2) with
      | nil =>
        rw [hshown] at h hscan
        rw [hscan.resolve_right List.not_mem_nil]
        exact head?_lexemes h
      | cons m ms =>
        rw [hshown] at h hends
        cases (hends m List.mem_cons_self).symm.trans (Option.some.inj h)
termination_by text.length
decreasing_by rw [List.length_drop, List.length_cons]; omega

theorem infix_of_append {l : Lexeme} {ls ms rest : List (Option Lexeme)} (hms : ∀ m ∈ ms, m = none)
    (h : some l :: ls <:+: ms ++ rest) : some l :: ls <:+: rest := by
  induction ms with
  | nil => exact h
  | cons m ms ih =>
    obtain ⟨rfl, hrest⟩ := List.forall_mem_cons.1 hms
    rw [List.cons_append, List.infix_cons_iff, List.cons_prefix_cons] at h
    exact ih hrest (h.resolve_left nofun)

/-- Lexemes that the screen sees next to each other on a line are next to each other. -/
theorem infix_lexemes {text : List Char} {a b : Lexeme} (h : [some a, some b] <:+: sight text) :
    [a, b] <:+: lexemes text := by
  match text with
  | [] => simp [sight, Lexeme.pieces, Lexeme.piecesFrom] at h
  | c :: r =>
    rw [sight_cons] at h
    rw [lexemes_cons]
    obtain ⟨l, hscan, hshown⟩ | ⟨hends, -⟩ := Lexeme.sighted_cases c r
    · rw [hshown, List.singleton_append, List.infix_cons_iff, List.cons_prefix_cons] at h
      rw [hscan, Option.toList_some, List.singleton_append]
      obtain ⟨hl, hb⟩ | h := h
      · cases hl
        obtain ⟨ms, hms⟩ := hb
        have hhead : (lexemes (r.drop (scan c r).2)).head? = some b := head?_lexemes (by rw [← hms]; rfl)
        obtain ⟨ts, hts⟩ := List.head?_eq_some_iff.1 hhead
        exact ⟨[], ts, by rw [hts]; rfl⟩
      · exact (infix_lexemes h).trans (List.suffix_cons ..).isInfix
    · exact (infix_lexemes (infix_of_append hends h)).trans (List.suffix_append ..).isInfix
termination_by text.length
decreasing_by all_goals rw [List.length_drop, List.length_cons]; omega

theorem infix_of_opens {ms : List (Option Lexeme)} (h : opens ms) :
    ∃ k l, assigns l ∧ [some (.keyword k), some l] <:+: ms := by
  unfold opens at h
  split at h
  · next k ms =>
    match ms with
    | some l :: ms => exact ⟨k, l, h, [], ms, rfl⟩
  · cases h

theorem infix_of_clauses {hidden : Bool} {ms : List (Option Lexeme)} (h : clauses hidden ms) :
    ∃ k l, assigns l ∧ [some (.keyword k), some l] <:+: ms := by
  have hcons {m : Option Lexeme} {ms : List (Option Lexeme)}
      (h : ∃ k l, assigns l ∧ [some (.keyword k), some l] <:+: ms) :
      ∃ k l, assigns l ∧ [some (.keyword k), some l] <:+: m :: ms := by
    obtain ⟨k, l, hl, hms⟩ := h
    exact ⟨k, l, hl, hms.trans (List.suffix_cons m ms).isInfix⟩
  fun_induction clauses hidden ms with
  | case1 => cases h
  | case2 _ ms ih =>
    obtain h | h := Bool.or_eq_true_iff.1 h
    · exact hcons (infix_of_opens h)
    · exact hcons (ih h)
  | case3 _ s ms ih => exact hcons (ih h)
  | case4 hidden ms ih =>
    obtain h | h := Bool.or_eq_true_iff.1 h
    · exact hcons (infix_of_opens (Bool.and_eq_true_iff.1 h).2)
    · exact hcons (ih h)
  | case5 _ l ms _ _ ih => exact hcons (ih h)

end Screen

theorem Grammar.meetsWord_of_infix {k : Keyword} {l : Lexeme} {ts : List Lexeme} (hl : assigns l)
    (h : [.keyword k, l] <:+: ts) : meetsWord ts := by
  obtain ⟨front, back, rfl⟩ := h
  induction front with
  | nil =>
    have hopens : opensReserved (.keyword k :: l :: back) := hl
    simp [meetsWord, Lexeme.anywhere, hopens]
  | cons m front ih =>
    rw [List.cons_append, List.cons_append, meetsWord, Lexeme.anywhere]
    exact Bool.or_eq_true_iff.2 (.inr ih)

theorem Screen.meetsWord_of_clauses {text : List Char} (h : clauses false (none :: sight text)) :
    Grammar.meetsWord (lexemes text) := by
  obtain ⟨k, l, hl, hms⟩ := infix_of_clauses h
  have hms : [some (.keyword k), some l] <:+: [none] ++ sight text := hms
  exact Grammar.meetsWord_of_infix hl (infix_lexemes (infix_of_append (List.forall_mem_singleton.2 rfl) hms))

theorem Screen.mem_sight_string {text : List Char} {s : String} :
    some (.string s) ∈ sight text ↔ .string s ∈ lexemes text := by
  have hmem : Lexeme.string s ∈ (sight text).filterMap id ↔ some (.string s) ∈ sight text := by simp
  rw [← hmem, ← lexemes_eq_reduceOption, List.mem_filter]
  simp

theorem Lexeme.flatMap_brackets (ts : List Lexeme) :
    (ts.filter (· ≠ .newline)).flatMap brackets = ts.flatMap brackets := by
  induction ts with
  | nil => rfl
  | cons l ts ih =>
    by_cases hl : l = .newline
    · subst hl
      exact ih
    · rw [List.filter_cons_of_pos (by simpa using hl), List.flatMap_cons, ih, List.flatMap_cons]

/-- A string stands on one line. -/
def Lexeme.isUnbroken : Lexeme → Bool
  | .string s => Text.isUnbroken s
  | _ => true

theorem Lexeme.all_isUnbroken_iff {ts : List Lexeme} :
    ts.all isUnbroken ↔ ∀ s, .string s ∈ ts → Text.isUnbroken s := by
  rw [List.all_eq_true]
  refine ⟨fun h s hs => h _ hs, fun h l hl => ?_⟩
  cases l with
  | string s => exact h s hl
  | _ => rfl

/-! Scripts that the grammar accepts. -/

namespace Program

theorem nests_of_ofTokens [Text.CharNames] {source file : String} {p : Program}
    (h : ofTokens file (Token.cut source.toList) = .ok p) :
    nests [] (((sight source.toList).filterMap id).flatMap Lexeme.brackets) = some [] := by
  rw [← lexemes_eq_reduceOption, Lexeme.flatMap_brackets]
  exact Grammar.nests_of_nesting (Grammar.nesting_of_derives (derives_of_ofTokens h))

theorem sighted_of_ofTokens [Text.CharNames] {source file : String} {p : Program}
    (h : ofTokens file (Token.cut source.toList) = .ok p)
    (horderly : (Lexeme.pieces source.toList).all Lexeme.isOrderly) :
    Sighted source.toList (sight source.toList) :=
  .of_isOrderly horderly (Grammar.isStray_of_nesting (Grammar.nesting_of_derives (derives_of_ofTokens h)))

end Program

/-- A script in order that the grammar accepts passes the screen if and only if no string runs over the end of a line
and no clause, quoted or not, begins by assigning to a reserved word. Outside of strings such a clause makes an
assignment whose target ends in a reserved word, and an assignment to one is written as a word before an assignment
sign, closing parentheses and line breaks apart. -/
theorem check_iff_of_ofTokens [Text.CharNames] {source file : String} {p : Program}
    (h : Program.ofTokens file (Token.cut source.toList) = .ok p)
    (horderly : (Lexeme.pieces source.toList).all Lexeme.isOrderly) (name : String) :
    (check source name = .ok () ↔
      (lexemes source.toList).all Lexeme.isUnbroken ∧
        clauses false (none :: sight source.toList) = false ∧ quotedClauses false (sight source.toList) = false) ∧
      (clauses false (none :: sight source.toList) → p.all (Node.spares Node.endsReserved) = false) ∧
      (p.all (Node.spares Node.isReserved) = false → Grammar.targetsWord (lexemes source.toList)) := by
  have hderives := Program.derives_of_ofTokens h
  refine ⟨?_, fun hclauses => ?_, fun hspares => ?_⟩
  · rw [check_eq_ok_iff, (Program.sighted_of_ofTokens h horderly).find_eq_none_iff (Program.nests_of_ofTokens h)]
    simp only [mem_sight_string, Lexeme.all_isUnbroken_iff]
  · have hspares := Grammar.not_spares_of_meetsWord hderives (meetsWord_of_clauses hclauses)
    rwa [allNodes_bare (Node.spares_bare Node.endsReserved_bare)] at hspares
  · refine Grammar.targetsWord_of_not_spares hderives ?_
    rwa [allNodes_bare (Node.spares_bare Node.isReserved_bare)]

/-- A comment sign in a string hides an assignment and a string with one, and an argument holds another. -/
theorem check_hidden_targets :
    let source := "x <- '#'; TRUE <- \"; if = 3\" # (\r\nf(a %o% b, (NULL) <- 2)"
    ∃ p, Program.ofTokens "a" (Token.cut source.toList) = .ok p ∧ check source "a" = .ok () ∧
      p.all (Node.spares Node.isReserved) = false ∧ Grammar.targetsWord (lexemes source.toList) := by
  intro source
  have htree : (Program.ofTokens "a" (Token.cut source.toList)).toOption.any fun p =>
      !p.all (Node.spares Node.isReserved) := by decide +kernel
  have horderly : (Lexeme.pieces source.toList).all Lexeme.isOrderly := by decide +kernel
  have hstrings : (lexemes source.toList).all Lexeme.isUnbroken := by decide +kernel
  have hclauses : clauses false (none :: sight source.toList) = false := by decide +kernel
  have hquoted : quotedClauses false (sight source.toList) = false := by decide +kernel
  simp only [Option.any_eq_true, Bool.not_eq_true'] at htree
  obtain ⟨p, hp, hspares⟩ := htree
  obtain ⟨hcheck, -, htargets⟩ := check_iff_of_ofTokens (eq_ok_of_toOption hp) horderly "a"
  exact ⟨p, eq_ok_of_toOption hp, hcheck.2 ⟨hstrings, hclauses, hquoted⟩, hspares, htargets hspares⟩

/-- The grammar accepts a script without an assignment to a reserved word, and the screen stops it. -/
def Screen.Stops [Text.CharNames] (source : String) : Prop :=
  ∃ p e, Program.ofTokens "a" (Token.cut source.toList) = .ok p ∧ p.all (Node.spares Node.isReserved) ∧
    check source "a" = .error e

/-- The grammar accepts a script with an assignment to a reserved word, and so does the screen. -/
def Screen.Misses [Text.CharNames] (source : String) : Prop :=
  ∃ p, Program.ofTokens "a" (Token.cut source.toList) = .ok p ∧ p.all (Node.spares Node.isReserved) = false ∧
    check source "a" = .ok ()

theorem Screen.stops_of_find [Text.CharNames] {source : String}
    (h : (Program.ofTokens "a" (Token.cut source.toList)).toOption.any fun p =>
      p.all (Node.spares Node.isReserved) && (find source.toList).isSome) : Stops source := by
  simp only [Option.any_eq_true, Bool.and_eq_true, Option.isSome_iff_exists] at h
  obtain ⟨p, hp, hspares, ⟨problem, line⟩, hfind⟩ := h
  exact ⟨p, _, eq_ok_of_toOption hp, hspares, by simp only [check, hfind]; rfl⟩

theorem Screen.misses_of_find [Text.CharNames] {source : String}
    (h : (Program.ofTokens "a" (Token.cut source.toList)).toOption.any fun p =>
      !p.all (Node.spares Node.isReserved) && (find source.toList).isNone) : Misses source := by
  simp only [Option.any_eq_true, Bool.and_eq_true, Bool.not_eq_true', Option.isNone_iff_eq_none] at h
  obtain ⟨p, hp, hspares, hfind⟩ := h
  exact ⟨p, eq_ok_of_toOption hp, hspares, check_eq_ok_iff.2 hfind⟩

/-- Semicolons and line ends in strings, marks in operators, other line ends in comments, and lines that go on with an
expression stop a script. Arguments, parentheses, comment signs in strings and form feeds hide an assignment. -/
theorem screen_disagrees :
    (Stops "x <- \"; if <- 3\"" ∧ Stops "x <- 'a\rb'" ∧ Stops "a %(% b" ∧ Stops "x # a\x0bTRUE <- 3" ∧
      Stops "x +\nTRUE <- 3") ∧
    Misses "f(TRUE <- 3)" ∧ Misses "(TRUE) <- 3" ∧ Misses "'#'; TRUE <- 3" ∧ Misses "TRUE\x0c<- 3" := by
  refine ⟨⟨?_, ?_, ?_, ?_, ?_⟩, ?_, ?_, ?_, ?_⟩
  iterate 5 exact stops_of_find (by decide +kernel)
  iterate 4 exact misses_of_find (by decide +kernel)

end Deadwood
