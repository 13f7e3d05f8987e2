import Deadwood.Proofs.Recut
import Deadwood.Proofs.Slips

/-! Printed programs and the screen. What is printed of a parsed program passes the checks before parsing, unless a
string runs over the end of a line or a reserved word seems to be assigned to; brackets always match. Operators in
percent signs are left out that hold a mark of the screen, since they are printed as they are. -/
namespace Deadwood

theorem eq_ok_of_toOption {x : Except ε α} {a : α} (h : x.toOption = some a) : x = .ok a := by
  cases x with
  | error => cases h
  | ok b => exact congrArg Except.ok (Option.some.inj h)

theorem Screen.check_eq_ok_iff {source file : String} : check source file = .ok () ↔ find source.toList = none := by
  rw [check]
  split <;> simp_all

theorem Screen.find_of_check {source file : String} {e : Report} (h : check source file = .error e) :
    ∃ line, find source.toList = some (e.problem, line) := by
  rw [check] at h
  split at h
  · next problem line hfind =>
    cases h
    exact ⟨line, hfind⟩
  · cases h

/-- The printed text of a parsed program passes the screen if and only if each of its strings stands on one line, no
statement begins by assigning to a reserved word, and no string holds what is taken for such a statement. -/
theorem check_print_iff [Text.CharNames] {source file : String} {p : Program} (h : Program.parse source file = .ok p)
    (hq : p.all Node.isQuiet) {indent : String} (hindent : ∀ c ∈ indent.toList, c = ' ' ∨ c = '\t') (name : String) :
    ∃ text, p.print indent = .ok text ∧
      (Screen.check text name = .ok () ↔
        (∀ s, some s ∈ p.quotes → Text.isOneLine s) ∧ p.sparesWords ∧ Text.anySlip false p.quotes = false) ∧
      ∀ e, Screen.check text name = .error e → e.problem.kind ≠ .unmatchedBracket := by
  have hcut := Program.isCut_of_parse h
  obtain ⟨text, hprint, hlexemes⟩ := Program.lexemes_print_of_isCut hindent hcut
  obtain ⟨text', hprint', hquiet⟩ := Program.print_quiet_of_isCut hindent hcut hq
  obtain rfl : text' = text := Except.ok.inj (hprint'.symm.trans hprint)
  refine ⟨text', hprint, ?_, fun e he => ?_⟩
  · rw [Screen.check_eq_ok_iff, Program.find_eq_none_iff_of_isCut hcut hquiet hlexemes]
  · obtain ⟨line, hfind⟩ := Screen.find_of_check he
    obtain hproblem | ⟨w, hproblem⟩ := hquiet.problem_of_find hfind <;> rw [hproblem] <;> nofun

/-- A comment sign in one string hides what seems to be an assignment in the next. -/
theorem check_print_hidden :
    let source := "if (a) f('b c' = \"#\", \"; if = 3\") else TRUE %o% x[['\t(']]"
    ∃ p text, Program.parse source "a" = .ok p ∧ p.print "\t " = .ok text ∧ Screen.check text "b" = .ok () := by
  intro source
  have hchecks : (Program.parse source "a").toOption.any fun p =>
      p.all Node.isQuiet && p.quotes.all (·.all Text.isOneLine) && p.sparesWords && !Text.anySlip false p.quotes := by
    decide +kernel
  cases hparse : Program.parse source "a" with
  | error e => simp [hparse, Except.toOption] at hchecks
  | ok p =>
    simp only [hparse, Except.toOption, Option.any_some, Bool.and_eq_true, Bool.not_eq_true'] at hchecks
    obtain ⟨⟨⟨hquiet, hlines⟩, hspares⟩, hslips⟩ := hchecks
    have hindent : ∀ c ∈ "\t ".toList, c = ' ' ∨ c = '\t' := by simp
    obtain ⟨text, hprint, hcheck, -⟩ := check_print_iff hparse hquiet hindent "b"
    refine ⟨p, text, rfl, hprint, hcheck.2 ⟨fun s hs => ?_, hspares, hslips⟩⟩
    exact List.all_eq_true.1 hlines _ hs

/-- A source is parsed, and the screen reports the problem in what is printed of it. -/
def Screen.StopsPrinted [Text.CharNames] (source : String) (problem : Problem) : Prop :=
  ∃ p text e, Program.parse source "a" = .ok p ∧ p.print "  " = .ok text ∧ check text "a" = .error e ∧
    e.problem = problem

theorem Screen.stopsPrinted_of_find [Text.CharNames] {source : String} {problem : Problem}
    (h : (Program.parse source "a").toOption.any fun p => (p.print "  ").toOption.any fun text =>
      (find text.toList).any (·.1 == problem)) : StopsPrinted source problem := by
  simp only [Option.any_eq_true, beq_iff_eq] at h
  obtain ⟨p, hparse, text, hprint, ⟨problem, line⟩, hfound, rfl⟩ := h
  have hcheck : check text "a" = .error { problem := problem, file := some "a", line := some line } := by
    simp only [check, hfound]
  exact ⟨p, text, _, eq_ok_of_toOption hparse, eq_ok_of_toOption hprint, hcheck, rfl⟩

/-- A string with the end of a line that is not escaped, a target that loses its parentheses, a string with a semicolon,
and an operator with a comment sign. -/
theorem check_print_fails :
    Screen.StopsPrinted "x <- \"a\\rb\"" .unclosedString ∧
      Screen.StopsPrinted "(TRUE) <- x" (.reservedWord "TRUE") ∧
      Screen.StopsPrinted "\"\\x3b if = 3\"" (.reservedWord "if") ∧
      Screen.StopsPrinted "f(a %#% b\n)" (.unmatchedBracket "(") := by
  refine ⟨?_, ?_, ?_, ?_⟩ <;> exact Screen.stopsPrinted_of_find (by decide +kernel)

end Deadwood
