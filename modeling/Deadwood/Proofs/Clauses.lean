import Deadwood.Proofs.Sight
import Deadwood.Proofs.Targets
import Mathlib.Data.List.TakeWhile

/-! Clauses of a script. The screen takes what stands between the ends of lines and semicolons for a clause, and looks
at how each one begins. It does not know strings there: a semicolon in a string begins a clause too, and a comment
sign in a string hides what follows on its line. -/
namespace Deadwood
open Text Screen
open Lexeme (scan assigns continuesName opensReserved)

/-! How a clause begins. -/

namespace Screen

/-- A reserved word comes first, and an assignment sign behind it on the same line. -/
def opens : List (Option Lexeme) → Bool
  | some (.keyword _) :: ms => ms.head?.any (·.any assigns)
  | _ => false

/-- The characters that go on with a clause. -/
def goesOn (c : Char) : Bool := !isLineEnd c && continues c

def clause (text : List Char) : List Char := text.takeWhile goesOn

theorem takeWhile_row (text : List Char) : (row text).takeWhile continues = clause text := by
  rw [row, List.takeWhile_takeWhile, clause]
  congr 1
  funext c
  simp [goesOn, Bool.and_comm]

theorem clause_of_row {text : List Char} (h : row text = []) : clause text = [] := by
  rw [← takeWhile_row, h]
  rfl

theorem clause_cons {c : Char} (hc : goesOn c) (r : List Char) : clause (c :: r) = c :: clause r :=
  List.takeWhile_cons_of_pos hc

theorem clause_prefix (text : List Char) : clause text <+: text := List.takeWhile_prefix goesOn

theorem goesOn_of_isCalm {c : Char} (hc : isCalm c) : goesOn c := by
  simp [goesOn, isLineEnd_of_isCalm hc, continues_of_isCalm hc]

theorem goesOn_of_continuesName {c : Char} (hc : continuesName c) : goesOn c :=
  goesOn_of_isCalm (by simp [isCalm, isPlain_of_continuesName hc])

theorem takeWhile_clause (text : List Char) : (clause text).takeWhile continuesName = text.takeWhile continuesName := by
  induction text with
  | nil => rfl
  | cons c r ih =>
    cases hc : continuesName c with
    | true =>
      rw [clause_cons (goesOn_of_continuesName hc), List.takeWhile_cons_of_pos hc, List.takeWhile_cons_of_pos hc, ih]
    | false => cases hgoes : goesOn c <;> simp [clause, hc, hgoes]

theorem dropWhile_clause (text : List Char) :
    (clause text).dropWhile continuesName = clause (text.dropWhile continuesName) := by
  induction text with
  | nil => rfl
  | cons c r ih =>
    cases hc : continuesName c with
    | true =>
      rw [clause_cons (goesOn_of_continuesName hc), List.dropWhile_cons_of_pos hc, List.dropWhile_cons_of_pos hc, ih]
    | false => cases hgoes : goesOn c <;> simp [clause, hc, hgoes]

/-- Only the characters of an assignment sign matter to whether there is one. -/
theorem startsAssignment_clause (text : List Char) : startsAssignment (clause text) = startsAssignment text := by
  fun_cases startsAssignment text with
  | case1 r | case2 r | case3 r => rfl
  | case4 r hequals =>
    obtain ⟨rest, hrest⟩ := clause_prefix r
    rw [clause_cons rfl]
    unfold startsAssignment
    split
    · next heq => cases heq
    · next heq => cases heq
    · next tail heq =>
      rw [List.cons.injEq] at heq
      rw [heq.2] at hrest
      exact absurd hrest.symm (hequals _)
    · rfl
    · next hassign => exact absurd rfl (hassign _)
  | case5 text hsuper harrow _ hassign =>
    obtain ⟨rest, hrest⟩ := clause_prefix text
    unfold startsAssignment
    split
    · next heq =>
      rw [heq] at hrest
      exact absurd hrest.symm (hsuper _)
    · next heq =>
      rw [heq] at hrest
      exact absurd hrest.symm (harrow _)
    · rfl
    · next heq =>
      rw [heq] at hrest
      exact absurd hrest.symm (hassign _)
    · rfl

end Screen

/-- What comes first in a clause behind blanks: nothing, a string or a lexeme. -/
inductive Begins : (cs : List Char) → List (Option Lexeme) → Prop where
  | nothing (hms : ms.head?.all (·.all (!·.isCode))) : Begins [] ms
  | quote (hq : q = '"' ∨ q = '\'') (hms : ms.head?.all (·.all (!·.isCode))) : Begins (q :: cs) ms
  | code (hc : goesOn c) (hscan : scan c t = (some l, n)) (h : Sighted (t.drop n) ms) :
      Begins (c :: clause t) (some l :: ms)

theorem Sighted.begins (h : Sighted text ms) : Begins ((clause text).dropWhile isSpace) ms := by
  induction h with
  | nil => exact .nothing rfl
  | @blank c r ms hc _ ih =>
    have hgoes : goesOn c := by obtain rfl | rfl := hc <;> rfl
    have hspace : isSpace c := by obtain rfl | rfl := hc <;> rfl
    rwa [clause_cons hgoes, List.dropWhile_cons_of_pos hspace]
  | lineEnd hc _ _ =>
    rw [clause_of_row (row_lineEnd hc _)]
    exact .nothing rfl
  | comment _ hr _ ih =>
    rw [clause_of_row (row_of_head? hr)] at ih
    exact ih
  | string hcs _ _ =>
    obtain ⟨q, chars, hq, -, rfl⟩ := hcs
    have hgoes : goesOn q := by obtain rfl | rfl := hq <;> rfl
    have hspace : isSpace q = false := by obtain rfl | rfl := hq <;> rfl
    rw [List.cons_append, clause_cons hgoes, List.dropWhile_cons_of_neg (by simp [hspace])]
    exact .quote hq rfl
  | semicolon => exact .nothing rfl
  | @code c t l n ms hscan _ hshown h _ =>
    obtain ⟨hcalm, hspace⟩ := hshown.calm c List.mem_cons_self
    have hgoes := goesOn_of_isCalm hcalm
    rw [clause_cons hgoes, List.dropWhile_cons_of_neg (by simp [hspace])]
    exact .code hgoes hscan h

namespace Screen

theorem assigns_head? {ms : List (Option Lexeme)} (h : ms.head?.all (·.all (!·.isCode))) :
    ms.head?.any (·.any assigns) = false := by
  match ms with
  | [] | none :: _ => rfl
  | some l :: _ =>
    cases l with
    | assign | equals => cases h
    | _ => rfl

theorem opens_of_head? {ms : List (Option Lexeme)} (h : ms.head?.all (·.all (!·.isCode))) : opens ms = false := by
  match ms with
  | [] | none :: _ => rfl
  | some l :: _ =>
    cases l with
    | keyword => cases h
    | _ => rfl

end Screen

namespace Sighted

/-- The screen finds an assignment sign behind blanks where the first lexeme of the line is one. -/
theorem startsAssignment_eq (h : Sighted text ms) :
    startsAssignment ((clause text).dropWhile isSpace) = ms.head?.any (·.any assigns) := by
  have hbegins := h.begins
  generalize (clause text).dropWhile isSpace = cs at hbegins
  cases hbegins with
  | nothing hms => exact (assigns_head? hms).symm
  | quote hq hms =>
    rw [assigns_head? hms]
    obtain rfl | rfl := hq <;> rfl
  | @code c t l n ms hc hscan _ =>
    have hassigns := Lexeme.assigns_scan c t
    rw [hscan] at hassigns
    rw [← clause_cons hc, startsAssignment_clause, ← hassigns]
    rfl

/-- The screen looks for a reserved word at the start of a clause as the lexemes have it. -/
theorem assignsReserved_eq (h : Sighted text ms) : assignsReserved (clause text) = opens ms := by
  have hbegins := h.begins
  rw [assignsReserved, assignedWord?]
  generalize (clause text).dropWhile isSpace = cs at hbegins
  cases hbegins with
  | nothing hms => exact (opens_of_head? hms).symm
  | quote hq hms =>
    rw [opens_of_head? hms]
    obtain rfl | rfl := hq <;> rfl
  | @code c t l n ms _ hscan hrest =>
    have hcontinues : continuesWord = continuesName := rfl
    simp only [hcontinues, takeWhile_clause, dropWhile_clause]
    cases hk : Keyword.ofText? (String.ofList (c :: t.takeWhile continuesName)) with
    | some k =>
      obtain ⟨rfl, rfl⟩ : l = .keyword k ∧ n = (t.takeWhile continuesName).length := by
        simpa using hscan.symm.trans (Lexeme.scan_of_ofText? hk)
      rw [drop_length_takeWhile] at hrest
      rw [hrest.startsAssignment_eq]
      simp only [opens, Keyword.isAlpha_of_ofText? hk, Bool.true_or, Bool.true_and]
      split
      · next hassigns => simp only [Option.filter_some, hk, hassigns]; rfl
      · next hassigns => simpa using hassigns
    | none =>
      have hopens : opens (some l :: ms) = false := by
        cases l with
        | keyword k => cases hk.symm.trans (Lexeme.ofText?_of_scan (congrArg Prod.fst hscan))
        | _ => rfl
      rw [hopens]
      split
      · simp only [Option.filter_some, hk]; rfl
      · rfl

end Sighted

/-! Clauses on a line. -/

/-- The string holds what the screen takes for a clause that assigns to a reserved word. -/
def Text.holdsClause (s : String) : Bool := (statements s.toList).tail.any assignsReserved

/-- A clause outside strings assigns to a reserved word at its start. What stands on a line behind a string with a
comment sign does not count: it is `hidden`. -/
def Screen.clauses (hidden : Bool) : List (Option Lexeme) → Bool
  | [] => false
  | none :: ms => opens ms || clauses false ms
  | some (.string s) :: ms => clauses (hidden || s.toList.contains '#') ms
  | some .semicolon :: ms => !hidden && opens ms || clauses hidden ms
  | some _ :: ms => clauses hidden ms

/-- A string holds such a clause. -/
def Screen.quotedClauses (hidden : Bool) : List (Option Lexeme) → Bool
  | [] => false
  | none :: ms => quotedClauses false ms
  | some (.string s) :: ms => !hidden && holdsClause s || quotedClauses (hidden || s.toList.contains '#') ms
  | some _ :: ms => quotedClauses hidden ms

namespace Screen

/-- Some line behind the first assigns to a reserved word. -/
def reservedLater (text : List Char) : Bool := (later text).any fun l => (reservedIn l).isSome

/-- Some clause behind the first one does. The rest of the first line counts only if it is not hidden. -/
def reservedBehind (hidden : Bool) (text : List Char) : Bool :=
  !hidden && (statements (row text)).tail.any assignsReserved || reservedLater text

theorem reservedIn_row (text : List Char) : (reservedIn (row text)).isSome =
    (assignsReserved (clause text) || (statements (row text)).tail.any assignsReserved) := by
  rw [reservedIn_isSome, statements_eq, takeWhile_row]
  rfl

theorem any_lines (text : List Char) : ((lines text).any fun l => (reservedIn l).isSome) =
    (assignsReserved (clause text) || reservedBehind false text) := by
  cases text with
  | nil => rfl
  | cons c r =>
    rw [lines_eq (List.cons_ne_nil c r), List.any_cons, reservedIn_row, Bool.or_assoc]
    rfl

theorem reservedBehind_lineEnd {c : Char} (hc : isLineEnd c) (hidden : Bool) (r : List Char) :
    reservedBehind hidden (c :: r) = (assignsReserved (clause r) || reservedBehind false r) := by
  have hlater : reservedLater (c :: r) = (lines r).any fun l => (reservedIn l).isSome := by
    obtain h | h := later_lineEnd hc r
    · rw [reservedLater, h]
    · rw [reservedLater, h]
      rfl
  rw [reservedBehind, row_lineEnd hc, hlater, any_lines]
  cases hidden <;> rfl

theorem reservedBehind_append {cs : List Char} (hends : ∀ c ∈ cs, isLineEnd c = false) (hcs : ∀ c ∈ cs, continues c)
    (hidden : Bool) (r : List Char) : reservedBehind hidden (cs ++ r) = reservedBehind hidden r := by
  have htail (l : List Char) : (statements (cs ++ l)).tail = (statements l).tail := by
    clear hends
    induction cs with
    | nil => rfl
    | cons c cs ih =>
      obtain ⟨hc, hcs⟩ := List.forall_mem_cons.1 hcs
      rw [List.cons_append, tail_statements_cons hc, ih hcs]
  rw [reservedBehind, reservedLater, row_append hends, later_append hends, htail]
  rfl

theorem reservedBehind_semicolon (hidden : Bool) (r : List Char) : reservedBehind hidden (';' :: r) =
    (!hidden && assignsReserved (clause r) || reservedBehind hidden r) := by
  have hline : ∀ c ∈ [';'], isLineEnd c = false := List.forall_mem_singleton.2 rfl
  rw [← List.singleton_append, reservedBehind, reservedLater, row_append hline, later_append hline,
    List.singleton_append, statements_semicolon, List.tail_cons, ← reservedIn_isSome, reservedIn_row, reservedBehind]
  cases hidden <;> simp [reservedLater, Bool.or_assoc]

theorem reservedBehind_comment {cs r : List Char} (hcs : ∀ c ∈ cs, isLineEnd c = false) (hr : r.head?.all isLineEnd)
    (hidden : Bool) : reservedBehind hidden ('#' :: (cs ++ r)) = reservedBehind hidden r := by
  have hline : ∀ c ∈ '#' :: cs, isLineEnd c = false := List.forall_mem_cons.2 ⟨rfl, hcs⟩
  rw [← List.cons_append, reservedBehind, reservedLater, row_append hline, later_append hline, row_of_head? hr,
    List.cons_append, statements_comment, reservedBehind, row_of_head? hr]
  rfl

theorem reservedBehind_string {cs : List Char} (h : Lexeme.IsString cs) (hcs : isUnbroken (String.ofList cs))
    (hidden : Bool) (r : List Char) : reservedBehind hidden (cs ++ r) =
      (!hidden && holdsClause (String.ofList cs) || reservedBehind (hidden || cs.contains '#') r) := by
  have hline := (Front.isString h hcs).line
  obtain ⟨q, chars, hq, -, rfl⟩ := h
  have hhash : q ≠ '#' := by obtain rfl | rfl := hq <;> decide
  have hsplit (t : List Char) : q :: (chars ++ [q]) ++ t = (q :: chars) ++ q :: t := by simp
  have hholds :
      holdsClause (String.ofList (q :: (chars ++ [q]))) = (statements (q :: chars)).tail.any assignsReserved := by
    have hnil := any_statements_append_quote hq (q :: chars) []
    rw [holdsClause, String.toList_ofList, ← List.cons_append, hnil]
    simp [statements, splitAt]
  have hcontains : (q :: (chars ++ [q])).contains '#' = (q :: chars).contains '#' := by simp [hhash.symm]
  rw [reservedBehind, reservedLater, row_append hline, later_append hline, hsplit, any_statements_append_quote hq,
    hholds, hcontains, reservedBehind, reservedLater, Bool.and_or_distrib_left, Bool.not_or, Bool.and_assoc,
    Bool.or_assoc]

end Screen

namespace Sighted

/-- The induction on the text goes from clause to clause. -/
theorem reservedBehind_eq (h : Sighted text ms) (hstrings : ∀ s, some (.string s) ∈ ms → isUnbroken s) (hidden : Bool) :
    reservedBehind hidden text = (clauses hidden ms || quotedClauses hidden ms) := by
  induction h generalizing hidden with
  | nil => cases hidden <;> rfl
  | @blank c r ms hc _ ih =>
    have hend : isLineEnd c = false := by obtain rfl | rfl := hc <;> rfl
    have hcontinues : continues c := by obtain rfl | rfl := hc <;> rfl
    rw [← List.singleton_append, reservedBehind_append (List.forall_mem_singleton.2 hend)
      (List.forall_mem_singleton.2 hcontinues), ih hstrings]
  | lineEnd hc h ih =>
    rw [reservedBehind_lineEnd hc, h.assignsReserved_eq, ih (by simpa using hstrings), ← Bool.or_assoc]
    rfl
  | comment hcs hr _ ih => rw [reservedBehind_comment hcs hr, ih hstrings]
  | string hcs _ ih =>
    rw [reservedBehind_string hcs (hstrings _ List.mem_cons_self),
      ih fun s hs => hstrings s (List.mem_cons_of_mem _ hs)]
    simp [clauses, quotedClauses, Bool.or_left_comm]
  | semicolon h ih =>
    rw [reservedBehind_semicolon, h.assignsReserved_eq, ih (by simpa using hstrings), ← Bool.or_assoc]
    rfl
  | @code c t l n ms hscan hl hshown _ ih =>
    have hcalm : ∀ d ∈ c :: t.take n, isCalm d := fun d hd => (hshown.calm d hd).1
    have hsplit : c :: t = c :: t.take n ++ t.drop n := by simp
    rw [hsplit, reservedBehind_append (fun d hd => isLineEnd_of_isCalm (hcalm d hd))
      fun d hd => continues_of_isCalm (hcalm d hd), ih fun s hs => hstrings s (List.mem_cons_of_mem _ hs)]
    cases l with
    | semicolon | string => cases hl
    | _ => rfl

/-- A script in order whose brackets match passes the screen if and only if no string runs over the end of a line and no
clause, quoted or not, begins by assigning to a reserved word. -/
theorem find_eq_none_iff (h : Sighted text ms)
    (hnests : nests [] ((ms.filterMap id).flatMap Lexeme.brackets) = some []) :
    find text = none ↔ (∀ s, some (.string s) ∈ ms → isUnbroken s) ∧ clauses false (none :: ms) = false ∧
      quotedClauses false ms = false := by
  have hlines : (∀ l ∈ lines text, LineOk l) ↔ Closed text ∧ ∀ l ∈ lines text, reservedIn l = none :=
    forall₂_and
  rw [Screen.find_eq_none_iff, hlines, h.closed_iff, and_assoc]
  refine and_congr_right fun hstrings => ?_
  have hreserved : (∀ l ∈ lines text, reservedIn l = none) ↔
      ((lines text).any fun l => (reservedIn l).isSome) = false := by simp
  rw [h.nests_visible hstrings, hreserved, any_lines, h.assignsReserved_eq, h.reservedBehind_eq hstrings,
    ← Bool.or_assoc, Bool.or_eq_false_iff]
  exact and_iff_left hnests

end Sighted

end Deadwood
