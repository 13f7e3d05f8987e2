import Deadwood.Proofs.MaskedLines

/-! Assignments to reserved words in quiet text. At the start of a line they can be told from the lexemes of the text.
The others stand in strings, behind a semicolon that the screen takes for the end of a statement, unless a string before
them on the line holds what it takes for the start of a comment. -/
namespace Deadwood
open Text Screen
open Lexeme (scan isBlank continuesName startsWord newlines)

/-! Lexemes at the start of a line. -/

/-- Whether a lexeme assigns to what stands before it. -/
def Lexeme.assigns : Lexeme → Bool
  | .assign _ | .equals => true
  | _ => false

theorem Lexeme.assigns_scan (c : Char) (r : List Char) :
    (scan c r).1.any assigns = startsAssignment (c :: r) := by
  unfold startsAssignment
  split
  · next heq =>
    cases heq
    rfl
  · next heq =>
    cases heq
    rfl
  · next heq =>
    cases heq
    rfl
  · next hnext heq =>
    cases heq
    have hr : r.head? ≠ some '=' := by
      intro hr
      obtain ⟨t, rfl⟩ := List.head?_eq_some_iff.1 hr
      exact hnext t rfl
    have hscan : scan '=' r = if r.head? == some '=' then (some (.op (.rel .eq)), 1) else (some .equals, 0) := rfl
    rw [hscan, if_neg (by simpa using hr)]
    rfl
  · next hsuper harrow _ hequals =>
    cases h : (scan c r).1 with
    | none => rfl
    | some l =>
      obtain ⟨n, hscan⟩ := exists_scanned h
      rw [Option.any_some, Bool.eq_false_iff]
      intro hassigns
      cases hscan with
      | mark hmark =>
        have hmarks : ∀ m ∈ marks, m.2.assigns → m.1 = '=' := by decide
        obtain rfl : c = '=' := hmarks _ hmark hassigns
        exact hequals r rfl
      | @pair _ d _ t hpair =>
        have hpairs : ∀ m ∈ pairs, m.2.2.assigns → m.1 = '<' ∧ m.2.1 = '-' := by decide
        obtain ⟨rfl, rfl⟩ : c = '<' ∧ d = '-' := hpairs _ hpair hassigns
        exact harrow t rfl
      | @superArrow t => exact hsuper t rfl
      | word hword =>
        cases l with
        | keyword | name | number | stray => cases hassigns
        | _ => cases isWordOrNumber_of_scanWordOrNumber hword
      | _ => cases hassigns

theorem Lexeme.isSome_scan {c : Char} (hc : isBlank c = false) (hcomment : c ≠ '#') (r : List Char) :
    (scan c r).1.isSome := by
  cases h : (scan c r).1 with
  | some l => rfl
  | none =>
    obtain ⟨n, hscan⟩ := exists_scanned h
    cases hscan with
    | blanks hblank => cases hc.symm.trans hblank
    | comment => exact absurd rfl hcomment

/-- A reserved word is read as one wherever a word starts. -/
theorem Lexeme.scan_of_ofText? {c : Char} {r : List Char}
    (h : Keyword.ofText? (String.ofList (c :: r.takeWhile continuesName)) = some k) :
    scan c r = (some (.keyword k), (r.takeWhile continuesName).length) := by
  have hc := Keyword.isAlpha_of_ofText? h
  rw [scan_word (by simp [startsWord, hc]), scanWordOrNumber, if_pos hc]
  simp only [scanWord, word, h]

theorem Lexeme.ofText?_of_scan {c : Char} {r : List Char} (h : (scan c r).1 = some (.keyword k)) :
    Keyword.ofText? (String.ofList (c :: r.takeWhile continuesName)) = some k := by
  obtain ⟨n, hscan⟩ := exists_scanned h
  obtain ⟨-, hword⟩ | ⟨-, hnumber⟩ | ⟨hstray, -⟩ := scanWordOrNumber_cases (hscan.scanWordOrNumber_eq rfl nofun)
  · obtain ⟨k', hk, heq⟩ | ⟨-, heq⟩ := word_cases (c :: r.takeWhile continuesName)
    · cases heq.symm.trans (Prod.mk.inj hword).1
      exact hk
    · cases heq.symm.trans (Prod.mk.inj hword).1
  · obtain ⟨_, _, heq⟩ := Option.map_eq_some_iff.1 hnumber
    cases heq
  · cases hstray

/-- The lexemes begin by assigning to a reserved word. -/
def Lexeme.opensReserved : List Lexeme → Bool
  | .keyword _ :: ts => ts.head?.any assigns
  | _ => false

/-- A statement that assigns to a reserved word, as the screen takes it. -/
def Screen.assignsReserved (cs : List Char) : Bool :=
  ((assignedWord? cs).filter fun w => (Keyword.ofText? w).isSome).isSome

/-- Calm characters up to the first string. -/
inductive Text.CalmFront : List Char → Prop where
  | nil : CalmFront []
  | quote : CalmFront ('"' :: r)
  | calm (hc : isCalm c) (h : CalmFront r) : CalmFront (c :: r)

theorem Text.isSpace_eq_isBlank {c : Char} (hc : isCalm c) : isSpace c = isBlank c := by
  cases hs : isSpace c with
  | true => obtain rfl | rfl := isSpace_of_isCalm hc hs <;> rfl
  | false =>
    symm
    have hne (d : Char) (hd : isSpace d) : c ≠ d := by
      rintro rfl
      rw [hd] at hs
      cases hs
    simp [isBlank, hne ' ' rfl, hne '\t' rfl, hne '\x0c' rfl, hne '\r' rfl]

namespace Text.CalmFront

theorem dropWhile_isSpace (h : CalmFront l) : l.dropWhile isSpace = l.dropWhile isBlank := by
  induction h with
  | nil | quote => rfl
  | calm hc _ ih => rw [List.dropWhile_cons, List.dropWhile_cons, isSpace_eq_isBlank hc, ih]

theorem dropWhile {p : Char → Bool} (hp : p '"' = false) (h : CalmFront l) : CalmFront (l.dropWhile p) := by
  induction h with
  | nil => exact .nil
  | quote =>
    rw [List.dropWhile_cons_of_neg (by simp [hp])]
    exact .quote
  | @calm c r hc h ih =>
    cases hpc : p c with
    | true =>
      rw [List.dropWhile_cons_of_pos hpc]
      exact ih
    | false =>
      rw [List.dropWhile_cons_of_neg (by simp [hpc])]
      exact .calm hc h

theorem exists_scan (h : CalmFront l) {c : Char} {r : List Char} (hl : l.dropWhile isBlank = c :: r) :
    ∃ x, (scan c r).1 = some x := by
  have hblank : isBlank c = false := by simpa [hl] using List.head?_dropWhile_not isBlank l
  have hcomment : c ≠ '#' := by
    have hfront := h.dropWhile (p := isBlank) rfl
    rw [hl] at hfront
    cases hfront with
    | quote => decide
    | calm hc => exact ne_of_isCalm hc (by decide)
  exact Option.isSome_iff_exists.1 (Lexeme.isSome_scan hblank hcomment r)

theorem head?_assigns (h : CalmFront l) :
    (lexemes l).head?.any Lexeme.assigns = startsAssignment (l.dropWhile isSpace) := by
  rw [h.dropWhile_isSpace, ← lexemes_dropWhile_isBlank l]
  cases hl : l.dropWhile isBlank with
  | nil => rfl
  | cons c r =>
    obtain ⟨x, hx⟩ := h.exists_scan hl
    rw [← Lexeme.assigns_scan, lexemes_cons, hx]
    rfl

theorem assignsReserved_eq (h : CalmFront l) : assignsReserved l = Lexeme.opensReserved (lexemes l) := by
  rw [assignsReserved, assignedWord?, h.dropWhile_isSpace, ← lexemes_dropWhile_isBlank l]
  cases hl : l.dropWhile isBlank with
  | nil => rfl
  | cons c r =>
    have hrest (hc : c.isAlpha) : CalmFront (r.dropWhile continuesName) := by
      have hfront := h.dropWhile (p := isBlank) rfl
      rw [hl] at hfront
      cases hfront with
      | quote => cases hc
      | calm _ hr => exact hr.dropWhile rfl
    have hcontinues : continuesWord = continuesName := rfl
    simp only [hcontinues]
    cases hk : Keyword.ofText? (String.ofList (c :: r.takeWhile continuesName)) with
    | some k =>
      have hc := Keyword.isAlpha_of_ofText? hk
      rw [lexemes_cons, Lexeme.scan_of_ofText? hk, drop_length_takeWhile]
      simp only [Option.toList_some, List.singleton_append, Lexeme.opensReserved, (hrest hc).head?_assigns, hc,
        Bool.true_or, Bool.true_and]
      split
      · next hassigns => simp only [Option.filter_some, hk, hassigns]; rfl
      · next hassigns => simpa using hassigns
    | none =>
      have hopens : Lexeme.opensReserved (lexemes (c :: r)) = false := by
        obtain ⟨x, hx⟩ := h.exists_scan hl
        rw [lexemes_cons, hx]
        cases x with
        | keyword k => cases hk.symm.trans (Lexeme.ofText?_of_scan hx)
        | _ => rfl
      rw [hopens]
      split
      · simp only [Option.filter_some, hk]; rfl
      · rfl

end Text.CalmFront

/-! Statements on a line. -/

/-- What the screen takes for the statements of a line. -/
def Screen.statements (l : List Char) : List (List Char) := splitAt ';' (l.takeWhile (· != '#'))

theorem Screen.reservedIn_isSome (l : List Char) : (reservedIn l).isSome = (statements l).any assignsReserved := by
  rw [reservedIn, List.isSome_findSome?]
  rfl

/-- The characters of a line that go on with its first statement. -/
def Screen.continues (c : Char) : Bool := c != '#' && c != ';'

theorem Screen.continues_of_isCalm {c : Char} (hc : isCalm c) : continues c := by
  simp [continues, ne_of_isCalm hc (d := '#') rfl, ne_of_isCalm hc (d := ';') rfl]

theorem Screen.continues_cases (c : Char) : continues c ∨ c = '#' ∨ c = ';' := by
  by_cases hcomment : c = '#'
  · exact .inr (.inl hcomment)
  · by_cases hsemicolon : c = ';'
    · exact .inr (.inr hsemicolon)
    · exact .inl (by simp [continues, hcomment, hsemicolon])

theorem Screen.statements_cons {c : Char} (hc : continues c) (r : List Char) :
    statements (c :: r) = consLine c (statements r) := by
  simp only [continues, Bool.and_eq_true, bne_iff_ne] at hc
  have hcomment : (c :: r).takeWhile (· != '#') = c :: r.takeWhile (· != '#') := by simp [hc.1]
  rw [statements, hcomment, splitAt, if_neg (by simpa using hc.2), statements]

theorem Screen.statements_semicolon (r : List Char) : statements (';' :: r) = [] :: statements r := rfl

theorem Screen.statements_comment (r : List Char) : statements ('#' :: r) = [[]] := rfl

theorem Screen.statements_eq (l : List Char) : statements l = l.takeWhile continues :: (statements l).tail := by
  induction l with
  | nil => rfl
  | cons c r ih =>
    obtain hc | rfl | rfl := continues_cases c
    · rw [statements_cons hc, List.takeWhile_cons_of_pos hc, ih]
      rfl
    · rfl
    · rfl

theorem Screen.tail_statements_cons {c : Char} (hc : continues c) (r : List Char) :
    (statements (c :: r)).tail = (statements r).tail := by
  rw [statements_cons hc, statements_eq r]
  rfl

section
variable {q : Char} (hq : q = '"' ∨ q = '\'')
include hq

theorem Screen.startsAssignment_append_quote (cs r : List Char) :
    startsAssignment (cs ++ q :: r) = startsAssignment cs := by
  have hne : q ≠ '<' ∧ q ≠ '-' ∧ q ≠ '=' := by obtain rfl | rfl := hq <;> decide
  fun_cases startsAssignment cs with
  | case1 | case2 | case3 => simp [startsAssignment]
  | case4 cs hequals =>
    cases cs with
    | nil => simp [startsAssignment, hne]
    | cons c cs => simp_all [startsAssignment]
  | case5 cs hsuper harrow _ hassign =>
    -- the quote is none of the characters that would make an assignment of what stands before it
    unfold startsAssignment
    split
    · rcases cs with _ | ⟨a, _ | ⟨b, _ | ⟨c, cs⟩⟩⟩ <;> simp_all
    · rcases cs with _ | ⟨a, _ | ⟨b, cs⟩⟩ <;> simp_all
    · rfl
    · rcases cs with _ | ⟨a, cs⟩ <;> simp_all
    · rfl

/-- A quote ends the word that a statement assigns to and what assigns to it. -/
theorem Screen.assignedWord?_append_quote (cs r : List Char) : assignedWord? (cs ++ q :: r) = assignedWord? cs := by
  have hspace : isSpace q = false := by obtain rfl | rfl := hq <;> rfl
  have hword : continuesWord q = false := by obtain rfl | rfl := hq <;> rfl
  have hstart : (q.isAlpha || q == '.') = false := by obtain rfl | rfl := hq <;> rfl
  have hdrop {p : Char → Bool} (hp : p q = false) (ds : List Char) :
      (ds ++ q :: r).dropWhile p = ds.dropWhile p ++ q :: r := by
    induction ds with
    | nil => exact List.dropWhile_cons_of_neg (by simp [hp])
    | cons d ds ih => cases hd : p d <;> simp [hd, ih]
  simp only [assignedWord?, hdrop hspace]
  cases cs.dropWhile isSpace with
  | nil => simp [hstart]
  | cons c ds =>
    simp only [List.cons_append, hdrop hword, hdrop hspace, startsAssignment_append_quote hq,
      takeWhile_append_stop hword]

theorem Screen.assignsReserved_append_quote (cs r : List Char) :
    assignsReserved (cs ++ q :: r) = assignsReserved cs := by
  rw [assignsReserved, assignsReserved, assignedWord?_append_quote hq]

/-- A quote behind some characters begins no other statements than those behind it. -/
theorem Screen.any_statements_append_quote (cs r : List Char) :
    (statements (cs ++ q :: r)).tail.any assignsReserved =
      ((statements cs).tail.any assignsReserved ||
        !cs.contains '#' && (statements r).tail.any assignsReserved) := by
  have hcontinues : continues q := by obtain rfl | rfl := hq <;> rfl
  induction cs with
  | nil =>
    rw [List.nil_append, tail_statements_cons hcontinues]
    rfl
  | cons c cs ih =>
    obtain hc | rfl | rfl := continues_cases c
    · have hne : '#' ≠ c := by
        rintro rfl
        cases hc
      rw [List.cons_append, tail_statements_cons hc, tail_statements_cons hc, ih]
      simp [hne]
    · simp [statements_comment]
    · have hfirst : assignsReserved ((cs ++ q :: r).takeWhile continues) =
          assignsReserved (cs.takeWhile continues) := by
        rw [List.takeWhile_append]
        split
        · next hall =>
          rw [List.takeWhile_cons_of_pos hcontinues, assignsReserved_append_quote hq,
            (List.takeWhile_prefix continues).eq_of_length hall]
        · rfl
      rw [List.cons_append, statements_semicolon, statements_semicolon, List.tail_cons, List.tail_cons,
        statements_eq, statements_eq cs, List.any_cons, List.any_cons, hfirst, ih]
      simp [Bool.or_assoc]

end

/-- What ends the first statement of a line changes nothing about the word assigned to. -/
theorem Text.CalmFront.assignedWord?_takeWhile (h : CalmFront l) (cs : List Char) :
    assignedWord? (cs ++ l.takeWhile continues) = assignedWord? (cs ++ l) := by
  induction h generalizing cs with
  | nil => rfl
  | quote => rw [List.takeWhile_cons_of_pos rfl, assignedWord?_append_quote (.inl rfl),
      assignedWord?_append_quote (.inl rfl)]
  | @calm c r hc _ ih =>
    rw [List.takeWhile_cons_of_pos (continues_of_isCalm hc), List.append_cons, ih, ← List.append_cons]

/-! Strings. -/

/-- The string holds what the screen takes for a statement that assigns to a reserved word. -/
def Text.holdsSlip (ps : List Point) : Bool := (statements (encode ps)).tail.any assignsReserved

/-- One of the strings does. What stands behind a comment sign is not looked at up to the end of the line. -/
def Text.anySlip (hidden : Bool) : List (Option (List Point)) → Bool
  | [] => false
  | none :: qs => anySlip false qs
  | some ps :: qs => !hidden && holdsSlip ps || anySlip (hidden || ps.contains (.char '#')) qs

theorem Text.anySlip_of_hidden {qs : List (Option (List Point))} (h : none ∉ qs) : anySlip true qs = false := by
  induction qs with
  | nil => rfl
  | cons q qs ih =>
    cases q with
    | none => simp at h
    | some s => exact ih fun hmem => h (List.mem_cons_of_mem _ hmem)

theorem Text.anySlip_append_none (hidden : Bool) (qs rs : List (Option (List Point))) :
    anySlip hidden (qs ++ none :: rs) = (anySlip hidden qs || anySlip false rs) := by
  induction qs generalizing hidden with
  | nil => rfl
  | cons q qs ih =>
    cases q with
    | none => exact ih false
    | some s => simp [anySlip, ih, Bool.or_assoc]

theorem Text.anySlip_of_isNone {qs : List (Option (List Point))} (h : qs.all Option.isNone) :
    anySlip false qs = false := by
  induction qs with
  | nil => rfl
  | cons q qs ih =>
    simp only [List.all_cons, Bool.and_eq_true] at h
    cases q with
    | none => exact ih h.2
    | some s => cases h.1

theorem Text.contains_encode (ps : List Point) : (encode ps).contains '#' = ps.contains (.char '#') := by
  induction ps with
  | nil => rfl
  | cons p ps ih =>
    rw [encode_cons, List.contains_append, ih, List.contains_cons]
    congr 1
    cases p with
    | char c =>
      rw [Point.escaped]
      obtain ⟨d, hd, heq⟩ | ⟨heq, -⟩ := escaped_cases c
      · have hletters : ∀ x ∈ escapeLetters, x.1 ≠ '#' ∧ x.2 ≠ '#' := by decide
        simp [heq, (hletters (c, d) hd).1.symm, (hletters (c, d) hd).2.symm]
      · simp [heq, beq_eq_decide]
    | lone s =>
      have hdigits : ∀ c ∈ hex 4 s.code, c ≠ '#' := forall_mem_hex (by decide) 4 s.code
      have hnot : '#' ∉ hex 4 s.code := fun hmem => hdigits _ hmem rfl
      have hne : (Point.char '#' == Point.lone s) = false := rfl
      simp [Point.escaped, hnot, hne]

namespace Masked

theorem calmFront (h : Masked l seen qs) (hqs : none ∉ qs) : CalmFront l := by
  induction h with
  | nil => exact .nil
  | calm hc _ ih => exact .calm hc (ih hqs)
  | feed => simp at hqs
  | quoted ps =>
    rw [toList_literal]
    exact .quote

theorem any_statements_tail (h : Masked l seen qs) (hqs : none ∉ qs) :
    (statements l).tail.any assignsReserved = anySlip false qs := by
  induction h with
  | nil => rfl
  | @calm c r _ _ hc _ ih =>
    rw [tail_statements_cons (continues_of_isCalm hc), ih hqs]
  | feed => simp at hqs
  | @quoted r _ qs ps _ ih =>
    have hqs : none ∉ qs := fun hmem => hqs (List.mem_cons_of_mem _ hmem)
    rw [toList_literal, List.cons_append, List.append_assoc, tail_statements_cons (by decide), List.singleton_append,
      any_statements_append_quote (.inl rfl), contains_encode, ih hqs, anySlip]
    cases ps.contains (.char '#') with
    | true => simp [holdsSlip, anySlip_of_hidden hqs]
    | false => simp [holdsSlip]

/-- A line assigns to a reserved word at its start or in a string. -/
theorem reservedIn_eq_none_iff (h : Masked l seen qs) (hqs : none ∉ qs) :
    reservedIn l = none ↔ Lexeme.opensReserved (lexemes l) = false ∧ anySlip false qs = false := by
  have hfront := h.calmFront hqs
  have hfirst : assignsReserved (l.takeWhile continues) = Lexeme.opensReserved (lexemes l) := by
    rw [← hfront.assignsReserved_eq, assignsReserved, assignsReserved]
    exact congrArg _ (congrArg _ (hfront.assignedWord?_takeWhile []))
  rw [← Option.not_isSome_iff_eq_none, reservedIn_isSome, statements_eq, List.any_cons, hfirst,
    h.any_statements_tail hqs]
  simp

end Masked

/-! Lines of a text. -/

/-- Some line begins by assigning to a reserved word. -/
def Lexeme.slips : List Lexeme → Bool
  | [] => false
  | l :: ts => l == .newline && opensReserved ts || slips ts

theorem Lexeme.slips_newline_cons (ts : List Lexeme) : slips (.newline :: ts) = (opensReserved ts || slips ts) := rfl

theorem Lexeme.opensReserved_append (ts us : List Lexeme) :
    opensReserved (ts ++ .newline :: us) = opensReserved ts := by
  match ts with
  | [] => rfl
  | [l] => cases l <;> rfl
  | l :: m :: ts => cases l <;> rfl

theorem Lexeme.slips_append {ts : List Lexeme} (h : .newline ∉ ts) (us : List Lexeme) :
    slips (ts ++ us) = slips us := by
  induction ts with
  | nil => rfl
  | cons l ts ih =>
    rw [List.mem_cons, not_or] at h
    have hl : (l == .newline) = false := by simpa using fun heq => h.1 heq.symm
    rw [List.cons_append, slips, hl, ih h.2]
    rfl

theorem Lexeme.slips_newline (cs : List Char) :
    slips (.newline :: lexemes (cs.drop (newlines cs))) = slips (.newline :: lexemes cs) := by
  obtain h | h := lexemes_drop_newlines cs
  · rw [h]
  · rw [h]
    rfl

/-- A text without line ends is a line. -/
theorem Text.not_mem_of_line {l : List Char} (h : ∀ c ∈ l, isLineEnd c = false) : '\n' ∉ l ∧ '\r' ∉ l :=
  ⟨fun hmem => absurd (h _ hmem) (by decide), fun hmem => absurd (h _ hmem) (by decide)⟩

namespace Masked

theorem isLineEnd_of_mem (h : Masked l seen qs) (hqs : none ∉ qs) (hlines : ∀ s, some s ∈ qs → isOneLine s) :
    ∀ c ∈ l, isLineEnd c = false := by
  induction h with
  | nil => simp
  | calm hc _ ih => exact List.forall_mem_cons.2 ⟨isLineEnd_of_isCalm hc, ih hqs hlines⟩
  | feed => simp at hqs
  | quoted ps _ ih =>
    rw [List.forall_mem_append]
    refine ⟨isLineEnd_of_mem_literal (hlines ps (by simp)), ih ?_ ?_⟩
    · exact fun hmem => hqs (List.mem_cons_of_mem _ hmem)
    · exact fun t ht => hlines t (List.mem_cons_of_mem _ ht)

/-- The induction moves what stands on a line into `l` until the line ends. -/
theorem reservedIn_lines_iff (hl : Masked l seen qs) (hqs : none ∉ qs) (hlines : ∀ s, some s ∈ qs → isOneLine s)
    (h : Masked text seen' qs') (hlines' : ∀ s, some s ∈ qs' → isOneLine s) :
    (∀ m ∈ lines (l ++ text), reservedIn m = none) ↔
      Lexeme.slips (.newline :: lexemes (l ++ text)) = false ∧ anySlip false (qs ++ qs') = false := by
  induction h generalizing l seen qs with
  | nil =>
    have hends := hl.isLineEnd_of_mem hqs hlines
    have hline := not_mem_of_line hends
    have hslips : Lexeme.slips (lexemes l) = false := by
      simpa [Lexeme.slips] using Lexeme.slips_append (newline_not_mem_lexemes hline.1 hline.2) []
    rw [List.append_nil, List.append_nil, Lexeme.slips_newline_cons, hslips, Bool.or_false,
      ← hl.reservedIn_eq_none_iff hqs]
    have hlines := lines_append hends []
    rw [List.append_nil] at hlines
    cases l with
    | nil => exact iff_of_true (by simp [lines]) rfl
    | cons c r => rw [hlines, lines, foldr_consLine_nil (by simp), List.forall_mem_singleton]
  | calm hc _ ih =>
    have hc := Masked.calm hc .nil
    have ih := ih (hl.append hc) (by simpa using hqs) (by simpa using hlines) hlines'
    simpa using ih
  | @feed r _ qs' _ ih =>
    have hends := hl.isLineEnd_of_mem hqs hlines
    obtain ⟨hfeed, hreturn⟩ := not_mem_of_line hends
    have hline : lines (l ++ '\n' :: r) = l :: lines r := by
      have hfeed : lines ('\n' :: r) = [] :: lines r := rfl
      rw [lines_append hends, hfeed, foldr_consLine, List.append_nil]
    have ih := ih .nil (by simp) (by simp) fun s hs => hlines' s (List.mem_cons_of_mem _ hs)
    rw [List.nil_append, List.nil_append] at ih
    rw [hline, List.forall_mem_cons, hl.reservedIn_eq_none_iff hqs, ih, lexemes_line hfeed hreturn,
      Lexeme.slips_newline_cons (_ ++ _), Lexeme.opensReserved_append,
      Lexeme.slips_append (newline_not_mem_lexemes hfeed hreturn), Lexeme.slips_newline,
      anySlip_append_none]
    simp only [Bool.or_eq_false_iff]
    tauto
  | @quoted r _ qs' ps _ ih =>
    have hps := Masked.quoted ps .nil
    have ih := ih (hl.append hps) (by simpa using hqs) ?_ fun t ht => hlines' t (List.mem_cons_of_mem _ ht)
    · simpa using ih
    · simp only [List.mem_append, List.mem_singleton, Option.some.injEq]
      rintro t (ht | rfl)
      · exact hlines t ht
      · exact hlines' t List.mem_cons_self

end Masked

theorem Screen.problem_of_reservedFrom {line n : Nat} {ls : List (List Char)} {problem : Problem}
    (h : reservedFrom line ls = some (problem, n)) : ∃ w, problem = .reservedWord w := by
  induction ls generalizing line with
  | nil => cases h
  | cons l ls ih =>
    rw [reservedFrom] at h
    split at h
    · next w _ =>
      cases h
      exact ⟨w, rfl⟩
    · exact ih h

namespace Quiet

theorem find_cases (h : Quiet text qs) :
    (∀ s, some s ∈ qs → isOneLine s) ∧ find text = reservedFrom 1 (lines text) ∨
      (∃ s, some s ∈ qs ∧ isOneLine s = false) ∧ ∃ n, find text = some (.unclosedString, n) := by
  obtain ⟨seen, hmasked, hnested⟩ := h
  have hopened : nests (([] : Opened).map (·.1)) [] = some [] := rfl
  rw [find]
  obtain ⟨hlines, hscan⟩ | ⟨hstring, n, hscan⟩ := hmasked.scanFrom_cases .nil 1 hopened (hnested [])
  · exact .inl ⟨hlines, by rw [← List.nil_append text, hscan, Option.none_or]⟩
  · exact .inr ⟨hstring, n, by rw [← List.nil_append text, hscan, Option.some_or]⟩

/-- Brackets of quiet text match. -/
theorem problem_of_find (h : Quiet text qs) (hfind : find text = some (problem, n)) :
    problem = .unclosedString ∨ ∃ w, problem = .reservedWord w := by
  obtain ⟨-, hreserved⟩ | ⟨-, m, hstring⟩ := h.find_cases
  · exact .inr (problem_of_reservedFrom (hreserved.symm.trans hfind))
  · cases hstring.symm.trans hfind
    exact .inl rfl

/-- Quiet text passes the screen unless a string runs over the end of a line, a line begins by assigning to a reserved
word, or a string holds what is taken for such an assignment. -/
theorem find_eq_none_iff (h : Quiet text qs) :
    find text = none ↔ (∀ s, some s ∈ qs → isOneLine s) ∧ Lexeme.slips (.newline :: lexemes text) = false ∧
      anySlip false qs = false := by
  obtain ⟨hlines, hreserved⟩ | ⟨⟨s, hs, hline⟩, n, hstring⟩ := h.find_cases
  · obtain ⟨seen, hmasked, -⟩ := h
    have hiff := Masked.reservedIn_lines_iff .nil (by simp) (by simp) hmasked hlines
    rw [List.nil_append, List.nil_append] at hiff
    rw [hreserved, reservedFrom_eq_none_iff, hiff]
    exact ⟨fun hslips => ⟨hlines, hslips⟩, fun hall => hall.2⟩
  · refine iff_of_false (by simp [hstring]) fun hall => ?_
    simp [hall.1 s hs] at hline

end Quiet

end Deadwood
