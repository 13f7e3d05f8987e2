import Deadwood.Proofs.Brackets
import Deadwood.Proofs.Quiet

/-! The lines of quiet text. Brackets match on them, so all that the scan can find is a string that is not on one line,
and it finds one exactly if a string holds the end of a line that is not escaped. -/
namespace Deadwood
open Text Screen

/-! Characters. -/

theorem Text.isSpace_of_isLineEnd {c : Char} (h : isLineEnd c) : isSpace c := by
  simp only [isLineEnd, isSpace, inRanges, spaceRanges, List.any_cons, List.any_nil, Bool.or_eq_true,
    Bool.and_eq_true, decide_eq_true_eq, beq_iff_eq] at h ⊢
  omega

theorem Text.isSpace_of_isCalm {c : Char} (h : isCalm c) (hs : isSpace c) : c = ' ' ∨ c = '\t' := by
  simp only [isCalm, isPlain, Bool.or_eq_true, Bool.and_eq_true, Bool.not_eq_true', hs, Bool.true_eq_false,
    false_or] at h
  obtain (⟨-, hc⟩ | hopen) | hclose := h
  · simpa using hc
  · unfold closer? at hopen
    split at hopen <;> simp_all [isSpace, inRanges, spaceRanges]
  · simp only [isCloser, Bool.or_eq_true, beq_iff_eq] at hclose
    obtain (rfl | rfl) | rfl := hclose <;> exact absurd hs (by decide)

theorem Text.ne_of_isCalm {c d : Char} (h : isCalm c) (hd : isCalm d = false) : c ≠ d := by
  rintro rfl
  rw [h] at hd
  cases hd

theorem Text.isLineEnd_of_isCalm {c : Char} (h : isCalm c) : isLineEnd c = false := by
  cases hend : isLineEnd c with
  | false => rfl
  | true => obtain rfl | rfl := isSpace_of_isCalm h (isSpace_of_isLineEnd hend) <;> cases hend

/-! Lines. -/

theorem Text.lines_cons {c : Char} (hc : isLineEnd c = false) (r : List Char) :
    lines (c :: r) = consLine c (lines r) := by
  have hreturn : ∀ t, c = '\r' → r = '\n' :: t → False := by
    rintro t rfl
    cases hc
  rw [lines.eq_3 c r hreturn, hc]
  rfl

/-- What holds no line end is put in front of the first line. -/
theorem Text.lines_append {l : List Char} (h : ∀ c ∈ l, isLineEnd c = false) (r : List Char) :
    lines (l ++ r) = l.foldr consLine (lines r) := by
  induction l with
  | nil => rfl
  | cons c l ih =>
    obtain ⟨hc, hl⟩ := List.forall_mem_cons.1 h
    rw [List.cons_append, lines_cons hc, ih hl, List.foldr_cons]

theorem Text.foldr_consLine (l m : List Char) (ls : List (List Char)) :
    l.foldr consLine (m :: ls) = (l ++ m) :: ls := by
  induction l with
  | nil => rfl
  | cons c l ih => rw [List.foldr_cons, ih, consLine, List.cons_append]

theorem Text.foldr_consLine_nil {l : List Char} (hl : l ≠ []) : l.foldr consLine [] = [l] := by
  induction l with
  | nil => exact absurd rfl hl
  | cons c l ih =>
    cases l with
    | nil => rfl
    | cons d l =>
      rw [List.foldr_cons, ih (by simp)]
      rfl

theorem Text.lines_lineEnd {e : Char} (he : isLineEnd e) (r : List Char) : ∃ ls, lines (e :: r) = [] :: ls := by
  unfold lines
  split
  · next heq => cases heq
  · exact ⟨_, rfl⟩
  · next heq =>
    cases heq
    rw [if_pos he]
    exact ⟨_, rfl⟩

/-! Strings. -/

/-- The string has no line end but line feeds, which are escaped. -/
def Text.isOneLine (ps : List Point) : Bool := ps.all fun p => p.char?.all fun c => c == '\n' || !isLineEnd c

theorem Text.mem_encode {c : Char} {ps : List Point} (h : c ∈ encode ps) :
    isLineEnd c = false ∨ .char c ∈ ps ∧ c ≠ '\n' := by
  obtain ⟨p, hp, hc⟩ := List.mem_flatMap.1 h
  cases p with
  | char d =>
    rw [Point.escaped] at hc
    obtain ⟨e, he, heq⟩ | ⟨heq, -, -, hfeed, -⟩ := escaped_cases d
    · have hletters : ∀ x ∈ escapeLetters, isLineEnd x.2 = false := by decide
      rw [heq] at hc
      obtain rfl | hc := List.mem_cons.1 hc
      · exact .inl rfl
      · rw [List.mem_singleton.1 hc]
        exact .inl (hletters (d, e) he)
    · obtain rfl : c = d := List.mem_singleton.1 (heq ▸ hc)
      exact .inr ⟨hp, hfeed⟩
  | lone s =>
    have hdigits : ∀ c ∈ hex 4 s.code, isLineEnd c = false := forall_mem_hex (by decide) 4 s.code
    obtain rfl | hc := List.mem_cons.1 hc
    · exact .inl rfl
    · obtain rfl | hc := List.mem_cons.1 hc
      · exact .inl rfl
      · exact .inl (hdigits c hc)

theorem Text.isLineEnd_of_mem_literal {ps : List Point} (h : isOneLine ps) :
    ∀ c ∈ (literal ps).toList, isLineEnd c = false := by
  intro c hc
  rw [toList_literal, List.mem_cons, List.mem_append, List.mem_singleton] at hc
  obtain rfl | hc | rfl := hc
  · decide
  · obtain hline | ⟨hmem, hfeed⟩ := mem_encode hc
    · exact hline
    · simpa [Point.char?, hfeed] using List.all_eq_true.1 h _ hmem
  · decide

theorem Text.encode_append (ps qs : List Point) : encode (ps ++ qs) = encode ps ++ encode qs := List.flatMap_append

theorem Screen.outside_literal (ps : List Point) (rest : List Char) :
    outside none ((literal ps).toList ++ rest) = outside none rest := by
  rw [toList_literal, List.cons_append, outside_quote (.inl rfl), List.append_assoc, List.singleton_append,
    outside_string (inside_encode ps) (by decide)]

theorem Screen.outside_calm {c : Char} (h : isCalm c) (r : List Char) :
    outside none (c :: r) = (c :: (outside none r).1, (outside none r).2) := by
  have hne (d : Char) (hd : isCalm d = false) : (c == d) = false := by simpa using ne_of_isCalm h hd
  simp [outside, hne '#' rfl, hne '"' rfl, hne '\'' rfl]

theorem Screen.matchLine_of_nests {opened : Opened} {cs os : List Char} (h : nests (opened.map (·.1)) cs = some os)
    (line : Nat) : ∃ opened', matchLine line opened cs = .ok opened' ∧ opened'.map (·.1) = os := by
  rw [← matchLine_map line, Option.map_eq_some_iff] at h
  obtain ⟨opened', hmatch, hos⟩ := h
  cases hline : matchLine line opened cs with
  | error => simp [hline, Except.toOption] at hmatch
  | ok => simp_all [Except.toOption]

/-- A line on which brackets match, and what the scan does behind it. -/
theorem Screen.scanFrom_cons {opened : Opened} {l cs os : List Char} {inside : Bool}
    (hl : outside none l = (cs, inside)) (h : nests (opened.map (·.1)) cs = some os) (line : Nat) (ls : List (List Char)) :
    ∃ opened', opened'.map (·.1) = os ∧ scanFrom line opened (l :: ls) =
      if inside then some (.unclosedString, line) else scanFrom (line + 1) opened' ls := by
  obtain ⟨opened', hmatch, hos⟩ := matchLine_of_nests h line
  exact ⟨opened', hos, by simp only [scanFrom, hl, hmatch]⟩

/-- The first end of a line in a string leaves it open. -/
theorem Text.exists_open {ps : List Point} (h : isOneLine ps = false) (rest : List Char) :
    ∃ qs e r, (literal ps).toList ++ rest = '"' :: encode qs ++ e :: r ∧
      (∀ c ∈ '"' :: encode qs, isLineEnd c = false) ∧ isLineEnd e := by
  obtain ⟨p, hp⟩ : ∃ p, ps.find? (fun p => !p.char?.all fun c => c == '\n' || !isLineEnd c) = some p := by
    refine Option.isSome_iff_exists.1 (List.find?_isSome.2 ?_)
    simpa [isOneLine] using h
  obtain ⟨hend, qs, rs, happend, hbefore⟩ := List.find?_eq_some_iff_append.1 hp
  cases p with
  | lone s => cases hend
  | char e =>
    simp only [Point.char?, Option.all_some, Bool.not_or, Bool.not_not, Bool.and_eq_true, Bool.not_eq_true',
      beq_eq_false_iff_ne] at hend
    have hescaped : escaped e = [e] := by
      obtain ⟨d, hd, -⟩ | ⟨heq, -⟩ := escaped_cases e
      · have hletters : ∀ x ∈ escapeLetters, x.1 ≠ '\n' → isLineEnd x.1 = false := by decide
        simp [hletters (e, d) hd hend.1] at hend
      · exact heq
    refine ⟨qs, e, encode rs ++ '"' :: rest, ?_, ?_, hend.2⟩
    · simp [toList_literal, happend, encode_append, Point.escaped, hescaped]
    · have hone : isOneLine qs := by simpa [isOneLine] using hbefore
      intro c hc
      refine isLineEnd_of_mem_literal hone c ?_
      rw [toList_literal, ← List.cons_append]
      exact List.mem_append_left _ hc

/-- What stands at the front of a line, of which the screen sees `v` and no open string. -/
structure Screen.Front (l v : List Char) : Prop where
  line : ∀ c ∈ l, isLineEnd c = false
  seen : ∀ r, outside none (l ++ r) = (v ++ (outside none r).1, (outside none r).2)

namespace Screen.Front

theorem nil : Front [] [] := ⟨nofun, fun _ => rfl⟩

theorem append (ha : Front a v) (hb : Front b w) : Front (a ++ b) (v ++ w) where
  line := List.forall_mem_append.2 ⟨ha.line, hb.line⟩
  seen r := by rw [List.append_assoc, ha.seen, hb.seen, List.append_assoc]

theorem calm (hc : isCalm c) : Front [c] [c] where
  line _ hd := List.mem_singleton.1 hd ▸ isLineEnd_of_isCalm hc
  seen r := outside_calm hc r

theorem quoted {ps : List Point} (hps : isOneLine ps) : Front (literal ps).toList [] where
  line := isLineEnd_of_mem_literal hps
  seen r := outside_literal ps r

theorem outside_eq (h : Front l v) : outside none l = (v, false) := by
  have hseen := h.seen []
  rwa [List.append_nil, outside, List.append_nil] at hseen

end Screen.Front

theorem Screen.scanFrom_nil {opened : Opened} (h : opened.map (·.1) = []) (line : Nat) :
    scanFrom line opened [] = none := by
  rw [List.map_eq_nil_iff.1 h]
  rfl

/-- The scan finds nothing but strings that do not stand on one line. The induction moves what stands on a line into
its front until the line ends. -/
theorem Masked.scanFrom_cases (h : Masked text seen qs) (hl : Front l v) (line : Nat) {opened : Opened}
    (hfront : nests (opened.map (·.1)) v = some os) (hrest : nests os seen = some []) :
    (∀ s, some s ∈ qs → isOneLine s) ∧ scanFrom line opened (lines (l ++ text)) = none ∨
      (∃ s, some s ∈ qs ∧ isOneLine s = false) ∧
        ∃ n, scanFrom line opened (lines (l ++ text)) = some (.unclosedString, n) := by
  induction h generalizing l v line opened os with
  | nil =>
    refine .inl ⟨by simp, ?_⟩
    have hline := lines_append hl.line []
    rw [hline, lines]
    cases l with
    | nil =>
      obtain rfl : v = [] := (congrArg Prod.fst hl.outside_eq).symm
      exact scanFrom_nil ((Option.some.inj hfront).trans (Option.some.inj hrest)) line
    | cons c r =>
      obtain ⟨opened', rfl, hscan⟩ := scanFrom_cons hl.outside_eq hfront line []
      rw [foldr_consLine_nil (by simp), hscan]
      exact scanFrom_nil (Option.some.inj hrest) (line + 1)
  | @calm c r seen qs hc _ ih =>
    rw [← List.singleton_append, nests_append] at hrest
    obtain ⟨os', hc', hrest⟩ := Option.bind_eq_some_iff.1 hrest
    rw [List.append_cons]
    refine ih (hl.append (.calm hc)) line ?_ hrest
    rw [nests_append, hfront, Option.bind_some, hc']
  | @feed r seen qs _ ih =>
    obtain ⟨opened', rfl, hscan⟩ := scanFrom_cons hl.outside_eq hfront line (lines r)
    have hfeed : lines ('\n' :: r) = [] :: lines r := rfl
    rw [lines_append hl.line, hfeed, foldr_consLine, List.append_nil, hscan]
    simpa using ih .nil (line + 1) rfl hrest
  | @quoted r seen qs s _ ih =>
    cases hs : isOneLine s with
    | true =>
      rw [← List.append_assoc]
      have hl := hl.append (.quoted hs)
      rw [List.append_nil] at hl
      obtain ⟨hlines, hscan⟩ | ⟨⟨t, ht, hlines⟩, hscan⟩ := ih hl line hfront hrest
      · refine .inl ⟨fun t ht => ?_, hscan⟩
        obtain heq | ht := List.mem_cons.1 ht
        · exact Option.some.inj heq ▸ hs
        · exact hlines t ht
      · exact .inr ⟨⟨t, List.mem_cons_of_mem _ ht, hlines⟩, hscan⟩
    | false =>
      refine .inr ⟨⟨s, List.mem_cons_self, hs⟩, ?_⟩
      obtain ⟨ps, e, rest, happend, hends, he⟩ := exists_open hs r
      obtain ⟨ls, hls⟩ := lines_lineEnd he rest
      have hopen : outside none (l ++ '"' :: encode ps) = (v, true) := by
        have hunclosed := outside_unclosed (inside_encode ps) (.inl rfl)
        rw [List.append_nil] at hunclosed
        rw [hl.seen, outside_quote (.inl rfl), hunclosed, List.append_nil]
      obtain ⟨opened', -, hscan⟩ := scanFrom_cons hopen hfront line ls
      rw [happend, ← List.append_assoc, lines_append (List.forall_mem_append.2 ⟨hl.line, hends⟩), hls,
        foldr_consLine, List.append_nil, hscan]
      exact ⟨line, rfl⟩

end Deadwood
