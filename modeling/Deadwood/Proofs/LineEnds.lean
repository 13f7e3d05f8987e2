import Deadwood.Proofs.Completeness

/-! Returns in front of line feeds. They change neither the lines of a text nor its lexemes: the
return belongs to the line break, or to the blanks or the comment before it. -/
namespace Deadwood
open Text Lexeme

/-- A text with a return in front of each line feed. -/
def Text.withReturns : List Char → List Char
  | [] => []
  | c :: r => if c = '\n' then '\r' :: '\n' :: withReturns r else c :: withReturns r

theorem Text.withReturns_line {l : List Char} (h : '\n' ∉ l) (b : List Char) :
    withReturns (l ++ b) = l ++ withReturns b := by
  induction l with
  | nil => rfl
  | cons c l ih =>
    rw [List.mem_cons, not_or] at h
    obtain ⟨hc, hl⟩ := h
    rw [List.cons_append, withReturns, if_neg (Ne.symm hc), ih hl, List.cons_append]

theorem Text.lines_withReturns {cs : List Char} (h : '\r' ∉ cs) : lines (withReturns cs) = lines cs := by
  induction cs with
  | nil => rfl
  | cons c r ih =>
    rw [List.mem_cons, not_or] at h
    obtain ⟨hc, hr⟩ := h
    have hlines (t : List Char) : lines (c :: t) = if isLineEnd c then [] :: lines t else consLine c (lines t) :=
      lines.eq_3 c t fun _ hreturn => absurd hreturn.symm hc
    rw [withReturns, hlines, ← ih hr]
    split
    · next hfeed =>
      subst hfeed
      rfl
    · exact hlines _

namespace Lexeme

theorem stringTail_append_return {quote : Char} (hquote : quote = '"' ∨ quote = '\'') (r : List Char) :
    stringTail quote (r ++ ['\r']) = stringTail quote r := by
  fun_induction stringTail quote r with
  | case1 => obtain rfl | rfl := hquote <;> rfl
  | case2 c r hc => simp [stringTail, hc]
  | case3 c r hc ih => simp_all [stringTail]
  | case4 c r hpair hc =>
    obtain rfl : c = quote := by simpa using hc
    obtain rfl | rfl := hquote <;> simp [stringTail]
  | case5 c r hpair hc hend =>
    cases r with
    | nil =>
      obtain rfl | rfl : c = '\n' ∨ c = '\\' := by simpa using hend
      · obtain rfl | rfl := hquote <;> rfl
      · rfl
    | cons d r => rw [List.cons_append, stringTail.eq_3 quote c _ (by grind), if_neg hc, if_pos hend]
  | case6 c r hpair hc hend ih =>
    rw [List.cons_append, stringTail.eq_3 quote c _ (by grind), if_neg hc, if_neg hend, ih]

theorem dropWhile_append_return (p : Char → Bool) (r : List Char) :
    (r ++ ['\r']).dropWhile p = r.dropWhile p ++ ['\r'] ∨ r.dropWhile p = [] ∧ (r ++ ['\r']).dropWhile p = [] := by
  rw [List.dropWhile_append]
  cases h : r.dropWhile p with
  | nil => cases hreturn : p '\r' <;> simp [hreturn]
  | cons c r => exact .inl rfl

end Lexeme

/-- A return at the end of a line is a blank or the end of a comment. -/
theorem lexemes_append_return {l : List Char} (hfeed : '\n' ∉ l) : lexemes (l ++ ['\r']) = lexemes l := by
  match l with
  | [] => rfl
  | c :: r =>
    rw [List.mem_cons, not_or] at hfeed
    obtain ⟨hc, hr⟩ := hfeed
    -- what gives no lexeme may take the return
    have hskip (p : Char → Bool) (hscan : ∀ t, '\n' ∉ t → scan c t = (none, (t.takeWhile p).length)) :
        lexemes (c :: r ++ ['\r']) = lexemes (c :: r) := by
      have hdrop (t : List Char) (ht : '\n' ∉ t) : lexemes (c :: t) = lexemes (t.dropWhile p) := by
        rw [lexemes_cons, hscan t ht, drop_length_takeWhile]
        rfl
      rw [List.cons_append, hdrop _ (by simpa using hr), hdrop r hr]
      obtain h | ⟨h, h'⟩ := dropWhile_append_return p r
      · have hrest : '\n' ∉ r.dropWhile p := fun hmem => hr (List.dropWhile_subset p hmem)
        rw [h, lexemes_append_return hrest]
      · rw [h, h']
    cases hblank : isBlank c with
    | true =>
      refine hskip isBlank fun t ht => ?_
      have hnext : t.head? ≠ some '\n' := fun h => ht (List.mem_of_mem_head? h)
      exact scan_blank hblank fun h => hnext h.2
    | false =>
      by_cases hcomment : c = '#'
      · subst hcomment
        exact hskip (· != '\n') fun t _ => rfl
      · have hscan : scan c (r ++ ['\r']) = scan c r :=
          scan_append_space rfl rfl rfl (Ne.symm hc) hblank hcomment fun hquote => stringTail_append_return hquote r
        have hrest : '\n' ∉ r.drop (scan c r).2 := fun hmem => hr (List.mem_of_mem_drop hmem)
        rw [List.cons_append, lexemes_cons, hscan, List.drop_append_of_le_length (scan_le c r),
          lexemes_append_return hrest, lexemes_cons]
termination_by l.length
decreasing_by
  · have hlength := (List.dropWhile_suffix p (l := r)).length_le
    rw [List.length_cons]
    omega
  · rw [List.length_drop, List.length_cons]
    omega

/-- A run of line breaks stays one. -/
theorem drop_newlines_withReturns {b : List Char} (h : '\r' ∉ b) :
    (withReturns b).drop (newlines (withReturns b)) = withReturns (b.drop (newlines b)) := by
  induction b with
  | nil => rfl
  | cons c r ih =>
    rw [List.mem_cons, not_or] at h
    obtain ⟨hc, hr⟩ := h
    by_cases hfeed : c = '\n'
    · subst hfeed
      exact ih hr
    · have hnone (t : List Char) : newlines (c :: t) = 0 :=
        newlines.eq_3 _ (fun _ heq => hfeed (List.cons.inj heq).1) fun _ heq => hc (List.cons.inj heq).1.symm
      rw [hnone, withReturns, if_neg hfeed, hnone]
      exact (if_neg hfeed).symm

theorem lexemes_withReturns {cs : List Char} (h : '\r' ∉ cs) : lexemes (withReturns cs) = lexemes cs := by
  by_cases hfeed : '\n' ∈ cs
  · obtain ⟨l, b, hcs, hl⟩ := List.eq_append_cons_of_mem hfeed
    rw [hcs] at h ⊢
    rw [List.mem_append, List.mem_cons, not_or, not_or] at h
    obtain ⟨hreturn, -, hb⟩ := h
    have hrest : '\r' ∉ b.drop (newlines b) := fun hmem => hb (List.mem_of_mem_drop hmem)
    have hline : withReturns (l ++ '\n' :: b) = l ++ ['\r'] ++ '\n' :: withReturns b := by
      rw [withReturns_line hl, List.append_assoc]
      rfl
    obtain ⟨ts, hts, happend⟩ := lexemes_append_newline (l ++ ['\r'])
    rw [lexemes_append_return hl] at hts
    obtain rfl | hts := hts
    · rw [hline, happend, drop_newlines_withReturns hb, lexemes_withReturns hrest, lexemes_line hl hreturn]
    · exact absurd (by simp [hts]) (newline_not_mem_lexemes hl hreturn)
  · have heq := withReturns_line hfeed []
    rw [List.append_nil] at heq
    rw [heq, withReturns, List.append_nil]
termination_by cs.length
decreasing_by
  rw [hcs, List.length_drop, List.length_append, List.length_cons]
  omega

/-- A script with a return in front of each line feed is read as the script without them. -/
theorem parse_withReturns [Text.CharNames] {source : String} (h : '\r' ∉ source.toList) (file : String) :
    (Program.parse (String.ofList (withReturns source.toList)) file).toOption.map Program.bare =
      (Program.parse source file).toOption.map Program.bare := by
  refine Program.parse_congr ?_ ?_ file
  · rw [String.toList_ofList, Screen.find, lines_withReturns h, Screen.find]
  · rw [String.toList_ofList, lexemes_withReturns h]

/-- Returns behind blanks, behind a comment and in a run of line breaks, before an `else` as well. -/
theorem parse_withReturns_breaks :
    '\r' ∉ "\x7b f(a, # x\n\n  b) \n if (c)\n 'd'\nelse\n e \x7d\n".toList ∧
      (Program.parse "\x7b f(a, # x\r\n\r\n  b) \r\n if (c)\r\n 'd'\r\nelse\r\n e \x7d\r\n" "a").isOk ∧
      (Program.parse "\x7b f(a, # x\r\n\r\n  b) \r\n if (c)\r\n 'd'\r\nelse\r\n e \x7d\r\n" "a").toOption.map Program.bare =
        (Program.parse "\x7b f(a, # x\n\n  b) \n if (c)\n 'd'\nelse\n e \x7d\n" "a").toOption.map Program.bare := by
  have hreturn : '\r' ∉ "\x7b f(a, # x\n\n  b) \n if (c)\n 'd'\nelse\n e \x7d\n".toList := by decide +kernel
  exact ⟨hreturn, by decide +kernel, parse_withReturns hreturn "a"⟩

end Deadwood
