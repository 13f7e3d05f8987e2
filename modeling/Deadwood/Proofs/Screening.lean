import Deadwood.Source.Screen

/-! What the screen lets pass. It finds nothing exactly if the brackets outside strings and
comments nest, no line ends inside a string, and no line assigns to a reserved word. Lines are
numbered for messages only, so none of this hangs on where a line stands. -/
namespace Deadwood.Screen
open Text

/-- The brackets left open, innermost first, if each closing one meets its partner. -/
def nests : List Char → List Char → Option (List Char)
  | opened, [] => some opened
  | opened, c :: r =>
    if (closer? c).isSome then nests (c :: opened) r
    else if isCloser c then
      match opened with
      | o :: rest => if closer? o == some c then nests rest r else none
      | [] => none
    else nests opened r

theorem nests_append (opened cs ds : List Char) :
    nests opened (cs ++ ds) = (nests opened cs).bind (nests · ds) := by
  induction cs generalizing opened with
  | nil => rfl
  | cons c r ih =>
    simp only [List.cons_append, nests]
    split
    · exact ih _
    · split
      · cases opened with
        | nil => rfl
        | cons o rest =>
          simp only
          split
          · exact ih rest
          · rfl
      · exact ih _

/-- The numbers of the lines do not matter to matching. -/
theorem matchLine_map (line : Nat) (opened : Opened) (cs : List Char) :
    (matchLine line opened cs).toOption.map (·.map (·.1)) = nests (opened.map (·.1)) cs := by
  induction cs generalizing opened with
  | nil => rfl
  | cons c r ih =>
    simp only [matchLine, nests]
    split
    · exact ih _
    · split
      · cases opened with
        | nil => rfl
        | cons o rest =>
          simp only [List.map_cons]
          split
          · exact ih rest
          · rfl
      · exact ih _

theorem outside_open {q c : Char} (hslash : c ≠ '\\') (r : List Char) :
    outside (some q) (c :: r) = outside (if c == q then none else some q) r := by
  rw [outside.eq_def]
  simp [hslash]

theorem outside_quote {q : Char} (hq : q = '"' ∨ q = '\'') (r : List Char) :
    outside none (q :: r) = outside (some q) r := by
  obtain rfl | rfl := hq <;> simp [outside]

/-- What the brackets of a text are looked for in. -/
def visible (ls : List (List Char)) : List Char := ls.flatMap fun l => (outside none l).1

theorem visible_cons (l : List Char) (ls : List (List Char)) :
    visible (l :: ls) = (outside none l).1 ++ visible ls := List.flatMap_cons

theorem scanFrom_eq_none_iff {line : Nat} {opened : Opened} {ls : List (List Char)} :
    scanFrom line opened ls = none ↔
      (∀ l ∈ ls, (outside none l).2 = false) ∧ nests (opened.map (·.1)) (visible ls) = some [] := by
  induction ls generalizing line opened with
  | nil => cases opened <;> simp [scanFrom, visible, nests]
  | cons l ls ih =>
    have hmatch := matchLine_map line opened (outside none l).1
    simp only [scanFrom, visible_cons, nests_append, ← hmatch, List.forall_mem_cons]
    cases matchLine line opened (outside none l).1 with
    | error c => simp [Except.toOption]
    | ok opened' =>
      cases hinside : (outside none l).2 with
      | true => simp
      | false => simpa [Except.toOption] using ih

theorem reservedFrom_eq_none_iff {line : Nat} {ls : List (List Char)} :
    reservedFrom line ls = none ↔ ∀ l ∈ ls, reservedIn l = none := by
  induction ls generalizing line with
  | nil => simp [reservedFrom]
  | cons l ls ih =>
    rw [reservedFrom, List.forall_mem_cons]
    cases reservedIn l with
    | none => simpa using ih
    | some w => simp

/-- A line that is fine by itself. -/
def LineOk (l : List Char) : Prop := (outside none l).2 = false ∧ reservedIn l = none

theorem find_eq_none_iff {text : List Char} :
    find text = none ↔ (∀ l ∈ lines text, LineOk l) ∧ nests [] (visible (lines text)) = some [] := by
  rw [find, Option.or_eq_none_iff, scanFrom_eq_none_iff, reservedFrom_eq_none_iff]
  simp only [LineOk, List.map_nil]
  grind

/-! Texts joined by a line feed. -/

theorem lines_ne_nil (c : Char) (r : List Char) : lines (c :: r) ≠ [] := by
  unfold lines
  split
  · simp_all
  · simp
  · split
    · simp
    · cases lines _ <;> simp [consLine]

theorem consLine_append (c : Char) {ls : List (List Char)} (hls : ls ≠ []) (ms : List (List Char)) :
    consLine c (ls ++ ms) = consLine c ls ++ ms := by
  cases ls with
  | nil => exact absurd rfl hls
  | cons l ls => rfl

/-- The line feed ends the last line of the first text, or makes an empty line if there is none to
end. -/
theorem lines_append_newline (a b : List Char) :
    ∃ ls, (ls = [] ∨ ls = [[]]) ∧ lines (a ++ '\n' :: b) = lines a ++ ls ++ lines b := by
  fun_induction lines a with
  | case1 => exact ⟨[[]], .inr rfl, rfl⟩
  | case2 r ih =>
    obtain ⟨ls, hls, ih⟩ := ih
    refine ⟨ls, hls, ?_⟩
    simp only [List.cons_append, lines, ih]
  | case3 c r hreturn hend ih =>
    obtain ⟨ls, hls, ih⟩ := ih
    by_cases hcr : c = '\r' ∧ r = []
    · -- the carriage return and the line feed end one line
      obtain ⟨rfl, rfl⟩ := hcr
      exact ⟨[], .inl rfl, rfl⟩
    · have hnext : ∀ t, c = '\r' → r ++ '\n' :: b = '\n' :: t → False := by
        rintro t rfl h
        cases r with
        | nil => exact hcr ⟨rfl, rfl⟩
        | cons d r => cases h; exact hreturn r rfl rfl
      refine ⟨ls, hls, ?_⟩
      rw [List.cons_append, lines.eq_3 c _ hnext, if_pos hend, ih]
      rfl
  | case4 c r hreturn hend ih =>
    cases r with
    | nil =>
      have hc : c ≠ '\r' := by
        rintro rfl
        exact hend rfl
      refine ⟨[], .inl rfl, ?_⟩
      rw [List.cons_append, List.nil_append, lines.eq_3 c _ fun _ h => absurd h hc, if_neg hend]
      rfl
    | cons d r =>
      have hnext : ∀ t, c = '\r' → d :: r ++ '\n' :: b = '\n' :: t → False := by
        intro t hc h
        cases h
        exact hreturn r hc rfl
      obtain ⟨ls, hls, ih⟩ := ih
      refine ⟨ls, hls, ?_⟩
      rw [List.cons_append, lines.eq_3 c _ hnext, if_neg hend, ih, List.append_assoc,
        consLine_append c (lines_ne_nil d r), List.append_assoc]

theorem lineOk_append_newline {a b : List Char} :
    (∀ l ∈ lines (a ++ '\n' :: b), LineOk l) ↔ (∀ l ∈ lines a, LineOk l) ∧ ∀ l ∈ lines b, LineOk l := by
  obtain ⟨ls, hls, hlines⟩ := lines_append_newline a b
  have hempty : ∀ l ∈ ls, LineOk l := by
    rintro l hl
    obtain rfl | rfl := hls
    · cases hl
    · rw [List.mem_singleton.1 hl]
      exact ⟨rfl, rfl⟩
  rw [hlines, List.forall_mem_append, List.forall_mem_append, and_iff_left hempty]

theorem visible_append_newline (a b : List Char) :
    visible (lines (a ++ '\n' :: b)) = visible (lines a) ++ visible (lines b) := by
  obtain ⟨ls, hls, hlines⟩ := lines_append_newline a b
  have hvisible : visible ls = [] := by obtain rfl | rfl := hls <;> rfl
  have happend (ls ms : List (List Char)) : visible (ls ++ ms) = visible ls ++ visible ms := List.flatMap_append
  rw [hlines, happend, happend, hvisible, List.append_nil]

/-- Two texts that pass the screen pass it together. -/
theorem find_append_newline {a b : List Char} (ha : find a = none) (hb : find b = none) :
    find (a ++ '\n' :: b) = none := by
  rw [find_eq_none_iff] at ha hb ⊢
  rw [lineOk_append_newline, visible_append_newline, nests_append, ha.2]
  exact ⟨⟨ha.1, hb.1⟩, hb.2⟩

/-- What stands behind a line feed may give way to a text that passes where it passes and shows no
other brackets. -/
theorem find_behind_newline {a b c : List Char} (h : find (a ++ '\n' :: b) = none)
    (hlines : (∀ l ∈ lines b, LineOk l) → ∀ l ∈ lines c, LineOk l)
    (hvisible : ∀ opened, nests opened (visible (lines c)) = nests opened (visible (lines b))) :
    find (a ++ '\n' :: c) = none := by
  rw [find_eq_none_iff, lineOk_append_newline, visible_append_newline, nests_append] at h ⊢
  obtain ⟨⟨ha, hb⟩, hnests⟩ := h
  simp only [hvisible]
  exact ⟨⟨ha, hlines hb⟩, hnests⟩

end Deadwood.Screen
