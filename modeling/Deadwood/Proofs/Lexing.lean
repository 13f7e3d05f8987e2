import Deadwood.Source.Token

/-! Lexemes of a text, without their places. -/
namespace Deadwood
open Text

def lexemes (cs : List Char) : List Lexeme := (Token.cut cs).map (·.lexeme)

theorem Token.cutFrom_lexemes (skip : Nat) (p : Position) (cs : List Char) :
    (cutFrom skip p cs).map (·.lexeme) = lexemes (cs.drop skip) := by
  have hplace (skip : Nat) (p p' : Position) (cs : List Char) :
      (cutFrom skip p cs).map (·.lexeme) = (cutFrom skip p' cs).map (·.lexeme) := by
    induction cs generalizing skip p p' with
    | nil => rw [cutFrom, cutFrom]
    | cons c r ih =>
      cases skip with
      | succ skip => exact ih skip _ _
      | zero =>
        simp only [cutFrom]
        split
        · exact ih _ _ _
        · simp only [List.map_cons, ih _ (p.next c) (p'.next c)]
  induction skip generalizing p cs with
  | zero => exact hplace 0 p ⟨1, 1⟩ cs
  | succ skip ih =>
    cases cs with
    | nil => rfl
    | cons c r => exact ih (p.next c) r

@[simp] theorem lexemes_nil : lexemes [] = [] := rfl

theorem lexemes_cons (c : Char) (r : List Char) :
    lexemes (c :: r) = (Lexeme.scan c r).1.toList ++ lexemes (r.drop (Lexeme.scan c r).2) := by
  rw [lexemes, Token.cut, Token.cutFrom]
  split
  · next n h => simp [h, Token.cutFrom_lexemes]
  · next l n h => simp [h, Token.cutFrom_lexemes]

/-- A lexeme of a text was cut somewhere in it. -/
theorem exists_scan_of_mem {l : Lexeme} {cs : List Char} (h : l ∈ lexemes cs) :
    ∃ c r, c ∈ cs ∧ (Lexeme.scan c r).1 = some l := by
  match cs with
  | [] => simp at h
  | c :: r =>
    rw [lexemes_cons, List.mem_append, Option.mem_toList] at h
    obtain h | h := h
    · exact ⟨c, r, by simp, h⟩
    · obtain ⟨d, t, hd, h⟩ := exists_scan_of_mem h
      exact ⟨d, t, List.mem_cons_of_mem c (List.mem_of_mem_drop hd), h⟩
termination_by cs.length
decreasing_by rw [List.length_drop, List.length_cons]; omega

/-! Words and numbers end where no character continues them. -/

theorem takeWhile_append_stop {p : α → Bool} {x : α} (hx : p x = false) (xs ys : List α) :
    (xs ++ x :: ys).takeWhile p = xs.takeWhile p := by
  induction xs with
  | nil => exact List.takeWhile_cons_of_neg (by simp [hx])
  | cons y xs ih => simp only [List.cons_append, List.takeWhile_cons, ih]

theorem drop_length_takeWhile (p : α → Bool) (xs : List α) : xs.drop (xs.takeWhile p).length = xs.dropWhile p := by
  have hdrop : (xs.takeWhile p ++ xs.dropWhile p).drop (xs.takeWhile p).length = xs.dropWhile p := List.drop_left
  rwa [List.takeWhile_append_dropWhile] at hdrop

theorem Text.isAlphanum_bounds {c : Char} (h : c.isAlphanum) : 48 ≤ c.toNat ∧ c.toNat < 128 := by
  have hval : c.toNat = c.val.toNat := rfl
  delta Char.isAlphanum Char.isAlpha Char.isUpper Char.isLower Char.isDigit at h
  simp [UInt32.le_iff_toNat_le] at h
  omega

theorem Text.not_isAlpha_of_isDigit {c : Char} (h : c.isDigit) : c.isAlpha = false := by
  have hval : c.toNat = c.val.toNat := rfl
  delta Char.isDigit at h
  delta Char.isAlpha Char.isUpper Char.isLower
  simp [UInt32.le_iff_toNat_le] at h ⊢
  omega

-- the kernel computes `Nat.ble` on literals directly
theorem Text.digits_alphanumeric :
    (digitZeros.all fun z => alphanumericRanges.any fun r => r.1.ble z && (z + 9).ble r.2) = true := by decide +kernel

theorem Text.isWord_of_isDecimal {c : Char} (h : isDecimal c) : isWord c := by
  unfold isDecimal digitValue? at h
  split at h
  · next hc => simp [isWord, Char.isAlphanum, hc]
  · split at h
    · cases h
    · next hc =>
      simp only [Option.isSome_map, List.find?_isSome, Bool.and_eq_true, decide_eq_true_eq] at h
      obtain ⟨z, hz, hlo, hhi⟩ := h
      obtain ⟨r, hr, hrange⟩ := List.any_eq_true.1 (List.all_eq_true.1 digits_alphanumeric z hz)
      simp only [Bool.and_eq_true, Nat.ble_eq] at hrange
      have hin : inRanges alphanumericRanges c := by
        refine List.any_eq_true.2 ⟨r, hr, ?_⟩
        simp only [Bool.and_eq_true, decide_eq_true_eq]
        omega
      simp [isWord, hin]
      omega

namespace Lexeme

theorem isDecimal_of_continuesName (h : continuesName c = false) : isDecimal c = false := by
  cases hc : isDecimal c with
  | false => rfl
  | true => simp [continuesName, isWord_of_isDecimal hc] at h

theorem ne_of_continuesName (h : continuesName c = false) (hd : continuesName d) : c ≠ d := by
  rintro rfl
  rw [hd] at h
  cases h

def isSign (c : Char) : Bool := c == '+' || c == '-'

/-- An exponent has a digit, behind a sign if there is one. -/
theorem exponentLength_append {x : Char} (hx : continuesName x = false) {cs : List Char}
    (hsign : isSign x = false ∨ cs ≠ ['e'] ∧ cs ≠ ['E']) (b : List Char) :
    exponentLength (cs ++ x :: b) = exponentLength cs := by
  have hstop (ds : List Char) : (ds ++ x :: b).takeWhile isDecimal = ds.takeWhile isDecimal :=
    takeWhile_append_stop (isDecimal_of_continuesName hx) ds b
  match cs with
  | [] =>
    have he : (x == 'e' || x == 'E') = false := by
      simp [ne_of_continuesName hx (d := 'e') rfl, ne_of_continuesName hx (d := 'E') rfl]
    cases b with
    | nil => rfl
    | cons d b => simp [exponentLength, he]
  | [e] =>
    have hnone : (x :: b).takeWhile isDecimal = [] := hstop []
    obtain hsign | hsign := hsign
    · have hsign : (x == '+' || x == '-') = false := hsign
      simp [exponentLength, hsign, hnone]
    · have he : (e == 'e' || e == 'E') = false := by simpa using hsign
      simp [exponentLength, he]
  | e :: s :: r =>
    have hdigits : (if (s == '+' || s == '-') = true then r ++ x :: b else s :: (r ++ x :: b)) =
        (if (s == '+' || s == '-') = true then r else s :: r) ++ x :: b := by split <;> rfl
    simp only [List.cons_append, exponentLength, hdigits, hstop]

theorem exponentLength_le (cs : List Char) : exponentLength cs ≤ cs.length := by
  match cs with
  | [] | [e] => exact Nat.zero_le _
  | e :: s :: r =>
    have hr := (List.takeWhile_prefix (p := isDecimal) (l := r)).length_le
    have hsr := (List.takeWhile_prefix (p := isDecimal) (l := s :: r)).length_le
    grind [exponentLength]

/-- The digits around an optional point. -/
def mantissaLength (cs : List Char) : Nat :=
  let whole := (cs.takeWhile isDecimal).length
  match cs.drop whole with
  | '.' :: r => whole + 1 + (r.takeWhile isDecimal).length
  | _ => whole

theorem mantissaLength_le (cs : List Char) : mantissaLength cs ≤ cs.length := by
  have hwhole := (List.takeWhile_prefix (p := isDecimal) (l := cs)).length_le
  unfold mantissaLength
  simp only
  split
  · next r hr =>
    have hdigits := (List.takeWhile_prefix (p := isDecimal) (l := r)).length_le
    have hlength := congrArg List.length hr
    simp only [List.length_drop, List.length_cons] at hlength
    omega
  · exact hwhole

theorem mantissaLength_append {x : Char} (hx : continuesName x = false) (cs b : List Char) :
    mantissaLength (cs ++ x :: b) = mantissaLength cs := by
  have hstop (ds : List Char) : (ds ++ x :: b).takeWhile isDecimal = ds.takeWhile isDecimal :=
    takeWhile_append_stop (isDecimal_of_continuesName hx) ds b
  have hwhole := (List.takeWhile_prefix (p := isDecimal) (l := cs)).length_le
  simp only [mantissaLength, hstop, List.drop_append_of_le_length hwhole]
  cases cs.drop (cs.takeWhile isDecimal).length with
  | nil => simp [ne_of_continuesName hx (d := '.') rfl]
  | cons c r =>
    by_cases hc : c = '.'
    · subst hc
      simp only [List.cons_append, hstop]
    · simp [hc]

theorem numberLength?_eq (cs : List Char) :
    numberLength? cs =
      let n := mantissaLength cs + exponentLength (cs.drop (mantissaLength cs))
      if (cs.takeWhile isDecimal).length == 0 && mantissaLength cs < 2 then none
      else some (n + if (cs.drop n).head? == some 'L' then 1 else 0) := rfl

/-- What stands behind a mantissa and is not yet an exponent. -/
def opensExponent (cs : List Char) : Prop :=
  cs.drop (mantissaLength cs) = ['e'] ∨ cs.drop (mantissaLength cs) = ['E']

theorem numberLength?_append {x : Char} (hx : continuesName x = false) {cs : List Char}
    (hsign : isSign x = false ∨ ¬opensExponent cs) (b : List Char) :
    numberLength? (cs ++ x :: b) = numberLength? cs := by
  have hmantissa := mantissaLength_le cs
  have hexponent := exponentLength_le (cs.drop (mantissaLength cs))
  rw [List.length_drop] at hexponent
  simp only [numberLength?_eq, mantissaLength_append hx, List.drop_append_of_le_length hmantissa,
    exponentLength_append hx (hsign.imp_right not_or.1), takeWhile_append_stop (isDecimal_of_continuesName hx)]
  rw [List.drop_append_of_le_length (by omega)]
  cases cs.drop (mantissaLength cs + exponentLength (cs.drop (mantissaLength cs))) with
  | nil => simp [ne_of_continuesName hx (d := 'L') rfl]
  | cons c r => rfl

theorem numberLength?_le {cs : List Char} (h : numberLength? cs = some n) : n ≤ cs.length := by
  have hmantissa := mantissaLength_le cs
  have hexponent := exponentLength_le (cs.drop (mantissaLength cs))
  rw [List.length_drop] at hexponent
  rw [numberLength?_eq] at h
  simp only at h
  split at h
  · cases h
  · cases h
    split
    · next hsuffix =>
      cases hdrop : cs.drop (mantissaLength cs + exponentLength (cs.drop (mantissaLength cs))) with
      | nil => simp [hdrop] at hsuffix
      | cons c r =>
        have hlength := congrArg List.length hdrop
        simp only [List.length_drop, List.length_cons] at hlength
        omega
    · omega

theorem scanNumber_append {x : Char} (hx : continuesName x = false) {c : Char} {r : List Char}
    (hsign : isSign x = false ∨ ¬opensExponent (c :: r)) (b : List Char) :
    scanNumber c (r ++ x :: b) = scanNumber c r := by
  unfold scanNumber
  rw [← List.cons_append, numberLength?_append hx hsign]
  cases h : numberLength? (c :: r) with
  | none => rfl
  | some n => rw [Option.map_some, Option.map_some, List.take_append_of_le_length (numberLength?_le h)]

theorem scanWord_append {x : Char} (hx : continuesName x = false) (c : Char) (r b : List Char) :
    scanWord c (r ++ x :: b) = scanWord c r := by
  rw [scanWord, takeWhile_append_stop hx, scanWord]

theorem scanNumber_le {c : Char} {r : List Char} (h : scanNumber c r = some (l, n)) : n ≤ r.length := by
  obtain ⟨m, hm, heq⟩ := Option.map_eq_some_iff.1 h
  have hle := numberLength?_le hm
  cases heq
  simp only [List.length_cons] at hle
  omega

theorem scanWordOrNumber_append {x : Char} (hx : continuesName x = false) {c : Char} {r : List Char}
    (hsign : isSign x = false ∨ ¬opensExponent (c :: r)) (b : List Char) :
    scanWordOrNumber c (r ++ x :: b) = scanWordOrNumber c r := by
  unfold scanWordOrNumber
  rw [scanWord_append hx, scanNumber_append hx hsign]
  cases hnumber : scanNumber c r with
  | none => rfl
  | some found =>
    obtain ⟨l, n⟩ := found
    have hnext : ((((r ++ x :: b).drop n).head?).map continuesName).getD false =
        (((r.drop n).head?).map continuesName).getD false := by
      rw [List.drop_append_of_le_length (scanNumber_le hnumber)]
      cases r.drop n with
      | nil => simp [hx]
      | cons d r => rfl
    simp only [hnext]
    cases r with
    | nil => simp
    | cons d r => rfl

/-! Texts joined by a line feed. No lexeme but a line break reaches into one, so cutting a text up
does not depend on what stands behind the line feed. -/

theorem head?_append_ne {x y : Char} (hx : x ≠ y) (r b : List Char) :
    ((r ++ y :: b).head? == some x) = (r.head? == some x) := by
  cases r with
  | nil => simpa using hx.symm
  | cons c r => rfl

theorem stringTail_append_newline {quote : Char} (hquote : quote = '"' ∨ quote = '\'') (r b : List Char) :
    stringTail quote (r ++ '\n' :: b) = stringTail quote r := by
  fun_induction stringTail quote r with
  | case1 => obtain rfl | rfl := hquote <;> rfl
  | case2 c r hc => simp [stringTail, hc]
  | case3 c r hc ih => simp_all [stringTail]
  | case4 c r hpair hc =>
    obtain rfl : c = quote := by simpa using hc
    obtain rfl | rfl := hquote <;> simp [stringTail]
  | case5 c r hpair hc hend =>
    cases r with
    | nil => obtain rfl | rfl : c = '\n' ∨ c = '\\' := by simpa using hend
             · obtain rfl | rfl := hquote <;> rfl
             · rfl
    | cons d r =>
      rw [List.cons_append, stringTail.eq_3 quote c _ (by grind), if_neg hc, if_pos hend]
  | case6 c r hpair hc hend ih =>
    rw [List.cons_append, stringTail.eq_3 quote c _ (by grind), if_neg hc, if_neg hend, ih]

theorem percentTail_append_space {y : Char} (hy : isSpace y) (r b : List Char) :
    percentTail (r ++ y :: b) = percentTail r := by
  have hpercent : y ≠ '%' := by
    rintro rfl
    cases hy
  fun_induction percentTail r with
  | case1 => simp [percentTail, hy, hpercent]
  | _ => simp_all [percentTail]

theorem stringTail_le {quote : Char} {r : List Char} (h : stringTail quote r = some n) : n ≤ r.length := by
  fun_induction stringTail quote r generalizing n <;> grind [Option.map_eq_some_iff]

theorem percentTail_le {r : List Char} (h : percentTail r = some n) : n ≤ r.length := by
  fun_induction percentTail r generalizing n <;> grind [Option.map_eq_some_iff]

/-- No lexeme reaches into a space, where a string does not. -/
theorem scan_append_space {y : Char} (hy : isSpace y) (hname : continuesName y = false) (hsign : isSign y = false)
    {c : Char} {r : List Char} (hc : c ≠ '\n') (hblank : isBlank c = false) (hcomment : c ≠ '#') {b : List Char}
    (hstring : c = '"' ∨ c = '\'' → stringTail c (r ++ y :: b) = stringTail c r) :
    scan c (r ++ y :: b) = scan c r := by
  have hne {x : Char} (hx : isSpace x = false) : x ≠ y := by
    rintro rfl
    simp [hx] at hy
  have hreturn : (c == '\r') = false := by
    simp only [isBlank, Bool.or_eq_false_iff] at hblank
    exact hblank.2
  unfold scan
  simp only [beq_eq_false_iff_ne.2 hc, hreturn, hblank, Bool.false_and, Bool.false_eq_true, if_false,
    head?_append_ne (x := '[') (hne rfl), head?_append_ne (x := ']') (hne rfl),
    head?_append_ne (x := '=') (hne rfl), head?_append_ne (x := '-') (hne rfl),
    head?_append_ne (x := '|') (hne rfl), head?_append_ne (x := '&') (hne rfl), head?_append_ne (x := '<') (hne rfl),
    percentTail_append_space hy, scanWordOrNumber_append hname (.inl hsign)]
  split
  all_goals try rfl
  · exact absurd rfl hcomment
  · -- an arrow may take two more characters
    cases r with
    | nil => simp
    | cons d r =>
      simp only [List.cons_append, List.drop_succ_cons, List.drop_zero, head?_append_ne (x := '-') (hne rfl)]
  · cases h : percentTail r with
    | none => rfl
    | some n => simp only [List.take_append_of_le_length (percentTail_le h)]
  · split
    · next hquote =>
      rw [hstring (by simpa using hquote)]
      cases h : stringTail c r with
      | none => rfl
      | some n => simp only [List.take_append_of_le_length (stringTail_le h)]
    · rfl

/-- Blanks give no lexeme, but for a return that begins a line break. -/
theorem scan_blank {c : Char} {r : List Char} (hc : isBlank c) (hbreak : ¬(c = '\r' ∧ r.head? = some '\n')) :
    scan c r = (none, (r.takeWhile isBlank).length) := by
  have hfeed : c ≠ '\n' := by
    rintro rfl
    cases hc
  unfold scan
  dsimp only
  rw [if_neg (by simpa using hfeed), if_neg (by simpa using hbreak), if_pos hc]

/-- Apart from line breaks, no lexeme reaches into a line feed. -/
theorem scan_append_newline {c : Char} {r : List Char} (hc : c ≠ '\n')
    (hreturn : c = '\r' → r ≠ [] ∧ r.head? ≠ some '\n') (b : List Char) :
    scan c (r ++ '\n' :: b) = scan c r := by
  cases hblank : isBlank c with
  | true =>
    have hbreak : ¬(c = '\r' ∧ r.head? = some '\n') := fun h => (hreturn h.1).2 h.2
    have hbreak' : ¬(c = '\r' ∧ (r ++ '\n' :: b).head? = some '\n') := by
      rintro ⟨hc, hr⟩
      cases r with
      | nil => exact (hreturn hc).1 rfl
      | cons d r => exact hbreak ⟨hc, hr⟩
    rw [scan_blank hblank hbreak', scan_blank hblank hbreak, takeWhile_append_stop rfl]
  | false =>
    by_cases hcomment : c = '#'
    · subst hcomment
      simp [scan, isBlank, takeWhile_append_stop (x := '\n') (p := (· != '\n')) rfl]
    · exact scan_append_space rfl rfl rfl hc hblank hcomment fun hquote => stringTail_append_newline hquote r b

theorem newlines_le (r : List Char) : newlines r ≤ r.length := by
  fun_induction newlines r <;> grind

/-- A line break takes all line breaks behind it. -/
theorem newlines_append_newline (r : List Char) :
    (newlines r < r.length ∧ ∀ b, newlines (r ++ '\n' :: b) = newlines r) ∨
      (r.drop (newlines r) = [] ∨ r.drop (newlines r) = ['\r']) ∧
        ∀ b, (r ++ '\n' :: b).drop (newlines (r ++ '\n' :: b)) = b.drop (newlines b) := by
  fun_induction newlines r with
  | case1 r ih => simpa [newlines] using ih
  | case2 r ih => simpa [newlines] using ih
  | case3 r hfeed hreturn =>
    cases r with
    | nil => exact .inr ⟨.inl rfl, fun b => rfl⟩
    | cons c r =>
      by_cases hc : c = '\r' ∧ r = []
      · obtain ⟨rfl, rfl⟩ := hc
        exact .inr ⟨.inr rfl, fun b => rfl⟩
      · refine .inl ⟨by simp, fun b => newlines.eq_3 _ ?_ ?_⟩
        · rintro t h
          cases h
          exact hfeed _ rfl
        · rintro t h
          cases r with
          | nil => exact hc ⟨by cases h; rfl, rfl⟩
          | cons d r =>
            cases h
            exact hreturn _ rfl

theorem scan_newline {c : Char} {r : List Char} (h : c = '\n' ∨ c = '\r' ∧ r.head? = some '\n') :
    scan c r = (some .newline, newlines r) := by
  obtain rfl | ⟨rfl, hr⟩ := h
  · rfl
  · unfold scan
    dsimp only
    rw [if_neg (by decide), if_pos (by simp [hr])]

/-! What can be cut off the front of a text. -/

theorem word_cases (cs : List Char) :
    (∃ k, Keyword.ofText? (String.ofList cs) = some k ∧ word cs = .keyword k) ∨
      Keyword.ofText? (String.ofList cs) = none ∧ word cs = .name (String.ofList cs) := by
  unfold word
  dsimp only
  cases Keyword.ofText? (String.ofList cs) with
  | some k => exact .inl ⟨k, rfl, rfl⟩
  | none => exact .inr ⟨rfl, rfl⟩

theorem scanWordOrNumber_cases {c : Char} {r : List Char} (h : scanWordOrNumber c r = (l, n)) :
    (c.isAlpha || c == '.') ∧ scanWord c r = (l, n) ∨ ¬c.isAlpha ∧ scanNumber c r = some (l, n) ∨
      l = .stray c ∧ n = 0 := by
  unfold scanWordOrNumber at h
  split at h
  · next hc => exact .inl ⟨by simp [hc], h⟩
  · next hc =>
    split at h
    · next hnumber =>
      split at h
      · next hpoint =>
        simp only [Bool.and_eq_true] at hpoint
        exact .inl ⟨by simp [hpoint.1.1], h⟩
      · exact .inr (.inl ⟨hc, h ▸ hnumber⟩)
    · split at h
      · next hpoint => exact .inl ⟨by simp [hpoint], h⟩
      · cases h
        exact .inr (.inr ⟨rfl, rfl⟩)

theorem scanWordOrNumber_le {c : Char} {r : List Char} (h : scanWordOrNumber c r = (l, n)) : n ≤ r.length := by
  obtain ⟨-, hword⟩ | ⟨-, hnumber⟩ | ⟨-, rfl⟩ := scanWordOrNumber_cases h
  · cases hword
    exact (List.takeWhile_prefix _).length_le
  · exact scanNumber_le hnumber
  · exact Nat.zero_le _

/-- What a text that starts with no mark can be cut as. -/
def isWordOrNumber : Lexeme → Bool
  | .keyword _ | .name _ | .number _ | .stray _ => true
  | _ => false

theorem isWordOrNumber_of_scanWordOrNumber {c : Char} {r : List Char} (h : scanWordOrNumber c r = (l, n)) :
    l.isWordOrNumber := by
  obtain ⟨-, hword⟩ | ⟨-, hnumber⟩ | ⟨rfl, -⟩ := scanWordOrNumber_cases h
  · cases hword
    obtain ⟨k, -, heq⟩ | ⟨-, heq⟩ := word_cases (c :: r.takeWhile continuesName) <;> rw [heq] <;> rfl
  · obtain ⟨m, -, heq⟩ := Option.map_eq_some_iff.1 hnumber
    cases heq
    rfl
  · rfl

/-- The marks of one character. Some of them begin a longer mark. -/
def marks : List (Char × Lexeme) :=
  [(';', .semicolon), (',', .comma), ('$', .dollar), ('(', .openParen), (')', .closeParen), ('{', .openBrace),
   ('}', .closeBrace), ('[', .openBracket), ('=', .equals), ('!', .not), ('>', .op (.rel .gt)), ('<', .op (.rel .lt)),
   ('|', .op .or), ('&', .op .and), ('+', .op (.arith .add)), ('-', .op (.arith .sub)), ('*', .op (.arith .mul)),
   ('/', .op (.arith .div)), ('^', .op (.arith .pow)), (':', .op .range)]

/-- The marks of two characters. -/
def pairs : List (Char × Char × Lexeme) :=
  [('[', '[', .openDouble), ('=', '=', .op (.rel .eq)), ('!', '=', .op (.rel .ne)), ('>', '=', .op (.rel .ge)),
   ('<', '=', .op (.rel .le)), ('<', '-', .assign .arrow), ('|', '|', .op .lazyOr), ('&', '&', .op .lazyAnd)]

/-- What can be cut off the front of a text, with the number of characters it takes behind the first. -/
inductive Scanned : Char → List Char → Option Lexeme → Nat → Prop where
  | breaks (hc : c = '\n' ∨ c = '\r' ∧ r.head? = some '\n') : Scanned c r (some .newline) (newlines r)
  | blanks (hc : isBlank c) : Scanned c r none (r.takeWhile isBlank).length
  | comment : Scanned '#' r none (r.takeWhile (· != '\n')).length
  | mark (h : (c, l) ∈ marks) : Scanned c r (some l) 0
  | pair (h : (c, d, l) ∈ pairs) : Scanned c (d :: r) (some l) 1
  | closeBracket : Scanned ']' r (some (.closeBracket (r.head? == some ']'))) 0
  | superArrow : Scanned '<' ('<' :: '-' :: r) (some (.assign .superArrow)) 2
  | percent (h : percentTail r = some n) : Scanned '%' r (some (.op (.ofText (String.ofList ('%' :: r.take n))))) n
  | string (hc : c = '"' ∨ c = '\'') (h : stringTail c r = some n) :
      Scanned c r (some (.string (String.ofList (c :: r.take n)))) n
  | stray : Scanned c r (some (.stray c)) 0
  | word (h : scanWordOrNumber c r = (l, n)) : Scanned c r (some l) n

theorem scanned {c : Char} {r : List Char} (h : scan c r = (o, n)) : Scanned c r o n := by
  obtain rfl : (scan c r).1 = o := congrArg Prod.fst h
  obtain rfl : (scan c r).2 = n := congrArg Prod.snd h
  have htwo {c d : Char} {l : Lexeme} (hr : (r.head? == some d) = true) (hpair : (c, d, l) ∈ pairs) :
      Scanned c r (some l) 1 := by
    obtain ⟨t, rfl⟩ := List.head?_eq_some_iff.1 (eq_of_beq hr)
    exact .pair hpair
  unfold scan
  dsimp only
  repeat' split
  all_goals try exact .stray
  all_goals try exact .mark (by decide)
  all_goals try exact htwo ‹_› (by decide)
  · next hc => exact .breaks (.inl (eq_of_beq hc))
  · next hc => exact .breaks (.inr (by simpa using hc))
  · next hc => exact .blanks hc
  · exact .comment
  · exact .closeBracket
  · next hr hnext =>
    obtain ⟨t, rfl⟩ := List.head?_eq_some_iff.1 (eq_of_beq hr)
    obtain ⟨u, rfl⟩ := List.head?_eq_some_iff.1 (eq_of_beq hnext)
    exact .superArrow
  · next h => exact .percent h
  · next hc _ _ h => exact .string (by simpa using hc) h
  · exact .word rfl

theorem exists_scanned {c : Char} {r : List Char} (h : (scan c r).1 = o) : ∃ n, Scanned c r o n :=
  ⟨(scan c r).2, scanned (Prod.ext h rfl)⟩

theorem Scanned.le (h : Scanned c r o n) : n ≤ r.length := by
  cases h with
  | breaks => exact newlines_le r
  | blanks | comment => exact (List.takeWhile_prefix _).length_le
  | mark | closeBracket | stray => exact Nat.zero_le _
  | pair | superArrow => simp
  | percent h => exact percentTail_le h
  | string _ h => exact stringTail_le h
  | word h => exact scanWordOrNumber_le h

theorem scan_le (c : Char) (r : List Char) : (scan c r).2 ≤ r.length := (scanned rfl).le

theorem Scanned.scanWordOrNumber_eq (h : Scanned c r (some l) n) (hl : l.isWordOrNumber) (hstray : ∀ d, l ≠ .stray d) :
    scanWordOrNumber c r = (l, n) := by
  cases h with
  | mark hmark =>
    have hmarks : ∀ m ∈ marks, ¬m.2.isWordOrNumber := by decide
    exact absurd hl (hmarks _ hmark)
  | pair hpair =>
    have hpairs : ∀ m ∈ pairs, ¬m.2.2.isWordOrNumber := by decide
    exact absurd hl (hpairs _ hpair)
  | stray => exact absurd rfl (hstray c)
  | word hword => exact hword
  | _ => cases hl

/-- Only a line feed and a return begin line breaks. -/
theorem eq_of_scan_newline {c : Char} {r : List Char} (h : (scan c r).1 = some .newline) : c = '\n' ∨ c = '\r' := by
  obtain ⟨n, hscan⟩ := exists_scanned h
  cases hscan with
  | breaks hc => exact hc.imp_right And.left
  | mark hmark => simp [marks] at hmark
  | pair hpair => simp [pairs] at hpair
  | word hword => cases isWordOrNumber_of_scanWordOrNumber hword

end Lexeme

open Lexeme

theorem lexemes_newline (b : List Char) : lexemes ('\n' :: b) = .newline :: lexemes (b.drop (newlines b)) := by
  rw [lexemes_cons, scan_newline (.inl rfl)]
  rfl

/-- A text begins with at most one line break. -/
theorem lexemes_drop_newlines (b : List Char) :
    lexemes b = lexemes (b.drop (newlines b)) ∨ lexemes b = .newline :: lexemes (b.drop (newlines b)) := by
  unfold newlines
  split
  · exact .inr (lexemes_newline _)
  · next r =>
    refine .inr ?_
    rw [lexemes_cons, scan_newline (.inr ⟨rfl, rfl⟩)]
    rfl
  · exact .inl rfl

/-- A line feed stands between the lexemes of the texts around it, but for a line break of theirs
that it continues. -/
theorem lexemes_append_newline (a : List Char) :
    ∃ ts, (lexemes a = ts ∨ lexemes a = ts ++ [.newline]) ∧
      ∀ b, lexemes (a ++ '\n' :: b) = ts ++ .newline :: lexemes (b.drop (newlines b)) := by
  match a with
  | [] => exact ⟨[], .inl rfl, lexemes_newline⟩
  | c :: r =>
    -- what is cut first does not reach into the line feed
    have hcut (hscan : ∀ b, scan c (r ++ '\n' :: b) = scan c r) : ∃ ts,
        (lexemes (c :: r) = ts ∨ lexemes (c :: r) = ts ++ [.newline]) ∧
          ∀ b, lexemes (c :: r ++ '\n' :: b) = ts ++ .newline :: lexemes (b.drop (newlines b)) := by
      obtain ⟨ts, hr, happend⟩ := lexemes_append_newline (r.drop (scan c r).2)
      refine ⟨(scan c r).1.toList ++ ts, ?_, fun b => ?_⟩
      · rw [lexemes_cons, List.append_assoc, List.append_right_inj, List.append_right_inj]
        exact hr
      · rw [List.cons_append, lexemes_cons, hscan, List.drop_append_of_le_length (scan_le c r), happend,
          List.append_assoc]
    by_cases hbreak : c = '\n' ∨ c = '\r' ∧ r.head? = some '\n'
    · have hbreak' (b : List Char) : c = '\n' ∨ c = '\r' ∧ (r ++ '\n' :: b).head? = some '\n' :=
        hbreak.imp_right fun h => ⟨h.1, by simp [h.2]⟩
      obtain ⟨-, heq⟩ | ⟨hend, hdrop⟩ := newlines_append_newline r
      · exact hcut fun b => by rw [scan_newline hbreak, scan_newline (hbreak' b), heq]
      · refine ⟨[], .inr ?_, fun b => ?_⟩
        · rw [lexemes_cons, scan_newline hbreak]
          obtain hend | hend := hend <;> rw [hend] <;> rfl
        · rw [List.cons_append, lexemes_cons, scan_newline (hbreak' b), hdrop]
          rfl
    · by_cases hreturn : c = '\r' ∧ r = []
      · obtain ⟨rfl, rfl⟩ := hreturn
        exact ⟨[], .inl rfl, fun b => lexemes_cons '\r' ('\n' :: b)⟩
      · refine hcut (scan_append_newline (fun hc => hbreak (.inl hc)) fun hc => ⟨fun hr => ?_, fun hr => ?_⟩)
        · exact hreturn ⟨hc, hr⟩
        · exact hbreak (.inr ⟨hc, hr⟩)
termination_by a.length
decreasing_by rw [List.length_drop, List.length_cons]; omega

theorem newline_not_mem_lexemes {l : List Char} (hfeed : '\n' ∉ l) (hreturn : '\r' ∉ l) : .newline ∉ lexemes l := by
  intro hmem
  obtain ⟨c, r, hc, hscan⟩ := exists_scan_of_mem hmem
  obtain rfl | rfl := eq_of_scan_newline hscan
  · exact hfeed hc
  · exact hreturn hc

/-- A line feed behind a line is a line break of its own. -/
theorem lexemes_line {l : List Char} (hfeed : '\n' ∉ l) (hreturn : '\r' ∉ l) (b : List Char) :
    lexemes (l ++ '\n' :: b) = lexemes l ++ .newline :: lexemes (b.drop (newlines b)) := by
  obtain ⟨ts, hts | hts, happend⟩ := lexemes_append_newline l
  · rw [happend, hts]
  · exact absurd (by simp [hts]) (newline_not_mem_lexemes hfeed hreturn)

end Deadwood
