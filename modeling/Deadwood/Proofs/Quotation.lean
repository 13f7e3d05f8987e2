import Deadwood.Proofs.Lexing
import Deadwood.Source.Literal
import Mathlib.Algebra.Group.Nat.Defs

/-! Strings in quotes. What is written between double quotes is one string literal, wherever it stands,
and has the value that it was written from. -/
namespace Deadwood
open Text

/-! String literals as a language. -/

namespace Lexeme

/-- What may stand between two quotes. -/
inductive Inside (quote : Char) : List Char → Prop where
  | nil : Inside quote []
  | plain (hquote : c ≠ quote) (hslash : c ≠ '\\') (hfeed : c ≠ '\n') (h : Inside quote r) : Inside quote (c :: r)
  | escaped (hfeed : c ≠ '\n') (h : Inside quote r) : Inside quote ('\\' :: c :: r)

def IsString (cs : List Char) : Prop :=
  ∃ quote inner, (quote = '"' ∨ quote = '\'') ∧ Inside quote inner ∧ cs = quote :: (inner ++ [quote])

theorem Inside.append_plain {quote : Char} {cs r : List Char} (hcs : ∀ c ∈ cs, c ≠ quote ∧ c ≠ '\\' ∧ c ≠ '\n')
    (h : Inside quote r) : Inside quote (cs ++ r) := by
  induction cs with
  | nil => exact h
  | cons c cs ih =>
    obtain ⟨⟨hquote, hslash, hfeed⟩, hcs⟩ := List.forall_mem_cons.1 hcs
    exact .plain hquote hslash hfeed (ih hcs)

theorem stringTail_cons {quote c : Char} (hquote : c ≠ quote) (hslash : c ≠ '\\') (hfeed : c ≠ '\n') (r : List Char) :
    stringTail quote (c :: r) = (stringTail quote r).map (· + 1) := by
  rw [stringTail.eq_3 quote c r (fun _ _ h => absurd h hslash)]
  simp [hquote, hslash, hfeed]

theorem Inside.stringTail {quote : Char} {inner : List Char} (hquote : quote = '"' ∨ quote = '\'')
    (h : Inside quote inner) (rest : List Char) : stringTail quote (inner ++ quote :: rest) = some (inner.length + 1) := by
  induction h with
  | nil => obtain rfl | rfl := hquote <;> simp [Lexeme.stringTail]
  | plain hq hslash hfeed _ ih => rw [List.cons_append, stringTail_cons hq hslash hfeed, ih]; rfl
  | escaped hfeed _ ih => simp [Lexeme.stringTail, hfeed, ih]

theorem inside_of_stringTail {quote : Char} {cs : List Char} (h : stringTail quote cs = some n) :
    ∃ inner rest, Inside quote inner ∧ cs = inner ++ quote :: rest ∧ n = inner.length + 1 := by
  fun_induction stringTail quote cs generalizing n with
  | case1 => cases h
  | case2 => cases h
  | case3 c r hc ih =>
    obtain ⟨m, hm, rfl⟩ := Option.map_eq_some_iff.1 h
    obtain ⟨inner, rest, hinner, rfl, rfl⟩ := ih hm
    exact ⟨_, rest, .escaped (by simpa using hc) hinner, rfl, rfl⟩
  | case4 c r _ hc =>
    cases h
    exact ⟨[], r, .nil, by rw [beq_iff_eq.1 hc]; rfl, rfl⟩
  | case5 => cases h
  | case6 c r _ hc hend ih =>
    obtain ⟨m, hm, rfl⟩ := Option.map_eq_some_iff.1 h
    obtain ⟨inner, rest, hinner, rfl, rfl⟩ := ih hm
    simp only [Bool.or_eq_true, beq_iff_eq, not_or] at hc hend
    exact ⟨_, rest, .plain hc hend.2 hend.1 hinner, rfl, rfl⟩

/-- A text begins with at most one string literal. -/
theorem IsString.eq_of_prefix {cs ds text : List Char} (hc : IsString cs) (hd : IsString ds) (hcs : cs <+: text)
    (hds : ds <+: text) : cs = ds := by
  obtain ⟨quote, inner, hquote, hinner, rfl⟩ := hc
  obtain ⟨quote', inner', -, hinner', rfl⟩ := hd
  obtain ⟨rest, rfl⟩ := hcs
  obtain ⟨rest', heq⟩ := hds
  simp only [List.cons_append, List.append_assoc, List.nil_append, List.cons.injEq] at heq
  obtain ⟨rfl, heq⟩ := heq
  have hlength := congrArg (Lexeme.stringTail quote') heq
  rw [hinner'.stringTail hquote, hinner.stringTail hquote, Option.some.injEq, Nat.add_right_cancel_iff] at hlength
  rw [(List.append_inj heq hlength).1]

/-- A string literal is cut as one lexeme. -/
theorem IsString.lexemes_append {cs : List Char} (h : IsString cs) (rest : List Char) :
    lexemes (cs ++ rest) = .string (String.ofList cs) :: lexemes rest := by
  obtain ⟨quote, inner, hquote, hinner, rfl⟩ := h
  have hsplit : inner ++ quote :: rest = (inner ++ [quote]) ++ rest := by simp
  have htail := hinner.stringTail hquote rest
  have hscan : scan quote (inner ++ quote :: rest) =
      (some (.string (String.ofList (quote :: (inner ++ [quote])))), inner.length + 1) := by
    have htake : (inner ++ quote :: rest).take (inner.length + 1) = inner ++ [quote] := by
      rw [hsplit, List.take_left' (by simp)]
    obtain rfl | rfl := hquote <;> simp [scan, isBlank, htail, htake]
  rw [List.cons_append, List.append_assoc, List.singleton_append, lexemes_cons, hscan, hsplit,
    List.drop_left' (by simp)]
  rfl

end Lexeme

/-! Hexadecimal escapes. -/

namespace Text

theorem hexValue?_hexDigit : ∀ {n : Nat}, n < 16 → hexValue? (hexDigit n) = some n := by decide

@[simp] theorem length_hex (width n : Nat) : (hex width n).length = width := by
  induction width generalizing n with
  | zero => rfl
  | succ width ih => simp [hex, ih]

theorem forall_mem_hex {P : Char → Prop} (h : ∀ d < 16, P (hexDigit d)) (width n : Nat) : ∀ c ∈ hex width n, P c := by
  induction width generalizing n with
  | zero => exact nofun
  | succ width ih =>
    rw [hex, List.forall_mem_append, List.forall_mem_singleton]
    exact ⟨ih _, h _ (Nat.mod_lt n (by decide))⟩

theorem hexNumber_hex {width n : Nat} (hn : n < 16 ^ width) : hexNumber (hex width n) = n := by
  induction width generalizing n with
  | zero => exact (Nat.lt_one_iff.1 hn).symm
  | succ width ih =>
    have hlead : n / 16 < 16 ^ width := Nat.div_lt_of_lt_mul (by rwa [← Nat.pow_succ'])
    have hlast := hexValue?_hexDigit (Nat.mod_lt n (by decide : 0 < 16))
    rw [hexNumber, hex, List.foldl_append, ← hexNumber, ih hlead, List.foldl_cons, List.foldl_nil, hlast,
      Option.getD_some, Nat.div_add_mod]

theorem hexEscape_hex {width n : Nat} (hwidth : n < 16 ^ width) (hn : n ≤ 0x10FFFF) (fault : EscapeFault) (pos : Nat)
    (r : List Char) : hexEscape fault width pos (hex width n ++ r) = .ok ([.ofNat n], width + 1) := by
  have hdigits : ((hex width n ++ r).take width).takeWhile (fun c => (hexValue? c).isSome) = hex width n := by
    rw [List.take_left' (length_hex width n), ← List.append_nil (hex width n),
      List.takeWhile_append_of_pos (forall_mem_hex (by decide) width n), List.takeWhile_nil]
  simp only [hexEscape, hdigits, length_hex, hexNumber_hex hwidth, Nat.lt_irrefl, if_false, Nat.not_lt.2 hn]

theorem Point.ofNat_toNat (c : Char) : Point.ofNat c.toNat = .char c := by
  have hvalid : ¬(0xD800 ≤ c.toNat ∧ c.toNat < 0xE000) := by
    have := c.valid
    simp only [UInt32.isValidChar, Nat.isValidChar, Char.toNat] at this ⊢
    omega
  rw [Point.ofNat, Surrogate.ofNat?, dif_neg hvalid, Char.ofNat_toNat]

theorem Surrogate.ofNat?_code (s : Surrogate) : Surrogate.ofNat? s.code = some s := dif_pos ⟨s.low, s.high⟩

theorem Point.ofNat_code (s : Surrogate) : Point.ofNat s.code = .lone s := by
  rw [Point.ofNat, s.ofNat?_code]

/-! Escapes. A character is written as itself or as a letter behind a backslash, and a surrogate in digits. -/

/-- The escaped characters with the letters that stand for them behind a backslash. -/
def escapeLetters : List (Char × Char) := [('\\', '\\'), ('"', '"'), ('\n', 'n'), ('\t', 't')]

@[simp] theorem encode_cons (p : Point) (ps : List Point) : encode (p :: ps) = p.escaped ++ encode ps := rfl

theorem escaped_cases (c : Char) :
    (∃ d, (c, d) ∈ escapeLetters ∧ escaped c = ['\\', d]) ∨
      escaped c = [c] ∧ c ≠ '\\' ∧ c ≠ '"' ∧ c ≠ '\n' ∧ c ≠ '\t' := by
  simp only [escaped, escapeLetters, beq_iff_eq]
  grind

theorem inside_encode (ps : List Point) : Lexeme.Inside '"' (encode ps) := by
  induction ps with
  | nil => exact .nil
  | cons p ps ih =>
    rw [encode_cons]
    cases p with
    | char c =>
      rw [Point.escaped]
      obtain ⟨d, hd, heq⟩ | ⟨heq, hslash, hquote, hfeed, -⟩ := escaped_cases c
      · rw [heq]
        exact .escaped (by rintro rfl; simp [escapeLetters] at hd) ih
      · rw [heq]
        exact .plain hquote hslash hfeed ih
    | lone s =>
      exact .escaped (by decide) (ih.append_plain (forall_mem_hex (by decide) 4 s.code))

theorem not_mem_encode {c : Char} (hc : c = '\n' ∨ c = '\t') (ps : List Point) : c ∉ encode ps := by
  induction ps with
  | nil => exact List.not_mem_nil
  | cons p ps ih =>
    rw [encode_cons, List.mem_append, not_or]
    refine ⟨?_, ih⟩
    cases p with
    | char d =>
      rw [Point.escaped]
      obtain ⟨e, he, heq⟩ | ⟨heq, -, -, hfeed, htab⟩ := escaped_cases d
      · rw [heq]
        obtain rfl | rfl := hc <;> grind [escapeLetters]
      · rw [heq]
        obtain rfl | rfl := hc <;> simp [hfeed.symm, htab.symm]
    | lone s =>
      have hdigit : ∀ d ∈ hex 4 s.code, d ≠ '\n' ∧ d ≠ '\t' := forall_mem_hex (by decide) 4 s.code
      obtain rfl | rfl := hc
      · simpa [Point.escaped] using fun h => (hdigit _ h).1 rfl
      · simpa [Point.escaped] using fun h => (hdigit _ h).2 rfl

/-! Decoding what was encoded, in front of any rest. -/

theorem decodeFrom_skip [CharNames] (xs r : List Char) (pos : Nat) :
    decodeFrom xs.length pos (xs ++ r) = decodeFrom 0 (pos + xs.length) r := by
  induction xs generalizing pos with
  | nil => rfl
  | cons x xs ih =>
    rw [List.length_cons, List.cons_append, decodeFrom, ih, Nat.add_right_comm, Nat.add_assoc]

theorem decodeFrom_escape [CharNames] (xs : List Char) {pos : Nat} {r : List Char} {out : List Point}
    (h : escape pos (xs ++ r) = .ok (out, xs.length)) :
    decodeFrom 0 pos ('\\' :: (xs ++ r)) = (decodeFrom 0 (pos + 1 + xs.length) r).map (out ++ ·) := by
  rw [decodeFrom, if_pos (beq_self_eq_true '\\'), h, ← decodeFrom_skip]
  rfl

theorem decodeFrom_plain [CharNames] {c : Char} (hc : c ≠ '\\') (pos : Nat) (r : List Char) :
    decodeFrom 0 pos (c :: r) = (decodeFrom 0 (pos + 1) r).map (.char c :: ·) := by
  rw [decodeFrom, if_neg (by simpa using hc)]
  rfl

theorem escape_letter [CharNames] {c d : Char} (h : (c, d) ∈ escapeLetters) (pos : Nat) (r : List Char) :
    escape pos (d :: r) = .ok ([.char c], 1) := by
  simp only [escapeLetters, List.mem_cons, Prod.mk.injEq, List.not_mem_nil, or_false] at h
  obtain ⟨rfl, rfl⟩ | ⟨rfl, rfl⟩ | ⟨rfl, rfl⟩ | ⟨rfl, rfl⟩ := h <;> rfl

theorem widen_letter {c d : Char} (h : (c, d) ∈ escapeLetters) : widen d = [d] := by
  simp only [escapeLetters, List.mem_cons, Prod.mk.injEq, List.not_mem_nil, or_false] at h
  obtain ⟨-, rfl⟩ | ⟨-, rfl⟩ | ⟨-, rfl⟩ | ⟨-, rfl⟩ := h <;> rfl

theorem escape_u [CharNames] (pos : Nat) (r : List Char) :
    escape pos ('u' :: r) = hexEscape .shortHex4 4 pos r := by
  simp [escape, isOctal]

theorem escape_U [CharNames] (pos : Nat) (r : List Char) :
    escape pos ('U' :: r) = hexEscape .shortHex8 8 pos r := by
  simp [escape, isOctal]

/-- Digits behind a letter that takes so many of them. -/
theorem decodeFrom_hex [CharNames] {letter : Char} {width n : Nat} {pos : Nat}
    (hletter : ∀ s, escape pos (letter :: (hex width n ++ s)) = .ok ([.ofNat n], width + 1)) (r : List Char) :
    decodeFrom 0 pos ('\\' :: letter :: hex width n ++ r) =
      (decodeFrom 0 (pos + 1 + (width + 1)) r).map (.ofNat n :: ·) := by
  have hread : escape pos (letter :: hex width n ++ r) = .ok ([.ofNat n], (letter :: hex width n).length) := by
    rw [List.cons_append, hletter, List.length_cons, length_hex]
  have hdecode := decodeFrom_escape _ hread
  rwa [List.length_cons, length_hex] at hdecode

theorem decodeFrom_widen [CharNames] {c : Char} (hc : c ≠ '\\') (pos : Nat) (r : List Char) :
    ∃ pos', decodeFrom 0 pos (widen c ++ r) = (decodeFrom 0 pos' r).map (.char c :: ·) := by
  have hmax : c.toNat ≤ 0x10FFFF := by
    have := c.valid
    simp only [UInt32.isValidChar, Nat.isValidChar, Char.toNat] at this ⊢
    omega
  rw [← Point.ofNat_toNat]
  unfold widen
  split
  · refine ⟨pos + 1, ?_⟩
    rw [Point.ofNat_toNat]
    exact decodeFrom_plain hc pos r
  split
  · next hwidth => exact ⟨_, decodeFrom_hex (fun s => by rw [escape_u, hexEscape_hex hwidth hmax]) r⟩
  · have hwidth : c.toNat < 16 ^ 8 := by omega
    exact ⟨_, decodeFrom_hex (fun s => by rw [escape_U, hexEscape_hex hwidth hmax]) r⟩

theorem widen_hex (width n : Nat) : (hex width n).flatMap widen = hex width n := by
  induction width generalizing n with
  | zero => rfl
  | succ width ih =>
    have hdigit : ∀ d < 16, widen (hexDigit d) = [hexDigit d] := by decide
    rw [hex, List.flatMap_append, ih, List.flatMap_singleton, hdigit _ (Nat.mod_lt n (by decide))]

theorem decodeFrom_encode [CharNames] (ps : List Point) (pos : Nat) :
    decodeFrom 0 pos ((encode ps).flatMap widen) = .ok ps := by
  induction ps generalizing pos with
  | nil => rfl
  | cons p ps ih =>
    rw [encode_cons, List.flatMap_append]
    cases p with
    | char c =>
      rw [Point.escaped]
      obtain ⟨d, hd, heq⟩ | ⟨heq, hslash, -⟩ := escaped_cases c
      · have hwiden : ['\\', d].flatMap widen = ['\\', d] := by
          simp only [List.flatMap_cons, List.flatMap_nil, widen_letter hd]
          rfl
        rw [heq, hwiden]
        refine (decodeFrom_escape [d] (escape_letter hd pos _)).trans ?_
        rw [ih]
        rfl
      · rw [heq, List.flatMap_singleton]
        obtain ⟨pos', hpos'⟩ := decodeFrom_widen hslash pos ((encode ps).flatMap widen)
        rw [hpos', ih]
        rfl
    | lone s =>
      have hwiden : (Point.lone s).escaped.flatMap widen = '\\' :: 'u' :: hex 4 s.code := by
        rw [Point.escaped, List.flatMap_cons, List.flatMap_cons, widen_hex]
        rfl
      have hwidth : s.code < 16 ^ 4 := Nat.lt_trans s.high (by decide)
      have hmax : s.code ≤ 0x10FFFF := Nat.le_of_lt (Nat.lt_trans s.high (by decide))
      rw [hwiden, decodeFrom_hex (fun r => by rw [escape_u, hexEscape_hex hwidth hmax]), ih, Point.ofNat_code]
      rfl

theorem toList_literal (ps : List Point) : (literal ps).toList = '"' :: (encode ps ++ ['"']) := by
  simp [literal]

theorem isString_literal (ps : List Point) : Lexeme.IsString (literal ps).toList :=
  ⟨'"', encode ps, .inl rfl, inside_encode ps, toList_literal ps⟩

end Text

theorem Literal.unquoted_literal (ps : List Point) : unquoted (literal ps) = encode ps := by
  simp [unquoted, toList_literal]

theorem Literal.string_literal [CharNames] (ps : List Point) : Literal.string (literal ps) = .ok ps := by
  rw [Literal.string, unquoted_literal, decode, decodeFrom_encode]
  rfl

/-- A string between quotes stands on one line without tabs, is read as one literal and no less, and has
the string as its value. -/
theorem quoted_reads_back [CharNames] (s : String) (rest : List Char) :
    '\n' ∉ (quoted s).toList ∧ '\t' ∉ (quoted s).toList ∧ Lexeme.IsString (quoted s).toList ∧
      (∀ cs, cs <+: (quoted s).toList ++ rest → Lexeme.IsString cs → cs = (quoted s).toList) ∧
      lexemes ((quoted s).toList ++ rest) = .string (quoted s) :: lexemes rest ∧
      Literal.string (quoted s) = .ok (points s) := by
  have hraw {c : Char} (hc : c = '\n' ∨ c = '\t') : c ∉ (quoted s).toList := by
    rw [quoted, toList_literal]
    have := not_mem_encode hc (points s)
    obtain rfl | rfl := hc <;> simpa
  have hstring := isString_literal (points s)
  refine ⟨hraw (.inl rfl), hraw (.inr rfl), hstring, fun cs hcs hcut => ?_, ?_, Literal.string_literal (points s)⟩
  · exact hcut.eq_of_prefix hstring hcs (List.prefix_append _ _)
  · rw [quoted, hstring.lexemes_append, String.ofList_toList]

end Deadwood
