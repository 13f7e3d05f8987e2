import Deadwood.Proofs.Printed

/-! Whole numbers as numerals. A whole number is written with its digits, and what is written is read back
as that number; with the suffix of an integer it passes through a double, which is exact. -/
namespace Deadwood
open Text

/-! Digits. -/

theorem Text.isDecimal_of_isDigit {c : Char} (h : c.isDigit) : isDecimal c := by
  simp [isDecimal, digitValue?, h]

theorem isDigit_toDigits (n : Nat) : ∀ c ∈ Nat.toDigits 10 n, c.isDigit := by
  intro c hc
  exact Nat.isDigit_of_mem_toDigits (by decide) (by decide) hc

theorem takeWhile_toDigits_append (n : Nat) (rest : List Char) :
    (Nat.toDigits 10 n ++ rest).takeWhile isDecimal = Nat.toDigits 10 n ++ rest.takeWhile isDecimal :=
  List.takeWhile_append_of_pos fun c hc => isDecimal_of_isDigit (isDigit_toDigits n c hc)

theorem takeWhile_toDigits (n : Nat) : (Nat.toDigits 10 n).takeWhile isDecimal = Nat.toDigits 10 n := by
  simpa using takeWhile_toDigits_append n []

namespace Decimal

theorem ofDigits_toDigits (n : Nat) : ofDigits (Nat.toDigits 10 n) = n := by
  have hfold (cs : List Char) (hcs : ∀ c ∈ cs, c.isDigit) (first : Nat) :
      cs.foldl (fun n c => 10 * n + (digitValue? c).getD 0) first = Nat.ofDigitChars 10 cs first := by
    induction cs generalizing first with
    | nil => rfl
    | cons c cs ih =>
      have hc : digitValue? c = some (c.toNat - 48) := if_pos (hcs c (by simp))
      rw [List.foldl_cons, hc, Nat.ofDigitChars_cons]
      exact ih (fun d hd => hcs d (by simp [hd])) _
  rw [ofDigits, hfold _ (isDigit_toDigits n), Nat.ofDigitChars_toDigits (by decide) (by decide)]

theorem read_toDigits (n : Nat) : read (Nat.toDigits 10 n) = some ⟨n, 0⟩ := by
  have hdrop : (Nat.toDigits 10 n).dropWhile isDecimal = [] := by
    rw [← drop_length_takeWhile, takeWhile_toDigits, List.drop_length]
  simp [read, takeWhile_toDigits, hdrop, ofDigits_toDigits]

end Decimal

/-! Exact doubles. -/

theorem roundHalfEven_mul (q : Nat) {den : Nat} (hden : 0 < den) : roundHalfEven (q * den) den = q := by
  simp [roundHalfEven, Nat.mul_div_cancel q hden, hden]

namespace Double

-- the exponent is a variable, so that nothing evaluates the power
theorem unit_eq_pow : ∃ e ≤ 2045, unit = Nat.pow 2 e := ⟨1074, by decide, by delta unit; rfl⟩

theorem unit_pos : 0 < unit := by
  obtain ⟨e, -, h⟩ := unit_eq_pow
  rw [h]
  exact Nat.two_pow_pos e

/-- A number of at most 53 bits, shifted, is not rounded. -/
theorem round_exact {a e : Nat} (ha : a < Nat.pow 2 53) (he : e ≤ 2045) (s : Bool) :
    ∃ sig shift, round s (a * Nat.pow 2 e) 1 = .finite s sig shift ∧
      sig * Nat.pow 2 shift = a * Nat.pow 2 e := by
  simp only [Nat.pow_eq] at ha ⊢
  generalize hnum : a * 2 ^ e = num
  obtain ⟨shift, hshift, hle, hlt⟩ : ∃ shift, (if num < 2 ^ 53 then 0 else Nat.log2 num - 52) = shift ∧
      shift ≤ e ∧ num < 2 ^ 53 * 2 ^ shift := by
    refine ⟨_, rfl, ?_⟩
    split
    · next h => exact ⟨Nat.zero_le e, by simpa using h⟩
    · next h =>
      have hpos : num ≠ 0 := by
        rintro rfl
        exact h (by decide)
      have hbits : num < 2 ^ (53 + e) := by
        rw [← hnum, Nat.pow_add]
        exact Nat.mul_lt_mul_of_pos_right ha (Nat.two_pow_pos e)
      have hlog := (Nat.log2_lt hpos).2 hbits
      have hlow : 53 ≤ Nat.log2 num := (Nat.le_log2 hpos).2 (Nat.not_lt.1 h)
      refine ⟨by omega, ?_⟩
      rw [← Nat.pow_add, show 53 + (Nat.log2 num - 52) = Nat.log2 num + 1 by omega]
      exact Nat.lt_log2_self
  -- the bits below the shift are zero
  obtain ⟨q, hq⟩ : 2 ^ shift ∣ num := hnum ▸ Nat.dvd_mul_left_of_dvd (Nat.pow_dvd_pow 2 hle) a
  have hsig : roundHalfEven num (2 ^ shift) = q := by
    rw [hq, Nat.mul_comm, roundHalfEven_mul q (Nat.two_pow_pos shift)]
  have hsmall : q < 2 ^ 53 := by
    rw [hq, Nat.mul_comm] at hlt
    exact Nat.lt_of_mul_lt_mul_right hlt
  have hcarry : (q == 2 ^ 53) = false := by simpa using Nat.ne_of_lt hsmall
  refine ⟨q, shift, ?_, by rw [hq, Nat.mul_comm]⟩
  simp only [round, Nat.pow_eq, Nat.div_one, Nat.one_mul, hshift, hsig, hcarry, Bool.false_eq_true, if_false]
  exact if_neg (by omega)

end Double

theorem Decimal.toDouble_whole {n : Nat} (hn : n < Nat.pow 2 53) (s : Bool) :
    ∃ sig shift, (Decimal.mk n 0).toDouble s = .finite s sig shift ∧
      sig * Nat.pow 2 shift = n * Double.unit := by
  by_cases hzero : n = 0
  · subst hzero
    exact ⟨0, 0, rfl, by simp⟩
  · have hlength : (Nat.toDigits 10 n).length ≤ 16 :=
      (Nat.length_toDigits_le_iff (by decide) (by decide)).2 (Nat.lt_trans hn (by decide))
    obtain ⟨e, he, hunit⟩ := Double.unit_eq_pow
    obtain ⟨sig, shift, hround, hmagnitude⟩ := Double.round_exact hn he s
    rw [← hunit] at hround hmagnitude
    refine ⟨sig, shift, ?_, hmagnitude⟩
    rw [← hround]
    simp only [toDouble, Int.add_zero]
    rw [if_neg (by simpa using hzero), if_neg (by omega), if_neg (by omega), if_pos (by decide)]
    simp [Double.ofRatio, Nat.pow_eq]

/-! Literals. -/

namespace Literal

theorem suffixed?_toDigits {n : Nat} (hn : n ≤ integerMax) : suffixed? (Nat.toDigits 10 n) = some (n : Int) := by
  have hbound : n < 2 ^ 53 := Nat.lt_of_le_of_lt hn (by decide)
  obtain ⟨sig, shift, hx, hmagnitude⟩ := Decimal.toDouble_whole hbound false
  have hmagnitude : (Double.finite false sig shift).magnitude = n * Double.unit := hmagnitude
  have hwhole : (Double.finite false sig shift).isWhole := by
    simp only [Double.isWhole, hmagnitude, Nat.mul_mod_left, beq_self_eq_true]
  have hexceeds : Number.exceeds (.real (.finite false sig shift)) integerMax = false := by
    simp only [Number.exceeds, hmagnitude, decide_eq_false_iff_not, Nat.not_lt]
    exact Nat.mul_le_mul_right _ hn
  have htruncate : (Double.finite false sig shift).truncate? = some (n : Int) := by
    simp only [Double.truncate?, hmagnitude, Nat.mul_div_cancel n Double.unit_pos, Double.negative]
    rfl
  simp only [suffixed?, Decimal.read_toDigits, Option.bind_eq_bind, Option.bind_some, hx, hwhole, hexceeds,
    htruncate]
  rfl

theorem plain_toDigits {n : Nat} (hn : (Nat.toDigits 10 n).length ≤ digitLimit) :
    plain (Nat.toDigits 10 n) = .ok (.int n) := by
  have hmarks : (Nat.toDigits 10 n).any (fun c => c == '.' || c == 'e' || c == 'E') = false := by
    refine List.any_eq_false.2 fun c hc => ?_
    have hdigit := isDigit_toDigits n c hc
    have hne (d : Char) (hd : d.isDigit = false) : c ≠ d := by
      rintro rfl
      rw [hdigit] at hd
      cases hd
    simp [hne '.' rfl, hne 'e' rfl, hne 'E' rfl]
  simp only [plain, hmarks, Bool.false_eq_true, if_false, Decimal.ofDigits_toDigits]
  exact if_neg (Nat.not_lt.2 hn)

end Literal

/-- The digits of a whole number, with the suffix of an integer if it is one. -/
def Literal.whole (n : Nat) (isInteger : Bool) : List Char :=
  Nat.toDigits 10 n ++ if isInteger then ['L'] else []

/-- How a whole number is written. -/
theorem Print.number_whole (n : Nat) (isInteger : Bool) :
    ∃ text, number (.int n) isInteger = .ok text ∧ text.toList = Literal.whole n isInteger := by
  have hdigits : (toString (n : Int)).toList = Nat.toDigits 10 n := Nat.toList_repr
  cases isInteger with
  | true => exact ⟨_, rfl, by rw [String.toList_append, hdigits]; rfl⟩
  | false => exact ⟨_, rfl, by rw [hdigits]; exact (List.append_nil _).symm⟩

/-- And how it is read. -/
theorem Literal.number_whole {n : Nat} {isInteger : Bool} {text : String} (htext : text.toList = whole n isInteger)
    (hdigits : (Nat.toDigits 10 n).length ≤ digitLimit) (hmax : isInteger → n ≤ integerMax) :
    number text = .ok (.int n, isInteger) := by
  cases isInteger with
  | true => simp [number, htext, whole, suffixed?_toDigits (hmax rfl)]
  | false =>
    have hlast : ((Nat.toDigits 10 n).getLast? == some 'L') = false := by
      refine beq_eq_false_iff_ne.2 fun hlast => ?_
      exact absurd (isDigit_toDigits n _ (List.mem_of_getLast? hlast)) (by decide)
    simp [number, htext, whole, hlast, plain_toDigits hdigits, Except.map]

theorem Lexeme.numberLength?_whole (n : Nat) (isInteger : Bool) :
    numberLength? (Literal.whole n isInteger) = some (Literal.whole n isInteger).length := by
  cases isInteger with
  | true =>
    have hsuffix : ['L'].takeWhile isDecimal = [] := rfl
    simp [numberLength?, Literal.whole, takeWhile_toDigits_append, hsuffix, exponentLength]
  | false => simp [numberLength?, Literal.whole, takeWhile_toDigits, exponentLength]

theorem Literal.whole_eq_cons (n : Nat) (isInteger : Bool) : ∃ c r, whole n isInteger = c :: r ∧ c.isDigit := by
  cases hdigits : Nat.toDigits 10 n with
  | nil => exact absurd (congrArg List.length hdigits) (Nat.pos_iff_ne_zero.1 Nat.length_toDigits_pos)
  | cons c r =>
    have hc : c.isDigit := isDigit_toDigits n c (by simp [hdigits])
    exact ⟨c, _, by rw [whole, hdigits, List.cons_append], hc⟩

/-- Digits that begin a number are cut off as one number with all of it. -/
theorem Lexeme.isNumberText_of_isDigit {c : Char} {r : List Char} {text : String} (htext : text.toList = c :: r)
    (hc : c.isDigit) (hlength : numberLength? (c :: r) = some (c :: r).length) : isNumberText text := by
  have hnumber : scanNumber c r = some (.number text, r.length) := by
    rw [scanNumber, hlength, Option.map_some, List.take_length, ← htext, String.ofList_toList]
    simp [htext]
  refine isCutAs_iff.2 ⟨c, r, htext, ?_⟩
  simp [scanWordOrNumber, not_isAlpha_of_isDigit hc, hnumber]

theorem Lexeme.isNumberText_whole {n : Nat} {isInteger : Bool} {text : String}
    (htext : text.toList = Literal.whole n isInteger) : isNumberText text := by
  have hlength := numberLength?_whole n isInteger
  obtain ⟨c, r, hcons, hc⟩ := Literal.whole_eq_cons n isInteger
  rw [hcons] at hlength htext
  exact isNumberText_of_isDigit htext hc hlength

/-- Whole numbers are spelled, as long as they have no more digits than can be read, and those with the suffix
of an integer up to the largest integer. -/
theorem Number.isSpelled_whole {n : Nat} {isInteger : Bool} (hdigits : (Nat.toDigits 10 n).length ≤ digitLimit)
    (hmax : isInteger → n ≤ integerMax) : (Number.int n).isSpelled isInteger := by
  obtain ⟨text, hprint, htext⟩ := Print.number_whole n isInteger
  have hnegative : (Number.int n).isNegative = false := by simp [isNegative]
  simp [isSpelled, hnegative, hprint, Except.toOption, Lexeme.isNumberText_whole htext,
    Literal.number_whole htext hdigits hmax]

end Deadwood
