import Deadwood.Proofs.Shortest
import Mathlib.Data.Nat.Factorization.Basic

/-! Numerals with a point or an exponent. Each is one number of the source, and a decimal is laid out as a numeral
of its own value. -/
namespace Deadwood
open Text

/-- The parts of such a numeral: digits before and behind the point, and an exponent with its sign. -/
structure Numeral where
  whole : List Char
  frac : List Char
  exponent : Option (Bool × List Char)
  whole_ne : whole ≠ []
  whole_digits : ∀ c ∈ whole, c.isDigit
  frac_digits : ∀ c ∈ frac, c.isDigit
  exponent_digits : ∀ e ∈ exponent, e.2 ≠ [] ∧ ∀ c ∈ e.2, c.isDigit
  marked : frac ≠ [] ∨ exponent.isSome

namespace Numeral

def power (n : Numeral) : List Char :=
  match n.exponent with
  | none => []
  | some (negative, ds) => 'e' :: (if negative then '-' else '+') :: ds

def behind (n : Numeral) : List Char := (if n.frac.isEmpty then [] else '.' :: n.frac) ++ n.power

def text (n : Numeral) : List Char := n.whole ++ n.behind

def scale (n : Numeral) : Int :=
  match n.exponent with
  | none => 0
  | some (negative, ds) => (if negative then -1 else 1) * Decimal.ofDigits ds

def value (n : Numeral) : Decimal := ⟨Decimal.ofDigits (n.whole ++ n.frac), n.scale - n.frac.length⟩

theorem takeWhile_digits {ds rest : List Char} (hds : ∀ c ∈ ds, c.isDigit) (hrest : rest.takeWhile isDecimal = []) :
    (ds ++ rest).takeWhile isDecimal = ds := by
  rw [List.takeWhile_append_of_pos fun c hc => isDecimal_of_isDigit (hds c hc), hrest, List.append_nil]

theorem dropWhile_digits {ds rest : List Char} (hds : ∀ c ∈ ds, c.isDigit) (hrest : rest.takeWhile isDecimal = []) :
    (ds ++ rest).dropWhile isDecimal = rest := by
  rw [← drop_length_takeWhile, takeWhile_digits hds hrest, List.drop_left]

variable (n : Numeral)

theorem takeWhile_power : n.power.takeWhile isDecimal = [] := by
  unfold power
  split <;> rfl

theorem takeWhile_behind : n.behind.takeWhile isDecimal = [] := by
  unfold behind
  split
  · exact n.takeWhile_power
  · rfl

theorem readExponent_power {negative : Bool} {ds : List Char} (h : n.exponent = some (negative, ds)) :
    Decimal.readExponent ((if negative then '-' else '+') :: ds) = some n.scale := by
  obtain ⟨hne, hdigits⟩ := n.exponent_digits _ h
  have hall : ds.all isDecimal := List.all_eq_true.2 fun c hc => isDecimal_of_isDigit (hdigits c hc)
  cases negative <;> simp [Decimal.readExponent, scale, h, hne, hall]

theorem behind_cases : n.frac = [] ∧ n.behind = n.power ∨ n.frac ≠ [] ∧ n.behind = '.' :: (n.frac ++ n.power) := by
  unfold behind
  split
  · next h => exact .inl ⟨by simpa using h, rfl⟩
  · next h => exact .inr ⟨by simpa using h, rfl⟩

theorem power_cases : n.exponent = none ∧ n.power = [] ∨
    ∃ negative ds, n.exponent = some (negative, ds) ∧ n.power = 'e' :: (if negative then '-' else '+') :: ds := by
  unfold power
  split
  · next h => exact .inl ⟨h, rfl⟩
  · next negative ds h => exact .inr ⟨negative, ds, h, rfl⟩

theorem read_text : Decimal.read n.text = some n.value := by
  have hwhole : n.whole.isEmpty = false := by simpa using n.whole_ne
  have htake := takeWhile_digits n.frac_digits n.takeWhile_power
  have hdrop := dropWhile_digits n.frac_digits n.takeWhile_power
  unfold Decimal.read
  simp only [text, takeWhile_digits n.whole_digits n.takeWhile_behind,
    dropWhile_digits n.whole_digits n.takeWhile_behind, hwhole, Bool.false_and, Bool.false_eq_true, if_false]
  obtain ⟨hexponent, hpower⟩ | ⟨negative, ds, hexponent, hpower⟩ := n.power_cases
  · have hscale : n.scale = 0 := by rw [scale, hexponent]
    obtain ⟨hfrac, hbehind⟩ | ⟨-, hbehind⟩ := n.behind_cases
    · simp [hbehind, hpower, hfrac, value, hscale]
    · simp only [hbehind, htake, hdrop]
      simp [hpower, value, hscale]
  · have hscale := n.readExponent_power hexponent
    obtain ⟨hfrac, hbehind⟩ | ⟨-, hbehind⟩ := n.behind_cases
    · simp [hbehind, hpower, hfrac, value, hscale]
    · simp only [hbehind, htake, hdrop]
      simp [hpower, value, hscale]

theorem mantissaLength_text : Lexeme.mantissaLength n.text = n.text.length - n.power.length := by
  unfold Lexeme.mantissaLength
  simp only [text, takeWhile_digits n.whole_digits n.takeWhile_behind, List.drop_left]
  obtain ⟨-, hbehind⟩ | ⟨-, hbehind⟩ := n.behind_cases
  · rw [hbehind]
    obtain ⟨-, hpower⟩ | ⟨negative, ds, -, hpower⟩ := n.power_cases <;> simp [hpower]
  · rw [hbehind]
    simp [takeWhile_digits n.frac_digits n.takeWhile_power]
    omega

theorem exponentLength_power : Lexeme.exponentLength n.power = n.power.length := by
  obtain ⟨-, hpower⟩ | ⟨negative, ds, hexponent, hpower⟩ := n.power_cases
  · rw [hpower]
    rfl
  · obtain ⟨hne, hdigits⟩ := n.exponent_digits _ hexponent
    have htake : ds.takeWhile isDecimal = ds := by
      simpa using takeWhile_digits hdigits (List.takeWhile_nil (p := isDecimal))
    rw [hpower]
    cases negative <;> simp [Lexeme.exponentLength, htake, hne]

theorem numberLength?_text : Lexeme.numberLength? n.text = some n.text.length := by
  have hle : n.power.length ≤ n.text.length := by
    simp only [text, behind, List.length_append]
    omega
  have hdrop : n.text.drop (n.text.length - n.power.length) = n.power := by
    have hsuffix : n.power <:+ n.text := (List.suffix_append _ _).trans (List.suffix_append _ _)
    exact (List.suffix_iff_eq_drop.1 hsuffix).symm
  have hwhole : (n.text.takeWhile isDecimal).length ≠ 0 := by
    rw [text, takeWhile_digits n.whole_digits n.takeWhile_behind]
    simpa using n.whole_ne
  rw [Lexeme.numberLength?_eq]
  simp only [mantissaLength_text, hdrop, exponentLength_power, Nat.sub_add_cancel hle, List.drop_length]
  rw [if_neg (by simp [hwhole])]
  rfl

/-- None of its characters is the suffix of an integer, and one of them is a point or an exponent's letter. -/
theorem number_text : Literal.number (String.ofList n.text) = .ok (.real (n.value.toDouble false), false) := by
  have hmarked : n.text.any (fun c => c == '.' || c == 'e' || c == 'E') := by
    refine List.any_eq_true.2 ?_
    obtain ⟨hfrac, hbehind⟩ | ⟨-, hbehind⟩ := n.behind_cases
    · obtain ⟨hexponent, -⟩ | ⟨negative, ds, -, hpower⟩ := n.power_cases
      · have := n.marked
        simp [hfrac, hexponent] at this
      · exact ⟨'e', by simp [text, hbehind, hpower], rfl⟩
    · exact ⟨'.', by simp [text, hbehind], rfl⟩
  have hsuffix : 'L' ∉ n.text := by
    have hdigits {ds : List Char} (hds : ∀ c ∈ ds, c.isDigit) : 'L' ∉ ds := fun h => absurd (hds _ h) (by decide)
    have hpower : 'L' ∉ n.power := by
      obtain ⟨-, hpower⟩ | ⟨negative, ds, hexponent, hpower⟩ := n.power_cases
      · simp [hpower]
      · have := hdigits (n.exponent_digits _ hexponent).2
        cases negative <;> simp [hpower, this]
    obtain ⟨-, hbehind⟩ | ⟨-, hbehind⟩ := n.behind_cases
    · simp [text, hbehind, hdigits n.whole_digits, hpower]
    · simp [text, hbehind, hdigits n.whole_digits, hdigits n.frac_digits, hpower]
  have hlast : (n.text.getLast? == some 'L') = false :=
    beq_eq_false_iff_ne.2 fun h => hsuffix (List.mem_of_getLast? h)
  simp [Literal.number, hlast, Literal.plain, hmarked, read_text, Except.map]

end Numeral

/-! How a decimal is laid out. -/

namespace Decimal

theorem ofDigits_append (xs ys : List Char) :
    ofDigits (xs ++ ys) = ys.foldl (fun n c => 10 * n + (digitValue? c).getD 0) (ofDigits xs) := List.foldl_append

theorem ofDigits_zeros_append (k : Nat) (ds : List Char) : ofDigits (Double.zeros k ++ ds) = ofDigits ds := by
  have hzeros : ofDigits (Double.zeros k) = 0 := by
    induction k with
    | zero => rfl
    | succ k ih => rw [Double.zeros, List.replicate_succ', ofDigits_append, ← Double.zeros, ih]; rfl
  rw [ofDigits_append, hzeros]
  rfl

theorem ofDigits_append_zeros (ds : List Char) (k : Nat) : ofDigits (ds ++ Double.zeros k) = ofDigits ds * 10 ^ k := by
  induction k with
  | zero => simp [Double.zeros]
  | succ k ih =>
    have hdigit : (digitValue? '0').getD 0 = 0 := rfl
    rw [Double.zeros, List.replicate_succ', ← List.append_assoc, ofDigits_append, ← Double.zeros, ih, List.foldl_cons,
      List.foldl_nil, hdigit, Nat.pow_succ]
    ring

end Decimal

theorem length_zeros (k : Nat) : (Double.zeros k).length = k := List.length_replicate

theorem isDigit_zeros (k : Nat) : ∀ c ∈ Double.zeros k, c.isDigit := by
  intro c hc
  rw [List.eq_of_mem_replicate hc]
  rfl

theorem getLast?_toDigits {m : Nat} (hm : ¬10 ∣ m) : (Nat.toDigits 10 m).getLast? ≠ some '0' := by
  have hdigit : ∀ k < 10, k ≠ 0 → Nat.digitChar k ≠ '0' := by decide
  have hmod : m % 10 ≠ 0 := fun h => hm (Nat.dvd_of_mod_eq_zero h)
  rw [Nat.toDigits_eq_if (by decide)]
  split
  · next hlt =>
    rw [Nat.mod_eq_of_lt hlt] at hmod
    simpa using hdigit m hlt hmod
  · simpa using hdigit (m % 10) (Nat.mod_lt _ (by decide)) hmod

/-- Digits without trailing zeros are those of the number without its powers of ten. -/
theorem significant_eq {n : Nat} (hn : n ≠ 0) :
    ∃ m t, n = m * 10 ^ t ∧ 0 < m ∧ Double.significant n = Nat.toDigits 10 m := by
  obtain ⟨t, m, hm, rfl⟩ := Nat.exists_eq_pow_mul_and_not_dvd hn 10 (by decide)
  have hpos : 0 < m := Nat.pos_of_ne_zero fun h => hm (h ▸ Nat.dvd_zero 10)
  refine ⟨m, t, Nat.mul_comm _ _, hpos, ?_⟩
  have hlast := getLast?_toDigits hm
  have hne : Nat.toDigits 10 m ≠ [] := Nat.toDigits_ne_nil
  have hstrip : ((Nat.toDigits 10 m ++ List.replicate t '0').reverse.dropWhile (· == '0')).reverse =
      Nat.toDigits 10 m := by
    have hreverse : ((Nat.toDigits 10 m).reverse.dropWhile (· == '0')) = (Nat.toDigits 10 m).reverse := by
      cases hr : (Nat.toDigits 10 m).reverse with
      | nil => rfl
      | cons c r =>
        have hc : c ≠ '0' := by
          rintro rfl
          rw [← List.head?_reverse, hr] at hlast
          exact hlast rfl
        rw [List.dropWhile_cons_of_neg (by simpa using hc)]
    rw [List.reverse_append, List.reverse_replicate, List.dropWhile_append_of_pos (by simp), hreverse,
      List.reverse_reverse]
  unfold Double.significant
  rw [Nat.mul_comm, Decimal.toDigits_mul_pow hpos, hstrip]
  split
  · next h => exact absurd h hne
  · rfl

namespace Numeral

variable {ds : List Char} (hne : ds ≠ []) (hdigits : ∀ c ∈ ds, c.isDigit)
include hne hdigits

theorem exists_below_one (k : Nat) : ∃ n : Numeral, n.text = '0' :: '.' :: Double.zeros k ++ ds ∧
    n.value = ⟨Decimal.ofDigits ds, -(k + ds.length : Nat)⟩ := by
  refine ⟨⟨['0'], Double.zeros k ++ ds, none, by simp, by simp, ?_, nofun, .inl (by simp [hne])⟩, ?_, ?_⟩
  · exact List.forall_mem_append.2 ⟨isDigit_zeros k, hdigits⟩
  · simp [text, behind, power, hne]
  · have hvalue : Decimal.ofDigits (['0'] ++ (Double.zeros k ++ ds)) = Decimal.ofDigits ds :=
      Decimal.ofDigits_zeros_append (k + 1) ds
    simp only [value, scale, hvalue, List.length_append, length_zeros, Int.zero_sub]

theorem exists_whole (k : Nat) : ∃ n : Numeral, n.text = ds ++ Double.zeros k ++ ['.', '0'] ∧
    ∀ s, n.value.toDouble s = (Decimal.mk (Decimal.ofDigits ds) k).toDouble s := by
  refine ⟨⟨ds ++ Double.zeros k, ['0'], none, by simp [hne], ?_, by simp, nofun, .inl (by simp)⟩, ?_, fun s => ?_⟩
  · exact List.forall_mem_append.2 ⟨hdigits, isDigit_zeros k⟩
  · simp [text, behind, power]
  · have hzeros : Double.zeros k ++ ['0'] = Double.zeros (k + 1) := List.replicate_succ'.symm
    simp only [value, scale, List.append_assoc, hzeros, Decimal.ofDigits_append_zeros, Decimal.toDouble_mul_pow]
    congr 2
    simp

theorem exists_split {k : Nat} (hpos : 0 < k) (hk : k < ds.length) : ∃ n : Numeral,
    n.text = ds.take k ++ '.' :: ds.drop k ∧ n.value = ⟨Decimal.ofDigits ds, -(ds.length - k : Nat)⟩ := by
  have hdrop : ds.drop k ≠ [] := fun h => Nat.not_le.2 hk (List.drop_eq_nil_iff.1 h)
  refine ⟨⟨ds.take k, ds.drop k, none, by simp [hne, Nat.ne_of_gt hpos], ?_, ?_, nofun, .inl hdrop⟩, ?_, ?_⟩
  · exact fun c hc => hdigits c (List.mem_of_mem_take hc)
  · exact fun c hc => hdigits c (List.mem_of_mem_drop hc)
  · have hdrop : (ds.drop k).isEmpty = false := by simpa using hdrop
    simp only [text, behind, power, hdrop, Bool.false_eq_true, if_false, List.append_nil]
  · simp [value, scale]

theorem exists_scientific (negative : Bool) {es : List Char} (hes : es ≠ []) (hexponent : ∀ c ∈ es, c.isDigit) :
    ∃ n : Numeral, n.text = ds.take 1 ++ (if ds.length == 1 then [] else '.' :: ds.drop 1) ++
        ['e', if negative then '-' else '+'] ++ es ∧
      n.value = ⟨Decimal.ofDigits ds, (if negative then -1 else 1) * Decimal.ofDigits es - (ds.length - 1 : Nat)⟩ := by
  obtain ⟨c, r, rfl⟩ := List.exists_cons_of_ne_nil hne
  refine ⟨⟨[c], r, some (negative, es), by simp, ?_, ?_, ?_, .inr rfl⟩, ?_, ?_⟩
  · exact fun d hd => hdigits d (by simp [List.eq_of_mem_singleton hd])
  · exact fun d hd => hdigits d (List.mem_cons_of_mem c hd)
  · rintro _ ⟨⟩
    exact ⟨hes, hexponent⟩
  · simp [text, behind, power]
  · simp [value, scale]

end Numeral

/-- A decimal is laid out as a numeral of the same value. -/
theorem render_eq (l : Double.Layout) {d : Decimal} (hd : d.digits ≠ 0) :
    ∃ n : Numeral, l.render d = n.text ∧ ∀ s, n.value.toDouble s = d.toDouble s := by
  obtain ⟨digits, e⟩ := d
  obtain ⟨m, t, rfl, hpos, hds⟩ := significant_eq hd
  have hof := Decimal.ofDigits_toDigits m
  have hdigits := isDigit_toDigits m
  have hlength : (Nat.toDigits 10 (m * 10 ^ t)).length = (Nat.toDigits 10 m).length + t := by
    rw [Decimal.toDigits_mul_pow hpos, List.length_append, List.length_replicate]
  have hne : Nat.toDigits 10 m ≠ [] := Nat.toDigits_ne_nil
  have hone : 0 < (Nat.toDigits 10 m).length := Nat.length_toDigits_pos
  have hzero : (m * 10 ^ t == 0) = false := by simpa using hd
  obtain ⟨top, htop⟩ : ∃ top : Int, e + ((Nat.toDigits 10 m).length + t : Nat) - 1 = top := ⟨_, rfl⟩
  simp only [Decimal.toDouble_mul_pow]
  unfold Double.Layout.render
  simp only [hds, hlength, hzero, htop, Bool.false_eq_true, if_false]
  generalize Nat.toDigits 10 m = ds at *
  -- the exponent of the last digit that is kept
  have hscale : e + t = top + 1 - ds.length := by omega
  rw [hscale]
  split
  · split
    · next hneg =>
      obtain ⟨n, htext, hvalue⟩ := Numeral.exists_below_one hne hdigits (-top - 1).toNat
      refine ⟨n, htext.symm, fun s => ?_⟩
      rw [hvalue, hof, show -(((-top - 1).toNat + ds.length : Nat) : Int) = top + 1 - ds.length by omega]
    · next hnonneg =>
      split
      · next hwide =>
        obtain ⟨n, htext, hvalue⟩ := Numeral.exists_whole hne hdigits (top.toNat + 1 - ds.length)
        refine ⟨n, htext.symm, fun s => ?_⟩
        rw [hvalue, hof, show ((top.toNat + 1 - ds.length : Nat) : Int) = top + 1 - ds.length by omega]
      · next hnarrow =>
        obtain ⟨n, htext, hvalue⟩ := Numeral.exists_split hne hdigits (Nat.succ_pos top.toNat) (Nat.not_le.1 hnarrow)
        refine ⟨n, htext.symm, fun s => ?_⟩
        rw [hvalue, hof, show -((ds.length - top.toNat.succ : Nat) : Int) = top + 1 - ds.length by omega]
  · have hexponent := List.forall_mem_append.2
      ⟨isDigit_zeros (l.exponentWidth - (Nat.toDigits 10 top.natAbs).length), isDigit_toDigits top.natAbs⟩
    obtain ⟨n, htext, hvalue⟩ :=
      Numeral.exists_scientific hne hdigits (decide (top < 0)) (by simp [Nat.toDigits_ne_nil]) hexponent
    refine ⟨n, ?_, fun s => ?_⟩
    · rw [htext]
      simp
    · rw [hvalue, hof, Decimal.ofDigits_zeros_append, Decimal.ofDigits_toDigits]
      congr 2
      simp only [decide_eq_true_eq]
      split <;> omega

end Deadwood
