import Deadwood.Proofs.Rounding

/-! The fewest digits that read back. A decimal is read as the double nearest to its value, whichever power of
ten is split off, and of the decimals with seventeen digits the nearest to a double is read back as it. -/
namespace Deadwood
open Text

-- nothing below depends on the value of the unit
attribute [local irreducible] Double.unit

/-! Decimals as quotients. -/

namespace Decimal

/-- The double nearest to `n · 10^a / 10^b`. -/
def nearest (s : Bool) (n a b : Nat) : Double := .round s (n * 10 ^ a * Double.unit) (10 ^ b)

theorem nearest_scale (s : Bool) (n : Nat) {a b a' b' : Nat} (h : a + b' = a' + b) :
    nearest s n a b = nearest s n a' b' := by
  have hpos (k : Nat) : 0 < 10 ^ k := Nat.pow_pos (by decide)
  unfold nearest
  rw [← Double.round_scale s _ (hpos b) (hpos b'), ← Double.round_scale s _ (hpos b') (hpos b), Nat.mul_comm (10 ^ b')]
  congr 1
  calc n * 10 ^ a * Double.unit * 10 ^ b'
    _ = n * 10 ^ (a + b') * Double.unit := by ring
    _ = n * 10 ^ (a' + b) * Double.unit := by rw [h]
    _ = n * 10 ^ a' * Double.unit * 10 ^ b := by ring

/-- The exponent of the digit before the first. -/
def size (d : Decimal) : Int := (Nat.toDigits 10 d.digits).length + d.exponent

theorem toDouble_eq (s : Bool) (d : Decimal) :
    d.toDouble s =
      if d.digits = 0 then .zero s
      else if 310 < d.size then .infinite s
      else if d.size < -330 then .zero s
      else nearest s d.digits d.exponent.toNat (-d.exponent).toNat := by
  have hwhole (he : 0 ≤ d.exponent) : (-d.exponent).toNat = 0 := by omega
  have hfraction (he : ¬0 ≤ d.exponent) : d.exponent.toNat = 0 := by omega
  unfold toDouble size nearest Double.ofRatio
  simp only [Nat.pow_eq, beq_iff_eq]
  by_cases he : 0 ≤ d.exponent
  · simp only [if_pos he, hwhole he, Nat.pow_zero]
  · simp only [if_neg he, hfraction he, Nat.pow_zero, Nat.mul_one]

theorem neg_toDouble (s : Bool) (d : Decimal) : (d.toDouble s).neg = d.toDouble (!s) := by
  rw [toDouble_eq, toDouble_eq]
  split
  · rfl
  split
  · rfl
  split
  · rfl
  · exact Double.neg_round _ _ _

theorem negative_toDouble (s : Bool) (d : Decimal) : (d.toDouble s).negative = s := by
  rw [toDouble_eq]
  split
  · rfl
  split
  · rfl
  split
  · rfl
  · exact Double.negative_round _ _ _

theorem canonical_toDouble {s t : Bool} {d : Decimal} {sig shift : Nat} (h : d.toDouble s = .finite t sig shift) :
    Double.Canonical sig shift := by
  have hzero (h : Double.zero s = .finite t sig shift) : Double.Canonical sig shift := by
    cases h
    exact ⟨by decide, by decide, .inl rfl⟩
  rw [toDouble_eq] at h
  split at h
  · exact hzero h
  split at h
  · cases h
  split at h
  · exact hzero h
  · exact Double.canonical_of_round (Nat.pow_pos (by decide)) h

theorem toDigits_mul_pow {n : Nat} (hn : 0 < n) (k : Nat) :
    Nat.toDigits 10 (n * 10 ^ k) = Nat.toDigits 10 n ++ List.replicate k '0' := by
  induction k with
  | zero => simp
  | succ k ih =>
    have hpos : 0 < n * 10 ^ k := Nat.mul_pos hn (Nat.pow_pos (by decide))
    have hstep := Nat.toDigits_append_toDigits (by decide) hpos (show 0 < 10 by decide)
    rw [ih, Nat.toDigits_zero, Nat.add_zero] at hstep
    rw [Nat.pow_succ, ← Nat.mul_assoc, Nat.mul_comm _ 10, ← hstep, List.replicate_succ', List.append_assoc]

/-- A power of ten may be part of the digits or of the exponent. -/
theorem toDouble_mul_pow (s : Bool) (n k : Nat) (e : Int) :
    (Decimal.mk (n * 10 ^ k) e).toDouble s = (Decimal.mk n (e + k)).toDouble s := by
  obtain rfl | hn := Nat.eq_zero_or_pos n
  · rw [Nat.zero_mul, toDouble_eq, toDouble_eq, if_pos rfl, if_pos rfl]
  · have hne : n * 10 ^ k ≠ 0 := Nat.ne_of_gt (Nat.mul_pos hn (Nat.pow_pos (by decide)))
    have hsize : (Decimal.mk (n * 10 ^ k) e).size = (Decimal.mk n (e + k)).size := by
      simp only [size, toDigits_mul_pow hn, List.length_append, List.length_replicate]
      omega
    have hnearest : nearest s (n * 10 ^ k) e.toNat (-e).toNat = nearest s n (e + k).toNat (-(e + k)).toNat := by
      have hdigits : nearest s (n * 10 ^ k) e.toNat (-e).toNat = nearest s n (k + e.toNat) (-e).toNat := by
        rw [nearest, nearest, Nat.pow_add, ← Nat.mul_assoc n]
      rw [hdigits]
      exact nearest_scale s n (by omega)
    rw [toDouble_eq, toDouble_eq, if_neg hne, if_neg (Nat.ne_of_gt hn), hsize, hnearest]

end Decimal

/-! The decimal exponent. Its first guess comes from the binary one, and is at most one too large. -/

theorem pow_le_pow_of_ratio {a b x y : Nat} (h : a ^ x ≤ b ^ y) (hx : 0 < x) (hb : 0 < b) {k m : Nat}
    (hk : y * k ≤ x * m) : a ^ k ≤ b ^ m := by
  refine (Nat.pow_le_pow_iff_left (Nat.ne_of_gt hx)).1 ?_
  calc (a ^ k) ^ x
    _ = (a ^ x) ^ k := by rw [← Nat.pow_mul, Nat.mul_comm, Nat.pow_mul]
    _ ≤ (b ^ y) ^ k := Nat.pow_le_pow_left h k
    _ = b ^ (y * k) := by rw [← Nat.pow_mul]
    _ ≤ b ^ (x * m) := Nat.pow_le_pow_right hb hk
    _ = (b ^ m) ^ x := by rw [Nat.mul_comm, Nat.pow_mul]

namespace Double

/-- A quotient is at least the power of ten with this exponent. -/
def AtLeast (num den : Nat) (k : Int) : Prop := den * 10 ^ k.toNat ≤ num * 10 ^ (-k).toNat

theorem atLeast_of_log2 {num e : Nat} {k : Int} (hnum : num ≠ 0)
    (hk : 100000 * k + 100000 ≤ ((Nat.log2 num : Int) - e) * 30103) (he : e ≤ 1074) (hbits : Nat.log2 num ≤ e + 1023) :
    AtLeast num (2 ^ e) k := by
  have hlog : 2 ^ Nat.log2 num ≤ num := Nat.log2_self_le hnum
  generalize Nat.log2 num = l at hk hbits hlog
  unfold AtLeast
  by_cases hl : e ≤ l
  · have hpow : 10 ^ k.toNat ≤ 2 ^ (l - e) :=
      pow_le_pow_of_ratio (show 10 ^ 59 ≤ 2 ^ 196 by decide) (by decide) (by decide) (by omega)
    calc 2 ^ e * 10 ^ k.toNat
      _ ≤ 2 ^ e * 2 ^ (l - e) := Nat.mul_le_mul_left _ hpow
      _ = 2 ^ l := by rw [← Nat.pow_add, Nat.add_sub_of_le hl]
      _ ≤ num := hlog
      _ ≤ num * 10 ^ (-k).toNat := Nat.le_mul_of_pos_right _ (Nat.pow_pos (by decide))
  · have hpow : 2 ^ (e - l) ≤ 10 ^ (-k).toNat :=
      pow_le_pow_of_ratio (show 2 ^ 93 ≤ 10 ^ 28 by decide) (by decide) (by decide) (by omega)
    calc 2 ^ e * 10 ^ k.toNat
      _ = 2 ^ e := by rw [Int.toNat_of_nonpos (by omega), Nat.pow_zero, Nat.mul_one]
      _ = 2 ^ l * 2 ^ (e - l) := by rw [← Nat.pow_add, Nat.add_sub_of_le (by omega)]
      _ ≤ num * 10 ^ (-k).toNat := Nat.mul_le_mul hlog hpow

theorem decimalExponent_atLeast {num e : Nat} (hnum : num ≠ 0) (he : e ≤ 1074) (hbits : Nat.log2 num ≤ e + 1023) :
    AtLeast num (2 ^ e) (decimalExponent num (2 ^ e)) ∧ -331 ≤ decimalExponent num (2 ^ e) := by
  have htest (k : Int) : (if 0 ≤ k then decide (2 ^ e * Nat.pow 10 k.toNat ≤ num)
      else decide (2 ^ e ≤ num * Nat.pow 10 (-k).toNat)) = true ↔ AtLeast num (2 ^ e) k := by
    unfold AtLeast
    split
    · rw [decide_eq_true_eq, show (-k).toNat = 0 by omega, Nat.pow_zero, Nat.mul_one, Nat.pow_eq]
    · rw [decide_eq_true_eq, show k.toNat = 0 by omega, Nat.pow_zero, Nat.mul_one, Nat.pow_eq]
  unfold decimalExponent
  dsimp only
  rw [Nat.log2_two_pow]
  generalize hguess : Int.fdiv (((Nat.log2 num : Int) - e) * 30103) 100000 = guess
  rw [Int.fdiv_eq_ediv_of_nonneg _ (by decide)] at hguess
  by_cases hle : AtLeast num (2 ^ e) guess
  · rw [if_neg (by rw [(htest guess).2 hle]; exact nofun)]
    by_cases hmore : AtLeast num (2 ^ e) (guess + 1)
    · rw [if_pos ((htest _).2 hmore)]
      exact ⟨hmore, by omega⟩
    · rw [if_neg (mt (htest _).1 hmore)]
      exact ⟨hle, by omega⟩
  · rw [if_pos (by rw [Bool.eq_false_iff.2 (mt (htest guess).1 hle)]; rfl)]
    exact ⟨atLeast_of_log2 hnum (by omega) he hbits, by omega⟩

/-! Seventeen digits. -/

theorem toDouble_digitsOf? {x : Double} {top : Int} {count : Nat} {d : Decimal} (h : digitsOf? x top count = some d) :
    d.toDouble x.negative = x := by
  unfold digitsOf? at h
  dsimp only at h
  obtain ⟨hnear, heq⟩ | ⟨-, h⟩ := ite_eq_iff.1 h
  · rw [← Option.some.inj heq]
    exact beq_iff_eq.1 hnear
  · obtain ⟨hfar, heq⟩ | ⟨-, h⟩ := ite_eq_iff.1 h
    · rw [← Option.some.inj heq]
      exact beq_iff_eq.1 hfar
    · cases h

theorem toDouble_shortestFrom {x : Double} {top : Int} {fuel count : Nat} (hfuel : 0 < fuel)
    (h : (digitsOf? x top (count + fuel - 1)).isSome) : (shortestFrom x top fuel count).toDouble x.negative = x := by
  induction fuel generalizing count with
  | zero => cases hfuel
  | succ fuel ih =>
    rw [shortestFrom]
    split
    · next hd => exact toDouble_digitsOf? hd
    · next hnone =>
      cases fuel with
      | zero => simp [hnone] at h
      | succ fuel =>
        refine ih (Nat.succ_pos fuel) ?_
        rwa [show count + 1 + (fuel + 1) - 1 = count + (fuel + 1 + 1) - 1 by omega]

theorem roundHalfEven_close (num : Nat) {den : Nat} (hden : 0 < den) :
    2 * num ≤ 2 * (roundHalfEven num den * den) + den ∧ 2 * (roundHalfEven num den * den) ≤ 2 * num + den := by
  have hdiv := Nat.div_add_mod num den
  rw [Nat.mul_comm] at hdiv
  have hmod := Nat.mod_lt num hden
  unfold roundHalfEven
  dsimp only
  split
  · next h =>
    simp at h
    omega
  · next h =>
    simp at h
    rw [Nat.add_mul]
    omega

theorem unit_eq : ∃ e, e = 1074 ∧ unit = Nat.pow 2 e := ⟨1074, rfl, by delta unit; rfl⟩

theorem Canonical.log2_lt {sig shift : Nat} (h : Canonical sig shift) (hsig : sig ≠ 0) :
    Nat.log2 (sig * 2 ^ shift) < 53 + shift := by
  refine (Nat.log2_lt (Nat.mul_ne_zero hsig (Nat.ne_of_gt (Nat.two_pow_pos shift)))).2 ?_
  rw [Nat.pow_add]
  exact Nat.mul_lt_mul_of_pos_right h.sig_lt (Nat.two_pow_pos shift)

/-- Among the numbers of a grid that is fine enough for a double, the nearest one reads back. -/
theorem nearest_roundHalfEven {s : Bool} {sig shift a b : Nat} (h : Canonical sig shift)
    (hfine : 10 ^ 16 * (unit * 10 ^ a) ≤ sig * 2 ^ shift * 10 ^ b) :
    Decimal.nearest s (roundHalfEven (sig * 2 ^ shift * 10 ^ b) (unit * 10 ^ a)) a b = .finite s sig shift := by
  have hden : 0 < unit * 10 ^ a := Nat.mul_pos unit_pos (Nat.pow_pos (by decide))
  have hclose := roundHalfEven_close (sig * 2 ^ shift * 10 ^ b) hden
  have hnum (n : Nat) : n * 10 ^ a * unit = n * (unit * 10 ^ a) := by ring
  unfold Decimal.nearest
  rw [hnum]
  generalize unit * 10 ^ a = den at hfine hden hclose
  generalize roundHalfEven (sig * 2 ^ shift * 10 ^ b) den * den = near at hclose
  exact round_near (Nat.pow_pos (by decide)) h (by omega) (by omega)

theorem AtLeast.scale {num den : Nat} {k : Int} (h : AtLeast num den k) (count : Nat) :
    10 ^ count * (den * 10 ^ (k - count).toNat) ≤ num * 10 ^ (-(k - count)).toNat := by
  have hpos : 0 < 10 ^ (-k).toNat := Nat.pow_pos (by decide)
  have hexponents : count + (k - count).toNat + (-k).toNat = k.toNat + (-(k - count)).toNat := by omega
  refine Nat.le_of_mul_le_mul_right ?_ hpos
  calc 10 ^ count * (den * 10 ^ (k - count).toNat) * 10 ^ (-k).toNat
    _ = den * 10 ^ (count + (k - count).toNat + (-k).toNat) := by ring
    _ = den * 10 ^ k.toNat * 10 ^ (-(k - count)).toNat := by rw [hexponents]; ring
    _ ≤ num * 10 ^ (-k).toNat * 10 ^ (-(k - count)).toNat := Nat.mul_le_mul_right _ h
    _ = num * 10 ^ (-(k - count)).toNat * 10 ^ (-k).toNat := by ring

-- large exponents are variables, so that nothing evaluates the powers
theorem Canonical.le_unit {sig shift r : Nat} (h : Canonical sig shift) (hr : r = 1024) :
    sig * 2 ^ shift ≤ 2 ^ r * unit := by
  obtain ⟨e, he, hunit⟩ := unit_eq
  have hsig := h.sig_lt
  have hshift := h.shift_le
  calc sig * 2 ^ shift
    _ ≤ 2 ^ 53 * 2 ^ shift := Nat.mul_le_mul_right _ (by omega)
    _ = 2 ^ (53 + shift) := (Nat.pow_add 2 53 shift).symm
    _ ≤ 2 ^ (r + e) := Nat.pow_le_pow_right (by decide) (by omega)
    _ = 2 ^ r * unit := by rw [Nat.pow_add, hunit, Nat.pow_eq]

/-- The digits found for a double do not leave the range that is read. -/
theorem size_bounds {sig shift n : Nat} {scale : Int} (h : Canonical sig shift) (hscale : -347 ≤ scale) (hn : 10 ^ 16 ≤ n)
    (hle : n * (unit * 10 ^ scale.toNat) ≤ 2 * (sig * 2 ^ shift * 10 ^ (-scale).toNat)) :
    -330 ≤ (Decimal.mk n scale).size ∧ (Decimal.mk n scale).size ≤ 310 := by
  obtain ⟨r, hr⟩ : ∃ r, r = 1024 := ⟨_, rfl⟩
  obtain ⟨t, ht⟩ : ∃ t, t = 310 := ⟨_, rfl⟩
  have hlow : ¬(Nat.toDigits 10 n).length ≤ 16 := by
    rw [Nat.length_toDigits_le_iff (by decide) (by decide)]
    omega
  have hbig : 2 * 2 ^ r < 10 ^ t := by
    have hpow : 2 ^ (r + 1) ≤ 10 ^ (t - 1) :=
      pow_le_pow_of_ratio (show 2 ^ 93 ≤ 10 ^ 28 by decide) (by decide) (by decide) (by omega)
    rw [Nat.pow_succ'] at hpow
    exact Nat.lt_of_le_of_lt hpow (Nat.pow_lt_pow_right (by decide) (by omega))
  have hlt : n * 10 ^ scale.toNat < 10 ^ (t + (-scale).toNat) := by
    refine Nat.lt_of_mul_lt_mul_right (a := unit) ?_
    calc n * 10 ^ scale.toNat * unit
      _ = n * (unit * 10 ^ scale.toNat) := by ring
      _ ≤ 2 * (sig * 2 ^ shift * 10 ^ (-scale).toNat) := hle
      _ ≤ 2 * (2 ^ r * unit * 10 ^ (-scale).toNat) := Nat.mul_le_mul_left 2 (Nat.mul_le_mul_right _ (h.le_unit hr))
      _ = 2 * 2 ^ r * (10 ^ (-scale).toNat * unit) := by ring
      _ < 10 ^ t * (10 ^ (-scale).toNat * unit) :=
        Nat.mul_lt_mul_of_pos_right hbig (Nat.mul_pos (Nat.pow_pos (by decide)) unit_pos)
      _ = 10 ^ (t + (-scale).toNat) * unit := by rw [Nat.pow_add]; ring
  have hscale' : scale < t := by
    by_contra hge
    have hpow : 10 ^ (t + (-scale).toNat) ≤ 10 ^ scale.toNat := Nat.pow_le_pow_right (by decide) (by omega)
    have hmul : 1 * 10 ^ scale.toNat ≤ n * 10 ^ scale.toNat := Nat.mul_le_mul_right _ (by omega)
    omega
  have hhigh : (Nat.toDigits 10 n).length ≤ (t - scale).toNat := by
    refine (Nat.length_toDigits_le_iff (by decide) (by omega)).2 ?_
    refine Nat.lt_of_mul_lt_mul_right (a := 10 ^ scale.toNat) ?_
    rw [← Nat.pow_add, show (t - scale).toNat + scale.toNat = t + (-scale).toNat by omega]
    exact hlt
  unfold Decimal.size
  dsimp only
  omega

theorem isSome_digitsOf?_seventeen {s : Bool} {sig shift : Nat} (h : Canonical sig shift) (hsig : sig ≠ 0) :
    (digitsOf? (.finite s sig shift) (decimalExponent (sig * 2 ^ shift) unit) 17).isSome := by
  obtain ⟨hatLeast, htop⟩ : AtLeast (sig * 2 ^ shift) unit (decimalExponent (sig * 2 ^ shift) unit) ∧
      -331 ≤ decimalExponent (sig * 2 ^ shift) unit := by
    obtain ⟨e, he, hunit⟩ := unit_eq
    have hlog := h.log2_lt hsig
    have hshift := h.shift_le
    rw [hunit, Nat.pow_eq]
    exact decimalExponent_atLeast (Nat.mul_ne_zero hsig (Nat.ne_of_gt (Nat.two_pow_pos shift))) (by omega) (by omega)
  generalize decimalExponent (sig * 2 ^ shift) unit = top at hatLeast htop
  have hfine := hatLeast.scale 16
  obtain ⟨scale, hscale⟩ : ∃ scale : Int, top + 1 - (17 : Nat) = scale := ⟨_, rfl⟩
  obtain rfl : top = scale + 16 := by omega
  rw [show scale + 16 - (16 : Nat) = scale by omega] at hfine
  have hden : 0 < unit * 10 ^ scale.toNat := Nat.mul_pos unit_pos (Nat.pow_pos (by decide))
  -- the numerator and the denominator that are tried, for either sign of the scale
  have hnum : (if 0 ≤ scale then (Double.finite s sig shift).magnitude
      else (Double.finite s sig shift).magnitude * Nat.pow 10 (-scale).toNat) = sig * 2 ^ shift * 10 ^ (-scale).toNat := by
    split
    · rw [show (-scale).toNat = 0 by omega]
      simp [magnitude]
    · rfl
  have hdenominator : (if 0 ≤ scale then unit * Nat.pow 10 scale.toNat else unit) = unit * 10 ^ scale.toNat := by
    split
    · rfl
    · rw [show scale.toNat = 0 by omega, Nat.pow_zero, Nat.mul_one]
  have hclose := roundHalfEven_close (sig * 2 ^ shift * 10 ^ (-scale).toNat) hden
  have hreads := nearest_roundHalfEven (s := s) h hfine
  have hlow : 10 ^ 16 ≤ roundHalfEven (sig * 2 ^ shift * 10 ^ (-scale).toNat) (unit * 10 ^ scale.toNat) :=
    Nat.le_trans ((Nat.le_div_iff_mul_le hden).2 hfine) (roundHalfEven_bounds _ _).1
  obtain ⟨hsmall, hlarge⟩ := size_bounds h (show -347 ≤ scale by omega) hlow (by omega)
  have hdouble := Decimal.toDouble_eq s
    ⟨roundHalfEven (sig * 2 ^ shift * 10 ^ (-scale).toNat) (unit * 10 ^ scale.toNat), scale⟩
  rw [if_neg (by dsimp only; omega), if_neg (by omega), if_neg (by omega)] at hdouble
  have hback := hdouble.trans hreads
  unfold digitsOf?
  simp only [hscale, hnum, hdenominator, negative, hback, beq_self_eq_true, if_true, Option.isSome_some]

/-- The shortest decimal of a double reads back. -/
theorem toDouble_shortest {s : Bool} {sig shift : Nat} (h : Canonical sig shift) (hsig : sig ≠ 0) :
    (shortest (.finite s sig shift)).toDouble s = .finite s sig shift := by
  have hzero : isZero (.finite s sig shift) = false := by simpa [isZero] using hsig
  rw [shortest, hzero]
  exact toDouble_shortestFrom (x := .finite s sig shift) (by decide) (isSome_digitsOf?_seventeen h hsig)

end Double
end Deadwood
