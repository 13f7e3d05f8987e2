import Deadwood.Proofs.Numeral
import Mathlib.Tactic.Linarith
import Mathlib.Tactic.Ring

/-! Rounding to doubles. The nearest double of a quotient depends on its value alone, and a quotient that is
closer to a double than a part in `2^54` of it is rounded to that double. -/
namespace Deadwood

/-! The nearest whole number. -/

theorem roundHalfEven_bounds (num den : Nat) :
    num / den ≤ roundHalfEven num den ∧ roundHalfEven num den ≤ num / den + 1 := by
  unfold roundHalfEven
  dsimp only
  split <;> omega

theorem roundHalfEven_scale (num den : Nat) {c : Nat} (hc : 0 < c) :
    roundHalfEven (num * c) (den * c) = roundHalfEven num den := by
  have hlt : 2 * (num % den * c) < den * c ↔ 2 * (num % den) < den := by
    rw [← Nat.mul_assoc, Nat.mul_lt_mul_right hc]
  have heq : 2 * (num % den * c) = den * c ↔ 2 * (num % den) = den := by
    rw [← Nat.mul_assoc, Nat.mul_left_inj (Nat.ne_of_gt hc)]
  simp only [roundHalfEven, Nat.mul_div_mul_right _ _ hc, Nat.mul_mod_mul_right, Bool.or_eq_true, Bool.and_eq_true,
    decide_eq_true_eq, beq_iff_eq, hlt, heq]

theorem roundHalfEven_near {q num den : Nat} (hlow : 2 * (q * den) < 2 * num + den)
    (hhigh : 2 * num < 2 * (q * den) + den) : roundHalfEven num den = q := by
  have hden : 0 < den := by omega
  have hquotient {p r : Nat} (hnum : num = p * den + r) (hr : r < den) : num / den = p ∧ num % den = r := by
    rw [hnum, Nat.mul_comm p den]
    exact ⟨by rw [Nat.mul_add_div hden, Nat.div_eq_of_lt hr, Nat.add_zero], by rw [Nat.mul_add_mod, Nat.mod_eq_of_lt hr]⟩
  unfold roundHalfEven
  by_cases hle : q * den ≤ num
  · obtain ⟨hdiv, hmod⟩ := hquotient (p := q) (r := num - q * den) (by omega) (by omega)
    simp only [hdiv, hmod]
    rw [if_pos]
    simp
    omega
  · obtain _ | p := q
    · simp at hle
    · rw [Nat.add_mul, Nat.one_mul] at hlow hhigh hle
      obtain ⟨hdiv, hmod⟩ := hquotient (p := p) (r := num - p * den) (by omega) (by omega)
      simp only [hdiv, hmod]
      rw [if_neg]
      simp
      omega

namespace Double

/-! The shift of a quotient is determined by the 53 bits that are kept of it. -/

def Scales (num den shift : Nat) : Prop :=
  num < den * 2 ^ (shift + 53) ∧ (shift = 0 ∨ den * 2 ^ (shift + 52) ≤ num)

theorem Scales.unique {num den shift shift' : Nat} (h : Scales num den shift) (h' : Scales num den shift') :
    shift = shift' := by
  have hle {i j : Nat} (hi : Scales num den i) (hj : Scales num den j) : j ≤ i := by
    obtain rfl | hlow := hj.2
    · exact Nat.zero_le i
    · have hpow := Nat.lt_of_mul_lt_mul_left (Nat.lt_of_le_of_lt hlow hi.1)
      have := (Nat.pow_lt_pow_iff_right (by decide)).1 hpow
      omega
  exact Nat.le_antisymm (hle h' h) (hle h h')

def shiftOf (num den : Nat) : Nat := if num / den < 2 ^ 53 then 0 else Nat.log2 (num / den) - 52

theorem scales_shiftOf (num : Nat) {den : Nat} (hden : 0 < den) : Scales num den (shiftOf num den) := by
  unfold shiftOf Scales
  split
  · next hsmall => exact ⟨by rwa [Nat.mul_comm, ← Nat.div_lt_iff_lt_mul hden], .inl rfl⟩
  · next hlarge =>
    have hne : num / den ≠ 0 := by
      intro h
      rw [h] at hlarge
      exact hlarge (by decide)
    have hlog : 53 ≤ Nat.log2 (num / den) := (Nat.le_log2 hne).2 (Nat.not_lt.1 hlarge)
    refine ⟨?_, .inr ?_⟩
    · rw [Nat.mul_comm, ← Nat.div_lt_iff_lt_mul hden, show Nat.log2 (num / den) - 52 + 53 = Nat.log2 (num / den) + 1 by omega]
      exact Nat.lt_log2_self
    · rw [Nat.mul_comm, ← Nat.le_div_iff_mul_le hden, Nat.sub_add_cancel (by omega)]
      exact Nat.log2_self_le hne

/-- A double from its significand before a carry. -/
def carried (s : Bool) (sig shift : Nat) : Double :=
  if sig = 2 ^ 53 then if 2045 < shift + 1 then .infinite s else .finite s (2 ^ 52) (shift + 1)
  else if 2045 < shift then .infinite s else .finite s sig shift

theorem round_eq (s : Bool) (num den : Nat) :
    round s num den = carried s (roundHalfEven num (den * 2 ^ shiftOf num den)) (shiftOf num den) := by
  unfold round carried shiftOf
  simp only [Nat.pow_eq, beq_iff_eq]
  generalize (if num / den < 2 ^ 53 then 0 else Nat.log2 (num / den) - 52) = shift
  by_cases hcarry : roundHalfEven num (den * 2 ^ shift) = 2 ^ 53 <;> simp only [hcarry, if_true, if_false]

theorem round_of_scales {num den shift : Nat} (hden : 0 < den) (h : Scales num den shift) (s : Bool) :
    round s num den = carried s (roundHalfEven num (den * 2 ^ shift)) shift := by
  rw [round_eq, (scales_shiftOf num hden).unique h]

theorem round_scale (s : Bool) (num : Nat) {den c : Nat} (hden : 0 < den) (hc : 0 < c) :
    round s (num * c) (den * c) = round s num den := by
  have h := scales_shiftOf num hden
  have hscaled : Scales (num * c) (den * c) (shiftOf num den) := by
    unfold Scales at h ⊢
    rwa [Nat.mul_right_comm den c, Nat.mul_right_comm den c, Nat.mul_lt_mul_right hc, Nat.mul_le_mul_right_iff hc]
  rw [round_of_scales (Nat.mul_pos hden hc) hscaled, round_eq, Nat.mul_right_comm, roundHalfEven_scale _ _ hc]

theorem neg_round (s : Bool) (num den : Nat) : (round s num den).neg = round (!s) num den := by
  rw [round_eq, round_eq]
  unfold carried
  split <;> split <;> rfl

theorem negative_round (s : Bool) (num den : Nat) : (round s num den).negative = s := by
  rw [round_eq]
  unfold carried
  split <;> split <;> rfl

/-! Doubles in canonical form. -/

structure Canonical (sig shift : Nat) : Prop where
  sig_lt : sig < 2 ^ 53
  shift_le : shift ≤ 2045
  normal : shift = 0 ∨ 2 ^ 52 ≤ sig

theorem canonical_of_carried {s t : Bool} {sig shift m e : Nat} (hsig : sig ≤ 2 ^ 53) (hnormal : e = 0 ∨ 2 ^ 52 ≤ sig)
    (h : carried s sig e = .finite t m shift) : Canonical m shift := by
  unfold carried at h
  split at h
  · split at h
    · cases h
    · cases h
      exact ⟨by decide, by omega, .inr (Nat.le_refl _)⟩
  · split at h
    · cases h
    · cases h
      exact ⟨by omega, by omega, hnormal⟩

theorem canonical_of_round {s t : Bool} {num den sig shift : Nat} (hden : 0 < den)
    (h : round s num den = .finite t sig shift) : Canonical sig shift := by
  have hscales := scales_shiftOf num hden
  rw [round_eq] at h
  generalize shiftOf num den = e at h hscales
  have hpos : 0 < den * 2 ^ e := Nat.mul_pos hden (Nat.two_pow_pos e)
  have hbounds := roundHalfEven_bounds num (den * 2 ^ e)
  refine canonical_of_carried ?_ ?_ h
  · have : num / (den * 2 ^ e) < 2 ^ 53 := by
      rw [Nat.div_lt_iff_lt_mul hpos, Nat.mul_comm, Nat.mul_assoc, ← Nat.pow_add]
      exact hscales.1
    omega
  · refine hscales.2.imp_right fun hlow => Nat.le_trans ?_ hbounds.1
    rw [Nat.le_div_iff_mul_le hpos, Nat.mul_comm, Nat.mul_assoc, ← Nat.pow_add]
    exact hlow

/-- Half a unit of the last place is more than a part in `2^54` of the double. -/
theorem round_near {s : Bool} {num den sig shift : Nat} (hden : 0 < den) (h : Canonical sig shift)
    (hlow : (2 ^ 54 - 1) * (sig * 2 ^ shift * den) < 2 ^ 54 * num)
    (hhigh : 2 ^ 54 * num < (2 ^ 54 + 1) * (sig * 2 ^ shift * den)) :
    round s num den = .finite s sig shift := by
  have hsig := h.sig_lt
  obtain ⟨D, hD⟩ : ∃ D, den * 2 ^ shift = D := ⟨_, rfl⟩
  have hDpos : 0 < D := hD ▸ Nat.mul_pos hden (Nat.two_pow_pos shift)
  have hM : sig * 2 ^ shift * den = sig * D := by rw [← hD]; ring
  rw [hM] at hlow hhigh
  have hsigD : sig * D ≤ (2 ^ 53 - 1) * D := Nat.mul_le_mul_right D (by omega)
  by_cases hscale : shift = 0 ∨ 2 ^ 52 * D ≤ num
  · have hscales : Scales num den shift := by
      refine ⟨?_, hscale.imp_right fun hle => ?_⟩
      · rw [Nat.pow_add, ← Nat.mul_assoc, hD]
        omega
      · rw [Nat.pow_add, ← Nat.mul_assoc, hD]
        omega
    have hround : roundHalfEven num D = sig := roundHalfEven_near (by omega) (by omega)
    rw [round_of_scales hden hscales, hD, hround, carried, if_neg (by omega), if_neg (by have := h.shift_le; omega)]
  · -- just below a power of two, the next smaller shift carries
    obtain ⟨hshift, hnum⟩ := not_or.1 hscale
    obtain ⟨e, rfl⟩ := Nat.exists_eq_succ_of_ne_zero hshift
    have hle := h.normal.resolve_left hshift
    obtain rfl : sig = 2 ^ 52 := by
      refine Nat.le_antisymm (Nat.le_of_not_lt fun hlt => ?_) hle
      have : (2 ^ 52 + 1) * D ≤ sig * D := Nat.mul_le_mul_right D hlt
      omega
    obtain ⟨E, hE⟩ : ∃ E, den * 2 ^ e = E := ⟨_, rfl⟩
    obtain rfl : D = 2 * E := by rw [← hD, ← hE, Nat.pow_succ]; ring
    have hscales : Scales num den e := by
      refine ⟨?_, .inr ?_⟩
      · rw [Nat.pow_add, ← Nat.mul_assoc, hE]
        omega
      · rw [Nat.pow_add, ← Nat.mul_assoc, hE]
        omega
    have hround : roundHalfEven num E = 2 ^ 53 := roundHalfEven_near (by omega) (by omega)
    rw [round_of_scales hden hscales, hE, hround, carried, if_pos rfl, if_neg (by have := h.shift_le; omega)]

end Double

end Deadwood
