import Deadwood.Proofs.Shortest
import Deadwood.Proofs.WholeFolds
import Mathlib.Data.Rat.Floor
import Mathlib.Order.WithBot

/-! Whole numbers and the doubles that stand for them. Operations on plain literals are folded on the whole numbers
themselves, and what they fold to is right for the nearest doubles as long as the operands are doubles. -/
namespace Deadwood

attribute [local irreducible] Double.unit

namespace Double

/-- The value of a finite double. -/
def rational (x : Double) : ℚ := x.scaled / unit

def value? (x : Double) : Option ℚ := if x.isFinite then some x.rational else none

/-- The place of a double in the order of all values, with the infinities at the ends. -/
def extended : Double → WithBot (WithTop ℚ)
  | .finite s sig shift => ((rational (.finite s sig shift) : WithTop ℚ) : WithBot (WithTop ℚ))
  | .infinite true => ⊥
  | .infinite false => ((⊤ : WithTop ℚ) : WithBot (WithTop ℚ))

/-- The double nearest to a whole number. -/
def nearest (n : Int) : Double := ofRatio (n < 0) n.natAbs 1

/-- The whole number is the value of a double. -/
def Holds (n : Int) : Prop := ∃ s sig shift, Canonical sig shift ∧ (finite s sig shift).rational = n

theorem rational_eq_iff {x : Double} {n : Int} : x.rational = n ↔ x.scaled = n * unit := by
  have hunit : (unit : ℚ) ≠ 0 := by exact_mod_cast Nat.ne_of_gt unit_pos
  rw [rational, div_eq_iff hunit]
  exact_mod_cast Iff.rfl

theorem natAbs_scaled (x : Double) : x.scaled.natAbs = x.magnitude := by
  rw [scaled]
  split
  · rw [Int.natAbs_neg, Int.natAbs_natCast]
  · rw [Int.natAbs_natCast]

theorem magnitude_eq {s : Bool} {sig shift : Nat} {n : Int} (h : (finite s sig shift).rational = n) :
    sig * 2 ^ shift = n.natAbs * unit := by
  have habs := congrArg Int.natAbs (rational_eq_iff.1 h)
  rwa [natAbs_scaled, Int.natAbs_mul, Int.natAbs_natCast] at habs

theorem rational_finite {sig shift : Nat} {n : Int} (h : sig * 2 ^ shift = n.natAbs * unit) :
    (finite (n < 0) sig shift).rational = n := by
  rw [rational_eq_iff, scaled, magnitude, Nat.pow_eq, h]
  simp only [negative, decide_eq_true_eq]
  split
  · next hn =>
    rw [Nat.cast_mul, Int.ofNat_natAbs_of_nonpos (by omega)]
    ring
  · next hn => rw [Nat.cast_mul, Int.natAbs_of_nonneg (by omega)]

/-- A whole number that is a double is the nearest one to itself. -/
theorem nearest_eq {sig shift : Nat} {n : Int} (h : Canonical sig shift) (hn : sig * 2 ^ shift = n.natAbs * unit) :
    nearest n = finite (n < 0) sig shift := by
  have hround : nearest n = round (n < 0) (sig * 2 ^ shift) 1 := by rw [nearest, ofRatio, hn]
  by_cases hsig : sig = 0
  · subst hsig
    obtain rfl : shift = 0 := h.normal.resolve_right (by decide)
    rw [hround, Nat.zero_mul]
    rfl
  · have hpos : 0 < sig * 2 ^ shift := Nat.mul_pos (Nat.pos_of_ne_zero hsig) (Nat.two_pow_pos shift)
    rw [hround]
    exact round_near Nat.one_pos h (by omega) (by omega)

theorem nearest_of_holds {n : Int} (h : Holds n) :
    ∃ sig shift, nearest n = .finite (n < 0) sig shift ∧ (nearest n).rational = n := by
  obtain ⟨s, sig, shift, hcanonical, hn⟩ := h
  have hmagnitude := magnitude_eq hn
  have hnearest := nearest_eq hcanonical hmagnitude
  exact ⟨sig, shift, hnearest, hnearest ▸ rational_finite hmagnitude⟩

theorem holds_of_natAbs {n : Int} (h : n.natAbs < 2 ^ 53) : Holds n := by
  obtain ⟨e, he, hunit⟩ := unit_eq_pow
  obtain ⟨sig, shift, hround, hmagnitude⟩ := round_exact h he (n < 0)
  rw [← hunit] at hmagnitude
  exact ⟨_, sig, shift, canonical_of_round Nat.one_pos hround, rational_finite hmagnitude⟩

theorem le_shift_of_carried {s t : Bool} {sig e m shift : Nat} (h : carried s sig e = .finite t m shift) :
    e ≤ shift := by
  unfold carried at h
  split at h
  · split at h <;> cases h
    exact Nat.le_succ e
  · split at h <;> cases h
    exact Nat.le_refl e

/-- From `2^53` on the nearest double of a whole number is whole, and not zero. -/
theorem unit_dvd_of_nearest {n : Int} {s : Bool} {sig shift : Nat} (hn : 2 ^ 53 ≤ n.natAbs)
    (h : nearest n = .finite s sig shift) : unit ∣ sig * 2 ^ shift ∧ 0 < sig := by
  obtain ⟨k, -, hunit⟩ := unit_eq_pow
  rw [Nat.pow_eq] at hunit
  have hscales := (scales_shiftOf (n.natAbs * unit) Nat.one_pos).1
  have hcanonical := canonical_of_round Nat.one_pos h
  rw [nearest, ofRatio, round_eq] at h
  have hshift := le_shift_of_carried h
  have hk : k < shiftOf (n.natAbs * unit) 1 := by
    have hlow : 2 ^ (53 + k) ≤ n.natAbs * unit := by
      rw [hunit, Nat.pow_add]
      exact Nat.mul_le_mul_right _ hn
    rw [Nat.one_mul] at hscales
    have hpow := (Nat.pow_lt_pow_iff_right (by decide)).1 (Nat.lt_of_le_of_lt hlow hscales)
    omega
  refine ⟨?_, ?_⟩
  · rw [hunit]
    exact Nat.dvd_mul_left_of_dvd (Nat.pow_dvd_pow 2 (by omega)) sig
  · exact Nat.lt_of_lt_of_le (by decide) (hcanonical.normal.resolve_left (by omega))

/-- A whole number is a double, too large for one, or rounded to another. -/
theorem nearest_cases (n : Int) :
    Holds n ∨ (nearest n).isFinite = false ∨ ∃ m, m ≠ n ∧ Holds m ∧ nearest m = nearest n := by
  by_cases hn : n.natAbs < 2 ^ 53
  · exact .inl (holds_of_natAbs hn)
  · cases hnearest : nearest n with
    | infinite s => exact .inr (.inl rfl)
    | finite s sig shift =>
      obtain rfl : decide (n < 0) = s := by
        have hsign := negative_round (n < 0) (n.natAbs * unit) 1
        rw [← ofRatio, ← nearest, hnearest] at hsign
        exact hsign.symm
      have hcanonical := canonical_of_round Nat.one_pos hnearest
      obtain ⟨⟨q, hq⟩, hsig⟩ := unit_dvd_of_nearest (Nat.not_lt.1 hn) hnearest
      have hpos : 0 < q := by
        refine Nat.pos_of_ne_zero fun hzero => ?_
        rw [hzero, Nat.mul_zero] at hq
        exact absurd hq (Nat.ne_of_gt (Nat.mul_pos hsig (Nat.two_pow_pos shift)))
      obtain ⟨m, hm, hsign⟩ : ∃ m : Int, m.natAbs = q ∧ (m < 0 ↔ n < 0) := by
        by_cases hneg : n < 0
        · exact ⟨-q, by omega, by omega⟩
        · exact ⟨q, by omega, by omega⟩
      have hmagnitude : sig * 2 ^ shift = m.natAbs * unit := by rw [hq, hm, Nat.mul_comm]
      have hholds : Holds m := ⟨_, sig, shift, hcanonical, rational_finite hmagnitude⟩
      by_cases hmn : m = n
      · exact .inl (hmn ▸ hholds)
      · refine .inr (.inr ⟨m, hmn, hholds, ?_⟩)
        rw [nearest_eq hcanonical hmagnitude]
        simp only [hsign]

end Double

/-! Exact results on doubles. -/

/-- The exact value of an operation on rational numbers. Division by zero has none, and what gives fractions of whole
numbers is left out. -/
def Arith.value? : Arith → ℚ → ℚ → Option ℚ
  | .add, x, y => some (x + y)
  | .sub, x, y => some (x - y)
  | .mul, x, y => some (x * y)
  | .quot, x, y => if y = 0 then none else some ⌊x / y⌋
  | .mod, x, y => if y = 0 then none else some (x - y * ⌊x / y⌋)
  | .div, _, _ | .pow, _, _ => none

def Relation.Relates [LinearOrder α] : Relation → α → α → Prop
  | .eq, x, y => x = y
  | .ne, x, y => x ≠ y
  | .lt, x, y => x < y
  | .gt, x, y => y < x
  | .le, x, y => x ≤ y
  | .ge, x, y => y ≤ x

/-- The literal is the exact result of the operation on the doubles nearest to two whole numbers. -/
def BinaryOp.IsExact (a b : Int) : BinaryOp → Node → Prop
  | .arith op, .number _ (.int v) _ =>
    ∃ x y, (Double.nearest a).value? = some x ∧ (Double.nearest b).value? = some y ∧ op.value? x y = some (v : ℚ)
  | .rel r, .boolean _ v => v = true ↔ r.Relates (Double.nearest a).extended (Double.nearest b).extended
  | _, _ => False

/-- The operations that give whole numbers and truth values. -/
def BinaryOp.givesWhole : BinaryOp → Bool
  | .arith .div | .arith .pow => false
  | .arith _ | .rel _ => true
  | _ => false

theorem Arith.givesWhole_eq (op : Arith) : (BinaryOp.arith op).givesWhole = Fold.keepsInteger op := by
  cases op <;> rfl

/-- Whatever an operation on two plain literals is folded to is exact. -/
def FoldsExactly (a b : Int) : Prop :=
  ∀ op : BinaryOp, op.givesWhole → ∀ s sa sb x, (wholes s sa sb op a b false false).FoldsTo x → op.IsExact a b x

theorem floor_div_eq_fdiv (a b : Int) : ⌊(a : ℚ) / b⌋ = a.fdiv b := by
  have hnonneg (a b : Int) (hb : 0 ≤ b) : ⌊(a : ℚ) / b⌋ = a.fdiv b := by
    obtain ⟨n, rfl⟩ := Int.eq_ofNat_of_zero_le hb
    rw [Int.fdiv_eq_ediv_of_nonneg a hb]
    exact_mod_cast Rat.floor_intCast_div_natCast a n
  obtain hb | hb := Int.le_total 0 b
  · exact hnonneg a b hb
  · have hneg := hnonneg (-a) (-b) (by omega)
    rwa [Int.neg_fdiv_neg, Int.cast_neg, Int.cast_neg, neg_div_neg_eq] at hneg

theorem Arith.value?_of_isValue {op : Arith} {a b v : Int} (h : op.IsValue a b v) : op.value? a b = some (v : ℚ) := by
  cases op with
  | add | sub | mul =>
    obtain rfl : v = _ := h
    simp [value?]
  | quot =>
    obtain ⟨r, h⟩ := h
    obtain ⟨hb, rfl, -⟩ := division_iff.1 h
    simp [value?, hb, floor_div_eq_fdiv]
  | mod =>
    obtain ⟨q, h⟩ := h
    obtain ⟨hb, -, rfl⟩ := division_iff.1 h
    simp [value?, hb, floor_div_eq_fdiv, Int.fmod_def]
  | div | pow => cases h

theorem Number.order_int (a b : Int) : order (.int a) (.int b) = compare a b := by
  have hunit : (0 : Int) < Double.unit := by exact_mod_cast Double.unit_pos
  have hmono : StrictMono fun n : Int => n * (Double.unit : Int) := fun m n h => Int.mul_lt_mul_of_pos_right h hunit
  have hscaled : compare (a * (Double.unit : Int)) (b * Double.unit) = compare a b := by
    rw [← cmp_eq_compare, ← cmp_eq_compare]
    exact hmono.cmp_map_eq a b
  exact hscaled

theorem Relation.holds_compare (r : Relation) (a b : Int) : r.holds (compare a b) = true ↔ r.Relates a b := by
  cases r <;> simp [holds, Relates, compare_lt_iff_lt, compare_gt_iff_gt]

/-- A relation only depends on the order of its sides. -/
theorem Relation.relates_iff_of_strictMono [LinearOrder α] [LinearOrder β] {f : α → β} (hf : StrictMono f)
    (r : Relation) (x y : α) : r.Relates (f x) (f y) ↔ r.Relates x y := by
  cases r with
  | eq => exact hf.injective.eq_iff
  | ne => exact hf.injective.ne_iff
  | lt | gt => exact hf.lt_iff_lt
  | le | ge => exact hf.le_iff_le

theorem Double.value?_of_holds {n : Int} (h : Holds n) : (nearest n).value? = some (n : ℚ) := by
  obtain ⟨sig, shift, hfinite, hvalue⟩ := nearest_of_holds h
  rw [value?, hvalue, hfinite]
  rfl

theorem Double.extended_of_holds {n : Int} (h : Holds n) :
    (nearest n).extended = (((n : ℚ) : WithTop ℚ) : WithBot (WithTop ℚ)) := by
  obtain ⟨sig, shift, hfinite, hvalue⟩ := nearest_of_holds h
  rw [← hvalue, hfinite]
  rfl

theorem Double.relates_nearest_iff {a b : Int} (ha : Holds a) (hb : Holds b) (r : Relation) :
    r.Relates (nearest a).extended (nearest b).extended ↔ r.Relates a b := by
  have hmono : StrictMono fun n : Int => (((n : ℚ) : WithTop ℚ) : WithBot (WithTop ℚ)) :=
    WithBot.coe_strictMono.comp (WithTop.coe_strictMono.comp Int.cast_strictMono)
  rw [extended_of_holds ha, extended_of_holds hb]
  exact r.relates_iff_of_strictMono hmono a b

section
variable {s sa sb : Span} {a b : Int}

theorem wholes_rel_foldsTo {r : Relation} {x : Node} :
    (wholes s sa sb (.rel r) a b false false).FoldsTo x ↔ x = .boolean s (r.holds (compare a b)) := by
  rw [wholes_foldsTo, ← Number.order_int]
  exact Option.some_inj.trans eq_comm

/-- On whole numbers that are doubles, folding is exact. -/
theorem foldsExactly_of_holds (ha : Double.Holds a) (hb : Double.Holds b) : FoldsExactly a b := by
  have harith {op : Arith} (hop : Fold.keepsInteger op) {s sa sb : Span} {x : Node}
      (h : (wholes s sa sb (.arith op) a b false false).FoldsTo x) : (BinaryOp.arith op).IsExact a b x := by
    obtain ⟨v, hv, -, rfl⟩ := (wholes_foldsTo_iff hop).1 h
    exact ⟨a, b, Double.value?_of_holds ha, Double.value?_of_holds hb, Arith.value?_of_isValue hv⟩
  have hrel {r : Relation} {s sa sb : Span} {x : Node}
      (h : (wholes s sa sb (.rel r) a b false false).FoldsTo x) : (BinaryOp.rel r).IsExact a b x := by
    rw [wholes_rel_foldsTo.1 h, BinaryOp.IsExact, Double.relates_nearest_iff ha hb]
    exact r.holds_compare a b
  intro op hop s sa sb x h
  cases op with
  | arith op => exact harith (op.givesWhole_eq ▸ hop) h
  | rel r => exact hrel h
  | _ => cases hop

/-- A whole number out of range has no value as a double, but its product with zero is folded. -/
theorem isFinite_of_foldsExactly_zero (h : FoldsExactly a 0) : (Double.nearest a).isFinite = true := by
  let s : Span := ⟨1, 1, 1, 1, none⟩
  have hfold : (wholes s s s (.arith .mul) a 0 false false).FoldsTo (.number s (.int 0) false) :=
    (wholes_foldsTo_iff rfl).2 ⟨0, (Int.mul_zero a).symm, Nat.zero_le _, rfl⟩
  obtain ⟨x, -, hx, -⟩ := h (.arith .mul) rfl _ _ _ _ hfold
  by_contra hinfinite
  rw [Double.value?, if_neg hinfinite] at hx
  cases hx

/-- Equality of two whole numbers is folded to that of their doubles only if rounding keeps them apart. -/
theorem eq_of_foldsExactly (h : FoldsExactly a b) (hnearest : Double.nearest a = Double.nearest b) : a = b := by
  let s : Span := ⟨1, 1, 1, 1, none⟩
  have hexact := h (.rel .eq) rfl s s s _ (wholes_rel_foldsTo.2 rfl)
  rw [BinaryOp.IsExact, Relation.holds_compare, hnearest] at hexact
  exact hexact.2 rfl

end

/-- Folding an operation of plain whole numbers is exact on the nearest doubles, for all second operands that are
doubles, if and only if the first one is a double too. -/
theorem folds_exactly_iff_holds (a : Int) : (∀ b, Double.Holds b → FoldsExactly a b) ↔ Double.Holds a := by
  refine ⟨fun h => ?_, fun ha b hb => foldsExactly_of_holds ha hb⟩
  obtain ha | hinfinite | ⟨m, hne, hm, hnearest⟩ := Double.nearest_cases a
  · exact ha
  · have hfinite := isFinite_of_foldsExactly_zero (h 0 (Double.holds_of_natAbs (by decide)))
    rw [hinfinite] at hfinite
    cases hfinite
  · exact absurd (eq_of_foldsExactly (h m hm) hnearest.symm).symm hne

/-- Past `2^53` two whole numbers may be one double. They are still folded to different numbers. -/
theorem folds_apart_past_exactMax :
    let s : Span := ⟨1, 1, 1, 1, none⟩
    Double.nearest (2 ^ 53 + 1) = Double.nearest (2 ^ 53) ∧
    (wholes s s s (.rel .eq) (2 ^ 53 + 1) (2 ^ 53) false false).FoldsTo (.boolean s false) ∧
    (wholes s s s (.arith .sub) (2 ^ 53 + 1) (2 ^ 53) false false).FoldsTo (.number s (.int 1) false) ∧
    ¬ FoldsExactly (2 ^ 53 + 1) (2 ^ 53) := by
  intro s
  have hnearest : Double.nearest (2 ^ 53 + 1) = Double.nearest (2 ^ 53) := by decide +kernel
  refine ⟨hnearest, wholes_rel_foldsTo.2 rfl, (wholes_foldsTo_iff rfl).2 ⟨1, rfl, by decide, rfl⟩, fun h => ?_⟩
  exact absurd (eq_of_foldsExactly h hnearest) (by decide)

end Deadwood
