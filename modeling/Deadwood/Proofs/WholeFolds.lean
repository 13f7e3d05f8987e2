import Deadwood.Proofs.Folding
import Mathlib.Algebra.Group.Nat.Defs

/-! Operations on whole numbers. Folding gives their exact value, as long as it stays within the range of what it is
folded to; quotient and remainder round toward negative infinity and belong together. -/
namespace Deadwood

/-! Exact values. -/

/-- Quotient and remainder of `a` by `b`, where the remainder has the sign of `b`. -/
structure Division (a b q r : Int) : Prop where
  eq : a = q * b + r
  small : r.natAbs < b.natAbs
  sign : r = 0 ∨ r.sign = b.sign

theorem division_iff {a b q r : Int} : Division a b q r ↔ b ≠ 0 ∧ a.fdiv b = q ∧ a.fmod b = r := by
  have hcomm : q * b + r = r + b * q := by rw [Int.mul_comm, Int.add_comm]
  obtain hb | rfl | hb := Int.lt_trichotomy b 0
  · rw [Int.fdiv_fmod_unique' hb, ← hcomm]
    constructor
    · rintro ⟨heq, hsmall, hsign⟩
      rw [Int.sign_eq_neg_one_of_neg hb, Int.sign_eq_neg_one_iff_neg] at hsign
      omega
    · rintro ⟨-, heq, hlow, hhigh⟩
      refine ⟨heq.symm, by omega, ?_⟩
      rw [Int.sign_eq_neg_one_of_neg hb, Int.sign_eq_neg_one_iff_neg]
      omega
  · refine iff_of_false (fun h => ?_) (fun h => h.1 rfl)
    simpa using h.small
  · rw [Int.fdiv_fmod_unique hb, ← hcomm]
    constructor
    · rintro ⟨heq, hsmall, hsign⟩
      rw [Int.sign_eq_one_of_pos hb, Int.sign_eq_one_iff_pos] at hsign
      omega
    · rintro ⟨-, heq, hlow, hhigh⟩
      refine ⟨heq.symm, by omega, ?_⟩
      rw [Int.sign_eq_one_of_pos hb, Int.sign_eq_one_iff_pos]
      omega

/-- The exact value of an operation on whole numbers. Division by zero has none, and what gives fractions is left
out. -/
def Arith.IsValue : Arith → Int → Int → Int → Prop
  | .add, a, b, v => v = a + b
  | .sub, a, b, v => v = a - b
  | .mul, a, b, v => v = a * b
  | .quot, a, b, v => ∃ r, Division a b v r
  | .mod, a, b, v => ∃ q, Division a b q v
  | .div, _, _, _ | .pow, _, _, _ => False

theorem Number.exactInt_eq_some_iff {n : Int} {x : Number} :
    exactInt n = some x ↔ n.natAbs ≤ exactMax ∧ x = .int n := by
  rw [exactInt, ← Nat.not_lt]
  split <;> simp_all [eq_comm]

theorem Number.evaluate_whole {op : Arith} (hop : Fold.keepsInteger op) (a b : Int) (x : Number) :
    evaluate op (.int a) (.int b) = some x ↔ ∃ v, op.IsValue a b v ∧ v.natAbs ≤ exactMax ∧ x = .int v := by
  cases op with
  | add | sub | mul => simp only [evaluate, mixed, exactInt_eq_some_iff, Arith.IsValue, exists_eq_left]
  | mod | quot =>
    by_cases hb : b = 0
    · simp [evaluate, isZero, Arith.IsValue, division_iff, hb]
    · simp [evaluate, isZero, mixed, exactInt_eq_some_iff, Arith.IsValue, division_iff, hb]
  | div | pow => cases hop

/-! Folding. -/

/-- Folding replaces the node by a literal. -/
def Node.FoldsTo (n x : Node) : Prop := n.fold = x ∧ x.isLiteral

/-- An operation on two literals of whole numbers; `i` and `j` tell whether they are integer literals. -/
def wholes (s sa sb : Span) (op : BinaryOp) (a b : Int) (i j : Bool) : Node :=
  .binary s op (.number sa (.int a) i) (.number sb (.int b) j)

section
variable {s sa sb : Span} {a b : Int} {i j : Bool}

theorem wholes_foldsTo {op : BinaryOp} {x : Node} : (wholes s sa sb op a b i j).FoldsTo x ↔
    Fold.binary? s op (.number sa (.int a) i) (.number sb (.int b) j) = some x := by
  have hfold : (wholes s sa sb op a b i j).fold =
      Fold.binary s op (.number sa (.int a) i) (.number sb (.int b) j) := rfl
  rw [Node.FoldsTo, hfold]
  obtain ⟨v, hv, hliteral, heq⟩ | ⟨hnone, heq⟩ :=
    Fold.binary_cases s op (.number sa (.int a) i) (.number sb (.int b) j)
  · rw [heq, hv, Option.some.injEq]
    exact ⟨fun h => h.1, fun h => ⟨h, h ▸ hliteral⟩⟩
  · rw [heq, hnone]
    refine iff_of_false ?_ nofun
    rintro ⟨rfl, hliteral⟩
    cases hliteral

/-- The largest magnitude that an operation is folded to. -/
def foldMax (isInteger : Bool) : Nat := if isInteger then integerMax else exactMax

/-- An operation folds to its exact value, and exactly if that is in range. -/
theorem wholes_foldsTo_iff {op : Arith} (hop : Fold.keepsInteger op) {x : Node} :
    (wholes s sa sb (.arith op) a b i j).FoldsTo x ↔
      ∃ v, op.IsValue a b v ∧ v.natAbs ≤ foldMax (i && j) ∧ x = .number s (.int v) (i && j) := by
  have hrange : integerMax ≤ exactMax := by decide
  rw [wholes_foldsTo, Fold.binary?, Fold.arith?, Option.bind_eq_bind, Option.bind_eq_some_iff]
  simp only [Number.evaluate_whole hop, hop, Bool.and_true]
  generalize (i && j) = k
  have hexceeds (v : Int) : (k && (Number.int v).exceeds integerMax) = true ↔ k = true ∧ integerMax < v.natAbs := by
    simp [Number.exceeds]
  constructor
  · rintro ⟨_, ⟨v, hv, hexact, rfl⟩, h⟩
    split at h
    · cases h
    · next hmax =>
      cases h
      refine ⟨v, hv, ?_, rfl⟩
      rw [hexceeds, not_and, Nat.not_lt] at hmax
      cases k with
      | true => exact hmax rfl
      | false => exact hexact
  · rintro ⟨v, hv, hmax, rfl⟩
    cases k with
    | true => exact ⟨_, ⟨v, hv, Nat.le_trans hmax hrange, rfl⟩, if_neg fun h => Nat.not_lt.2 hmax ((hexceeds v).1 h).2⟩
    | false => exact ⟨_, ⟨v, hv, hmax, rfl⟩, rfl⟩

end

/-- Quotient and remainder that fold belong together; on operands that are exact as doubles both fold, unless both
operands are integer literals; and an operation on two integer literals folds to an integer literal of its exact value,
whenever that is in range. -/
theorem wholes_fold_exactly (s sa sb : Span) (a b : Int) (i j : Bool) :
    (∀ x y, (wholes s sa sb (.arith .quot) a b i j).FoldsTo x → (wholes s sa sb (.arith .mod) a b i j).FoldsTo y →
      ∃ q r, x = .number s (.int q) (i && j) ∧ y = .number s (.int r) (i && j) ∧ Division a b q r) ∧
    (b ≠ 0 → a.natAbs ≤ 2 ^ 53 → b.natAbs ≤ 2 ^ 53 → (i && j) = false →
      (∃ x, (wholes s sa sb (.arith .quot) a b i j).FoldsTo x) ∧
        ∃ y, (wholes s sa sb (.arith .mod) a b i j).FoldsTo y) ∧
    ∀ op ∈ [Arith.add, .sub, .mul, .mod, .quot], ∀ x, (wholes s sa sb (.arith op) a b true true).FoldsTo x ↔
      ∃ v, op.IsValue a b v ∧ v.natAbs ≤ 2 ^ 31 - 1 ∧ x = .number s (.int v) true := by
  refine ⟨fun x y hx hy => ?_, fun hb ha hb' hij => ?_, fun op hop x => ?_⟩
  · obtain ⟨q, ⟨r', hq⟩, -, rfl⟩ := (wholes_foldsTo_iff rfl).1 hx
    obtain ⟨r, ⟨q', hr⟩, -, rfl⟩ := (wholes_foldsTo_iff rfl).1 hy
    obtain ⟨-, rfl, rfl⟩ := division_iff.1 hr
    obtain ⟨-, rfl, -⟩ := division_iff.1 hq
    exact ⟨_, _, rfl, rfl, hr⟩
  · have hdivision : Division a b (a.fdiv b) (a.fmod b) := division_iff.2 ⟨hb, rfl, rfl⟩
    have hmax : foldMax (i && j) = 2 ^ 53 := by
      rw [hij]
      rfl
    have hsmall := hdivision.small
    refine ⟨⟨_, (wholes_foldsTo_iff rfl).2 ⟨a.fdiv b, ⟨_, hdivision⟩, ?_, rfl⟩⟩,
      _, (wholes_foldsTo_iff rfl).2 ⟨a.fmod b, ⟨_, hdivision⟩, ?_, rfl⟩⟩
    · rw [hmax]
      exact Nat.le_trans (Int.natAbs_fdiv_le_natAbs a b) ha
    · omega
  · have hop : Fold.keepsInteger op := by revert op; decide
    exact wholes_foldsTo_iff hop

/-- A negative dividend, of which the quotient is rounded away from zero. -/
theorem wholes_fold_minus_seven :
    let s : Span := ⟨1, 1, 1, 10, none⟩
    ∃ x y, (wholes s s s (.arith .quot) (-7) 3 true false).FoldsTo x ∧
      (wholes s s s (.arith .mod) (-7) 3 true false).FoldsTo y ∧
      ∃ q r, x = .number s (.int q) false ∧ y = .number s (.int r) false ∧ Division (-7) 3 q r := by
  intro s
  obtain ⟨hpair, hfold, -⟩ := wholes_fold_exactly s s s (-7) 3 true false
  obtain ⟨⟨x, hx⟩, y, hy⟩ := hfold (by decide) (by decide) (by decide) rfl
  exact ⟨x, y, hx, hy, hpair x y hx hy⟩

end Deadwood
