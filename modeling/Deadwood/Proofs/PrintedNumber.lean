import Deadwood.Proofs.NumberText

/-! Numbers that come back. A number is printed as a number of the source with an optional sign in front, which has the
same value and is an integer if the printed one was. Only infinity has no numeral. -/
namespace Deadwood
open Text

attribute [local irreducible] Double.unit

def Number.Survives (w : Number) (isInteger : Bool) : Prop :=
  ∃ (text : String) (negative : Bool) (numeral : List Char) (u : Number),
    Print.number w isInteger = .ok text ∧ text.toList = (if negative then ['-'] else []) ++ numeral ∧
      Lexeme.numberLength? numeral = some numeral.length ∧
      Literal.number (String.ofList numeral) = .ok (u, isInteger) ∧ w.order (if negative then u.neg else u) = .eq

namespace Number

theorem order_self (a : Number) : a.order a = .eq := by simp [order]

theorem toList_toString_int (z : Int) :
    (toString z).toList = (if z < 0 then ['-'] else []) ++ Nat.toDigits 10 z.natAbs := by
  cases z with
  | ofNat n =>
    have hnonneg : ¬Int.ofNat n < 0 := Int.not_lt.2 (Int.natCast_nonneg n)
    rw [if_neg hnonneg]
    exact Nat.toList_repr
  | negSucc n =>
    have hprint : toString (Int.negSucc n) = "-" ++ (n + 1).repr := rfl
    rw [hprint, String.toList_append, Nat.toList_repr, if_pos (Int.negSucc_lt_zero n)]
    rfl

theorem signed_toDouble (s : Bool) (d : Decimal) :
    (if s then (d.toDouble false).neg else d.toDouble false) = d.toDouble s := by
  cases s <;> simp [Decimal.neg_toDouble]

theorem signed_real (s : Bool) (x : Double) : (if s then neg (real x) else real x) = real (if s then x.neg else x) := by
  cases s <;> simp [neg]

/-- A number of the value of an integer that is printed as that integer. -/
theorem survives_whole {w : Number} {isInteger : Bool} {text : String} (z : Int)
    (hprint : Print.number w isInteger = .ok text)
    (htext : text.toList = (toString z).toList ++ if isInteger then ['L'] else []) (horder : w.order (.int z) = .eq)
    (hdigits : (Nat.toDigits 10 z.natAbs).length ≤ digitLimit) (hmax : isInteger → z.natAbs ≤ integerMax) :
    w.Survives isInteger := by
  refine ⟨text, decide (z < 0), Literal.whole z.natAbs isInteger, .int z.natAbs, hprint, ?_,
    Lexeme.numberLength?_whole _ _, Literal.number_whole String.toList_ofList hdigits hmax, ?_⟩
  · rw [htext, toList_toString_int, List.append_assoc]
    simp only [decide_eq_true_eq]
    rfl
  · simp only [decide_eq_true_eq]
    split
    · next hneg => rwa [neg, show -((z.natAbs : Nat) : Int) = z by omega]
    · next hnonneg => rwa [show ((z.natAbs : Nat) : Int) = z by omega]

theorem survives_int {z : Int} {isInteger : Bool} (hdigits : (Nat.toDigits 10 z.natAbs).length ≤ digitLimit)
    (hmax : isInteger → z.natAbs ≤ integerMax) : (int z).Survives isInteger := by
  cases isInteger with
  | true => exact survives_whole z rfl String.toList_append (order_self _) hdigits hmax
  | false => exact survives_whole z rfl (List.append_nil _).symm (order_self _) hdigits hmax

theorem length_toDigits_le {n k : Nat} (hk : 0 < k) (hn : n < 10 ^ k) (hlimit : k ≤ digitLimit) :
    (Nat.toDigits 10 n).length ≤ digitLimit :=
  Nat.le_trans ((Nat.length_toDigits_le_iff (by decide) hk).2 hn) hlimit

/-- Whole doubles are printed like integers. -/
theorem number_whole_real {s : Bool} {sig shift : Nat} (hwhole : (Double.finite s sig shift).isWhole)
    (hsmall : (Double.finite s sig shift).magnitude < Print.wholeMax * Double.unit) :
    ∃ n : Nat, n < 10 ^ 15 ∧ (Double.finite s sig shift).scaled = (if s then -(n : Int) else n) * Double.unit ∧
      Print.number (real (.finite s sig shift)) false = .ok (toString (if s then -(n : Int) else n)) := by
  obtain ⟨n, hn⟩ : ∃ n, (Double.finite s sig shift).magnitude = n * Double.unit :=
    ⟨_, (Nat.div_mul_cancel (Nat.dvd_of_mod_eq_zero (by simpa [Double.isWhole] using hwhole))).symm⟩
  have htruncate : (Double.finite s sig shift).truncate? = some (if s then -(n : Int) else n) := by
    simp only [Double.truncate?, hn, Nat.mul_div_cancel n Double.unit_pos, Double.negative]
  refine ⟨n, ?_, ?_, ?_⟩
  · rw [hn] at hsmall
    exact Nat.lt_of_mul_lt_mul_right hsmall
  · simp only [Double.scaled, Double.negative, hn]
    cases s <;> simp
  · simp only [Print.number, Bool.false_eq_true, if_false, hwhole, hsmall, decide_true, Bool.and_self, if_true,
      htruncate, Option.getD_some]

/-- All others have a point or an exponent. -/
theorem number_real {s : Bool} {sig shift : Nat} (h : Double.Canonical sig shift)
    (hwhole : ((Double.finite s sig shift).isWhole &&
      decide ((Double.finite s sig shift).magnitude < Print.wholeMax * Double.unit)) = false) :
    ∃ (text : String) (n : Numeral), Print.number (real (.finite s sig shift)) false = .ok text ∧
      text.toList = (if s then ['-'] else []) ++ n.text ∧ n.value.toDouble s = .finite s sig shift := by
  have hprint : Print.number (.real (.finite s sig shift)) false = .ok (Double.finite s sig shift).text := by
    simp only [Print.number, Bool.false_eq_true, if_false, hwhole]
  have hsig : sig ≠ 0 := by
    rintro rfl
    simp [Double.isWhole, Double.magnitude, Print.wholeMax, Double.unit_pos] at hwhole
  have hshortest := Double.toDouble_shortest (s := s) h hsig
  have hdigits : (Double.finite s sig shift).shortest.digits ≠ 0 := by
    intro hzero
    rw [Decimal.toDouble_eq, if_pos hzero] at hshortest
    cases hshortest
    exact hsig rfl
  obtain ⟨n, htext, hvalue⟩ := render_eq Double.layout hdigits
  refine ⟨_, n, hprint, ?_, (hvalue s).trans hshortest⟩
  simp only [Double.text, Double.negative, htext, String.toList_append, String.toList_ofList]
  cases s <;> simp

theorem length_toDigits_signed {n : Nat} (hn : n < 10 ^ 15) (s : Bool) :
    (Nat.toDigits 10 (if s then -(n : Int) else n).natAbs).length ≤ digitLimit := by
  refine length_toDigits_le (by decide) (Nat.lt_of_le_of_lt ?_ hn) (by decide)
  cases s <;> simp

theorem survives_real {s : Bool} {sig shift : Nat} (h : Double.Canonical sig shift) :
    (real (.finite s sig shift)).Survives false := by
  cases hwhole : (Double.finite s sig shift).isWhole &&
      decide ((Double.finite s sig shift).magnitude < Print.wholeMax * Double.unit) with
  | true =>
    simp only [Bool.and_eq_true, decide_eq_true_eq] at hwhole
    obtain ⟨n, hn, hscaled, hprint⟩ := number_whole_real hwhole.1 hwhole.2
    refine survives_whole _ hprint (List.append_nil _).symm ?_ (length_toDigits_signed hn s) nofun
    simp only [order, position, hscaled]
    simp
  | false =>
    obtain ⟨text, n, hprint, htext, hvalue⟩ := number_real h hwhole
    refine ⟨text, s, n.text, _, hprint, htext, n.numberLength?_text, n.number_text, ?_⟩
    rw [signed_real, signed_toDouble, hvalue, order_self]

theorem not_survives_infinite (s : Bool) : ¬(real (.infinite s)).Survives false := by
  rintro ⟨text, negative, numeral, u, hprint, htext, hlength, -⟩
  have hinfinite : text.toList = (if s then ['-'] else []) ++ ['i', 'n', 'f'] := by
    cases s <;> cases hprint <;> simp [Double.text, Double.negative]
  rw [hinfinite] at htext
  have hnumeral : numeral = ['i', 'n', 'f'] ∨ numeral = ['-', 'i', 'n', 'f'] := by
    cases s <;> cases negative <;> simp_all
  obtain rfl | rfl := hnumeral <;> cases hlength

end Number

theorem Text.digitValue?_lt {c : Char} : (digitValue? c).getD 0 < 10 := by
  unfold digitValue?
  split
  · next h =>
    have hval : c.toNat = c.val.toNat := rfl
    delta Char.isDigit at h
    simp [UInt32.le_iff_toNat_le] at h ⊢
    omega
  · split
    · decide
    · cases h : digitZeros.find? fun z => z ≤ c.toNat && c.toNat ≤ z + 9 with
      | none => exact Nat.succ_pos 9
      | some z =>
        have hz := List.find?_some h
        simp only [Bool.and_eq_true, decide_eq_true_eq] at hz
        simp only [Option.map_some, Option.getD_some]
        omega

theorem Decimal.ofDigits_lt (cs : List Char) : ofDigits cs < 10 ^ cs.length := by
  induction cs using List.reverseRecOn with
  | nil => decide
  | append_singleton cs c ih =>
    have hc := digitValue?_lt (c := c)
    rw [ofDigits_append, List.foldl_cons, List.foldl_nil, List.length_append, List.length_singleton, Nat.pow_succ]
    omega

theorem Literal.nonneg_of_suffixed? {cs : List Char} {z : Int} (h : suffixed? cs = some z) : 0 ≤ z := by
  obtain ⟨d, -, h⟩ := Option.bind_eq_some_iff.1 h
  dsimp only at h
  split at h
  · have hsign := Decimal.negative_toDouble false d
    cases hd : d.toDouble false with
    | infinite => simp [hd, Double.truncate?] at h
    | finite s sig shift =>
      obtain rfl : s = false := by simpa [hd, Double.negative] using hsign
      simp only [hd, Double.truncate?, Double.negative, Option.some.injEq] at h
      exact h ▸ Int.natCast_nonneg _
  · cases h

/-- The values of number literals: integers that can be written again, and doubles that decimals are nearest to. -/
theorem Literal.number_cases {text : String} {v : Number} {isInteger : Bool} (h : number text = .ok (v, isInteger)) :
    (∃ n : Nat, v = .int n ∧ (Nat.toDigits 10 n).length ≤ digitLimit ∧ (isInteger → n ≤ integerMax)) ∨
      ∃ d : Decimal, v = .real (d.toDouble false) ∧ isInteger = false := by
  have hplain {cs : List Char} (h : (plain cs).map (·, false) = .ok (v, isInteger)) :
      (∃ n : Nat, v = .int n ∧ (Nat.toDigits 10 n).length ≤ digitLimit ∧ (isInteger → n ≤ integerMax)) ∨
        ∃ d : Decimal, v = .real (d.toDouble false) ∧ isInteger = false := by
    unfold plain at h
    split at h
    · cases h
      refine .inr ⟨(Decimal.read cs).getD ⟨0, 0⟩, ?_, rfl⟩
      cases Decimal.read cs <;> rfl
    · split at h
      · cases h
      · next hlimit =>
        cases h
        refine .inl ⟨_, rfl, ?_, nofun⟩
        have hle := Nat.not_lt.1 hlimit
        cases cs with
        | nil => decide
        | cons c r => exact Number.length_toDigits_le (by simp) (Decimal.ofDigits_lt (c :: r)) hle
  simp only [number] at h
  split at h
  · split at h
    · next n hn =>
      cases h
      have hrange : n.natAbs ≤ integerMax := of_decide_eq_true (inIntegerRange_of_suffixed? hn)
      refine .inl ⟨n.natAbs, by rw [Int.natAbs_of_nonneg (nonneg_of_suffixed? hn)], ?_, fun _ => hrange⟩
      exact Number.length_toDigits_le (k := 10) (by decide) (Nat.lt_of_le_of_lt hrange (by decide)) (by decide)
    · exact hplain h
  · exact hplain h

/-- A number literal and its negation come back, unless the literal is too large for a double. -/
theorem survives_iff_finite {text : String} {v w : Number} {isInteger : Bool}
    (h : Literal.number text = .ok (v, isInteger)) (hw : w = v ∨ w = v.neg) :
    w.Survives isInteger ↔ v ≠ .real (.infinite false) := by
  obtain ⟨z, rfl, hdigits, hmax⟩ | ⟨d, rfl, rfl⟩ := Literal.number_cases h
  · refine iff_of_true ?_ nofun
    obtain rfl | rfl := hw
    · exact Number.survives_int hdigits hmax
    · exact Number.survives_int (by rwa [Int.natAbs_neg]) (by rwa [Int.natAbs_neg])
  · cases hd : d.toDouble false with
    | finite s sig shift =>
      rw [hd] at hw
      have hcanonical := Decimal.canonical_toDouble hd
      refine iff_of_true ?_ nofun
      obtain rfl | rfl := hw <;> exact Number.survives_real hcanonical
    | infinite s =>
      rw [hd] at hw
      have hsign : s = false := by simpa [hd, Double.negative] using Decimal.negative_toDouble false d
      refine iff_of_false ?_ (by simp [hsign])
      obtain rfl | rfl := hw <;> exact Number.not_survives_infinite _

/-- A tenth is no double; its nearest one comes back also with a sign. -/
theorem survives_negated_tenth : Literal.number "0.1" = .ok (.real (.finite false 7205759403792794 1018), false) ∧
    (Number.real (.finite true 7205759403792794 1018)).Survives false := by
  have hread : Literal.number "0.1" = .ok (.real (.finite false 7205759403792794 1018), false) := by decide +kernel
  exact ⟨hread, (survives_iff_finite hread (.inr rfl)).2 nofun⟩

/-- A literal beyond the range of doubles is printed as a name. -/
theorem not_survives_overflow : Literal.number "1e999" = .ok (.real (.infinite false), false) ∧
    Print.number (.real (.infinite false)) false = .ok "inf" ∧ ¬(Number.real (.infinite false)).Survives false :=
  ⟨by decide +kernel, by decide +kernel, Number.not_survives_infinite false⟩

end Deadwood
