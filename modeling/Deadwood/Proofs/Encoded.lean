import Deadwood.Files.Store
import Deadwood.Proofs.FileNames
import Deadwood.Proofs.Sight
import Deadwood.Text.Encoding

/-! What gets through an encoding: a text each of whose characters it takes. The code points of a printed literal
are those of its value, and a printed script without surrogates is made of the characters it shows. -/
namespace Deadwood

namespace Text

theorem points_injective : Function.Injective points := fun _ _ h =>
  String.toList_inj.1 (List.map_injective_iff.2 (fun _ _ => Point.char.inj) h)

def isAscii (s : String) : Bool := s.toList.all fun c => c.toNat < 128

namespace Encoding

/-- Whether each character of a text is taken. -/
def takesAll (e : Encoding) (s : String) : Bool := s.toList.all e.takes

theorem takesAll_append (e : Encoding) (s t : String) : e.takesAll (s ++ t) = (e.takesAll s && e.takesAll t) := by
  rw [takesAll, String.toList_append, List.all_append, takesAll, takesAll]

theorem takesAll_of_isAscii (e : Encoding) {s : String} (h : isAscii s) : e.takesAll s :=
  List.all_eq_true.2 fun c hc => e.ascii c (of_decide_eq_true (List.all_eq_true.1 h c hc))

theorem takesAll_between (e : Encoding) {front back : String} (hfront : isAscii front) (hback : isAscii back)
    (s : String) : e.takesAll (front ++ s ++ back) = e.takesAll s := by
  rw [takesAll_append, takesAll_append, e.takesAll_of_isAscii hfront, e.takesAll_of_isAscii hback, Bool.true_and,
    Bool.and_true]

theorem takesAll_utf8 (s : String) : utf8.takesAll s := List.all_eq_true.2 fun _ _ => rfl

theorem take?_eq_some_iff {e : Encoding} {p : Point} {c : Char} : e.take? p = some c ↔ p = .char c ∧ e.takes c := by
  cases p with
  | char d =>
    simp only [take?, Option.ite_none_right_eq_some, Option.some.injEq, Point.char.injEq]
    constructor
    · rintro ⟨htakes, rfl⟩
      exact ⟨rfl, htakes⟩
    · rintro ⟨rfl, htakes⟩
      exact ⟨htakes, rfl⟩
  | lone s => simp [take?]

theorem encodeFrom_map_char {e : Encoding} {cs : List Char} (h : cs.all e.takes) (pos : Nat) :
    e.encodeFrom pos (cs.map .char) = .ok cs := by
  induction cs generalizing pos with
  | nil => rfl
  | cons c cs ih =>
    rw [List.all_cons, Bool.and_eq_true] at h
    rw [List.map_cons, encodeFrom, take?_eq_some_iff.2 ⟨rfl, h.1⟩]
    dsimp only
    rw [ih h.2]
    rfl

theorem eq_of_encodeFrom {e : Encoding} {ps : List Point} {cs : List Char} {pos : Nat}
    (h : e.encodeFrom pos ps = .ok cs) : ps = cs.map .char ∧ cs.all e.takes := by
  induction ps generalizing pos cs with
  | nil =>
    cases h
    exact ⟨rfl, rfl⟩
  | cons p ps ih =>
    rw [encodeFrom] at h
    split at h
    · next c hc =>
      obtain ⟨rfl, htakes⟩ := take?_eq_some_iff.1 hc
      obtain ⟨rest, hrest, heq⟩ := bind_eq_ok_iff.1 h
      cases heq
      obtain ⟨rfl, hall⟩ := ih hrest
      exact ⟨rfl, by rw [List.all_cons, htakes, hall]; rfl⟩
    · cases h

/-- A text gets through unchanged, and only if it is taken as a whole. -/
theorem encode_eq_ok_iff {e : Encoding} {ps : List Point} {s : String} :
    e.encode ps = .ok s ↔ ps = points s ∧ e.takesAll s := by
  rw [encode, map_eq_ok_iff]
  constructor
  · rintro ⟨cs, hcs, rfl⟩
    rw [points, takesAll, String.toList_ofList]
    exact eq_of_encodeFrom hcs
  · rintro ⟨rfl, htakes⟩
    exact ⟨s.toList, encodeFrom_map_char htakes 0, String.ofList_toList⟩

theorem exists_lone_of_encodeFrom {ps : List Point} {pos : Nat} {x : EncodeError}
    (h : utf8.encodeFrom pos ps = .error x) : ∃ s, .lone s ∈ ps := by
  induction ps generalizing pos x with
  | nil => cases h
  | cons p ps ih =>
    cases p with
    | lone s => exact ⟨s, List.mem_cons_self⟩
    | char c =>
      rw [encodeFrom, take?_eq_some_iff.2 ⟨rfl, rfl⟩] at h
      dsimp only at h
      cases hrest : utf8.encodeFrom (pos + 1) ps with
      | error y =>
        obtain ⟨s, hs⟩ := ih hrest
        exact ⟨s, List.mem_cons_of_mem _ hs⟩
      | ok cs =>
        rw [hrest] at h
        cases h

/-- Only surrogates are refused in a script that is written. -/
theorem exists_lone_of_encode {ps : List Point} {x : EncodeError} (h : utf8.encode ps = .error x) :
    ∃ s, .lone s ∈ ps := by
  cases hfrom : utf8.encodeFrom 0 ps with
  | error y => exact exists_lone_of_encodeFrom hfrom
  | ok cs =>
    rw [encode, hfrom] at h
    cases h

theorem encode_points {e : Encoding} {s : String} (h : e.takesAll s) : e.encode (points s) = .ok s :=
  encode_eq_ok_iff.2 ⟨rfl, h⟩

theorem takesAll_of_encode {e : Encoding} {s t : String} (h : e.encode (points s) = .ok t) : e.takesAll s := by
  obtain ⟨hpoints, htakes⟩ := encode_eq_ok_iff.1 h
  rwa [points_injective hpoints]

end Encoding

theorem ascii_escape {letter : Char} (h : letter.toNat < 128) (width n : Nat) :
    ∀ c ∈ '\\' :: letter :: hex width n, c.toNat < 128 :=
  List.forall_mem_cons.2 ⟨by decide, List.forall_mem_cons.2 ⟨h, forall_mem_hex (by decide) width n⟩⟩

theorem mem_widen {c d : Char} (h : d ∈ widen c) : d.toNat < 128 ∨ d = c := by
  unfold widen at h
  split at h
  · exact .inr (List.mem_singleton.1 h)
  · split at h <;> exact .inl (ascii_escape (by decide) _ _ d h)

theorem mem_showChar {quote c d : Char} (h : d ∈ showChar quote c) : d.toNat < 128 ∨ d = c := by
  have hpair {x : Char} (h : d ∈ ['\\', x]) : d.toNat < 128 ∨ d = x := by
    obtain rfl | h := List.mem_cons.1 h
    · exact .inl (by decide)
    · exact .inr (List.mem_singleton.1 h)
  have hletter {x : Char} (hx : x.toNat < 128) (h : d ∈ ['\\', x]) : d.toNat < 128 := by
    obtain hascii | rfl := hpair h
    · exact hascii
    · exact hx
  unfold showChar at h
  split_ifs at h
  · exact hpair h
  · exact .inl (hletter (by decide) h)
  · exact .inl (hletter (by decide) h)
  · exact .inl (hletter (by decide) h)
  · exact .inr (List.mem_singleton.1 h)
  · exact .inl (ascii_escape (by decide) _ _ d h)
  · exact mem_widen h

/-- How a text is shown is taken where the text is. -/
theorem takesAll_shown {e : Encoding} {s : String} (h : e.takesAll s) : e.takesAll (shown s) := by
  have hquote : e.takes (quoteFor s.toList) := by
    unfold quoteFor
    split <;> exact e.ascii _ (by decide)
  have hchars : ∀ d ∈ s.toList.flatMap (showChar (quoteFor s.toList)), e.takes d := by
    intro d hd
    obtain ⟨c, hc, hd⟩ := List.mem_flatMap.1 hd
    obtain hascii | rfl := mem_showChar hd
    · exact e.ascii d hascii
    · exact List.all_eq_true.1 h d hc
  rw [Encoding.takesAll, shown, String.toList_ofList, List.all_append, List.all_cons, List.all_eq_true.2 hchars]
  simp [hquote]

theorem takesAll_describe {e : Encoding} {path : String} (h : e.takesAll path) (f : FileFault) :
    e.takesAll (f.describe path) := by
  have hnumbered {front : String} (hfront : isAscii front) : e.takesAll (front ++ shown path) := by
    rw [Encoding.takesAll_append, e.takesAll_of_isAscii hfront, takesAll_shown h, Bool.and_self]
  cases f with
  | nullByte => exact e.takesAll_of_isAscii (s := "embedded null byte") rfl
  | _ => exact hnumbered rfl

end Text

/-- A code point as it stands in a literal: a surrogate stands for itself. -/
def Text.Point.written : Text.Point → List Text.Point
  | .char c => (Text.escaped c).map .char
  | .lone s => [.lone s]

namespace Literal
open Text

theorem points_backslash {c : Char} (hc : c ≠ 'u') (r : List Char) :
    points ('\\' :: c :: r) = .char '\\' :: .char c :: points r := by
  rw [points]
  exact fun _ _ _ _ _ heq => absurd heq hc

theorem points_plain {c : Char} (hc : c ≠ '\\') (r : List Char) : points (c :: r) = .char c :: points r := by
  rw [points]
  · exact fun _ _ _ _ _ heq => absurd heq hc
  · exact fun _ _ heq => absurd heq hc

theorem points_surrogate (s : Surrogate) (r : List Char) :
    points ('\\' :: 'u' :: hex 4 s.code ++ r) = .lone s :: points r := by
  have hnumber : hexNumber (hex 4 s.code) = s.code := hexNumber_hex (Nat.lt_trans s.high (by decide))
  obtain ⟨a, b, c, d, hdigits⟩ : ∃ a b c d, hex 4 s.code = [a, b, c, d] := ⟨_, _, _, _, rfl⟩
  rw [hdigits] at hnumber ⊢
  have hsurrogate : Surrogate.ofNat? (hexNumber [a, b, c, d]) = some s := by rw [hnumber, Surrogate.ofNat?_code]
  simp only [List.cons_append, List.nil_append, points, hsurrogate]

theorem points_encode (ps : List Point) (r : List Char) :
    points (encode ps ++ r) = ps.flatMap Point.written ++ points r := by
  induction ps with
  | nil => rfl
  | cons p ps ih =>
    rw [encode_cons, List.append_assoc, List.flatMap_cons, List.append_assoc, ← ih]
    cases p with
    | char c =>
      rw [Point.escaped, Point.written]
      obtain ⟨d, hd, heq⟩ | ⟨heq, hslash, -⟩ := escaped_cases c
      · have hletters : ∀ x ∈ escapeLetters, x.2 ≠ 'u' := by decide
        rw [heq]
        exact points_backslash (hletters (c, d) hd) _
      · rw [heq]
        exact points_plain hslash _
    | lone s => exact points_surrogate s _

/-- What a printed literal stands for: its value between quotes, with characters escaped and surrogates as they
are. -/
theorem points_literal (ps : List Point) :
    points (literal ps).toList = .char '"' :: (ps.flatMap Point.written ++ [.char '"']) := by
  rw [toList_literal, points_plain (by decide), points_encode, points_plain (by decide)]
  rfl

theorem points_eq {cs : List Char} (h : ∀ s, .lone s ∉ points cs) : points cs = cs.map .char := by
  fun_induction points cs with
  | case1 a b c d r s hs ih => exact absurd List.mem_cons_self (h s)
  | case2 a b c d r hnone ih =>
    rw [ih fun s hs => h s (List.mem_cons_of_mem _ (List.mem_cons_of_mem _ hs))]
    rfl
  | case3 c r hshort ih =>
    rw [ih fun s hs => h s (List.mem_cons_of_mem _ (List.mem_cons_of_mem _ hs))]
    rfl
  | case4 c r hplain hslash ih =>
    rw [ih fun s hs => h s (List.mem_cons_of_mem _ hs)]
    rfl
  | case5 => rfl

end Literal

namespace Script

theorem pointsFrom_eq {skip : Nat} {cs : List Char} (h : ∀ s, .lone s ∉ pointsFrom skip cs) :
    pointsFrom skip cs = (cs.drop skip).map .char := by
  fun_induction pointsFrom skip cs with
  | case1 skip => simp
  | case2 skip c r ih => exact ih h
  | case3 c r text n hscan ih =>
    have hliteral : ∀ s, .lone s ∉ Literal.points text.toList := fun s hs => h s (List.mem_append_left _ hs)
    have hrest : ∀ s, .lone s ∉ pointsFrom n r := fun s hs => h s (List.mem_append_right _ hs)
    have htext : text.toList = c :: r.take n := by
      cases (Lexeme.scanned hscan).cut with
      | string => exact String.toList_ofList
      | code hcode => cases hcode
    rw [Literal.points_eq hliteral, htext, ih hrest, ← List.map_append, List.cons_append, List.take_append_drop,
      List.drop_zero]
  | case4 c r o n hscan hstring ih =>
    have hrest : ∀ s, .lone s ∉ pointsFrom n r := fun s hs => h s (List.mem_append_right _ hs)
    rw [ih hrest, ← List.map_append, List.cons_append, List.take_append_drop, List.drop_zero]

/-- A script without surrogates is made of the characters it shows. -/
theorem eq_of_points_eq {text s : String} (h : points text = Text.points s) :
    text = s ∧ ∀ x, .lone x ∉ points text := by
  have hplain : ∀ x, .lone x ∉ points text := by simp [h, Text.points]
  have hshown : points text = Text.points text := pointsFrom_eq hplain
  exact ⟨Text.points_injective (hshown.symm.trans h), hplain⟩

end Script
end Deadwood
