import Deadwood.Proofs.PrintedNumber
import Deadwood.Proofs.Quotation

/-! Parsed programs can be printed, and all that is printed of them is cut again: their numbers have numerals or are
infinite, their names are not reserved, and nothing taken from a string literal holds a line feed. -/
namespace Deadwood
open Text

attribute [local irreducible] Double.unit

/-! Lexemes. -/

namespace Lexeme

/-- The lexemes that a script is cut into. -/
def isCut : Lexeme → Bool
  | .number s => (Keyword.ofText? s).isNone
  | .string s => !s.toList.contains '\n'
  | l => l.isSpelled

theorem Inside.newline_not_mem {quote : Char} {cs : List Char} (h : Inside quote cs) : '\n' ∉ cs := by
  induction h with
  | nil => simp
  | plain _ _ hfeed _ ih => simpa [ih] using hfeed.symm
  | escaped hfeed _ ih => simpa [ih] using hfeed.symm

theorem newline_not_mem_of_stringTail {quote : Char} {r : List Char} {n : Nat} (hquote : quote = '"' ∨ quote = '\'')
    (h : stringTail quote r = some n) : '\n' ∉ quote :: r.take n := by
  obtain ⟨inner, rest, hinside, rfl, rfl⟩ := inside_of_stringTail h
  have htake : (inner ++ quote :: rest).take (inner.length + 1) = inner ++ [quote] := by
    rw [List.take_length_add_append]
    rfl
  have hfeed : '\n' ≠ quote := by obtain rfl | rfl := hquote <;> decide
  rw [htake]
  simp [hfeed, hinside.newline_not_mem]

theorem ofText?_of_scanNumber {c : Char} {r : List Char} (hc : ¬c.isAlpha)
    (h : scanNumber c r = some (.number s, n)) : Keyword.ofText? s = none := by
  obtain ⟨n, -, heq⟩ := Option.map_eq_some_iff.1 h
  cases heq
  cases n with
  | zero => rfl
  | succ n =>
    cases hk : Keyword.ofText? (String.ofList ((c :: r).take (n + 1))) with
    | none => rfl
    | some k => exact absurd (Keyword.isAlpha_of_ofText? hk) hc

theorem isCut_of_scan {c : Char} {r : List Char} {l : Lexeme} (h : (scan c r).1 = some l) : l.isCut := by
  cases l with
  | number s =>
    obtain ⟨n, hscan⟩ := exists_scanned h
    obtain ⟨hc, hnumber⟩ := scanNumber_of_scanWordOrNumber (hscan.scanWordOrNumber_eq rfl nofun)
    rw [isCut, ofText?_of_scanNumber hc hnumber]
    rfl
  | string s =>
    obtain ⟨n, hscan⟩ := exists_scanned h
    cases hscan with
    | mark hmark => simp [marks] at hmark
    | pair hpair => simp [pairs] at hpair
    | string hquote htail => simpa [isCut] using newline_not_mem_of_stringTail hquote htail
    | word hword => cases isWordOrNumber_of_scanWordOrNumber hword
  | _ => exact isSpelled_of_scan h rfl

end Lexeme

/-! Numbers. -/

theorem Numeral.isNumberText {n : Numeral} {text : String} (htext : text.toList = n.text) :
    Lexeme.isNumberText text := by
  have hlength := n.numberLength?_text
  cases hwhole : n.whole with
  | nil => exact absurd hwhole n.whole_ne
  | cons c r =>
    have hcons : n.text = c :: (r ++ n.behind) := by rw [Numeral.text, hwhole, List.cons_append]
    rw [hcons] at hlength htext
    exact Lexeme.isNumberText_of_isDigit htext (n.whole_digits c (by simp [hwhole])) hlength

theorem Number.isCut_of_print {v : Number} {isInteger : Bool} {text : String} (hsign : v.isNegative = false)
    (hprint : Print.number v isInteger = .ok text) (htext : Lexeme.isNumberText text)
    (hread : Literal.number text = .ok r) : v.isCut isInteger := by
  simp [isCut, hsign, hprint, Except.toOption, htext, hread]

theorem Number.isCut_real {sig shift : Nat} (h : Double.Canonical sig shift) :
    (real (.finite false sig shift)).isCut false := by
  have hsign : (real (.finite false sig shift)).isNegative = false := rfl
  cases hwhole : (Double.finite false sig shift).isWhole &&
      decide ((Double.finite false sig shift).magnitude < Print.wholeMax * Double.unit) with
  | true =>
    simp only [Bool.and_eq_true, decide_eq_true_eq] at hwhole
    obtain ⟨n, hn, -, hprint⟩ := number_whole_real hwhole.1 hwhole.2
    have htext : (toString (n : Int)).toList = Literal.whole n false := Nat.toList_repr.trans (List.append_nil _).symm
    exact isCut_of_print hsign hprint (Lexeme.isNumberText_whole htext)
      (Literal.number_whole htext (length_toDigits_signed hn false) nofun)
  | false =>
    obtain ⟨text, n, hprint, htext, -⟩ := number_real h hwhole
    have htext : text.toList = n.text := htext
    have hread : Literal.number text = .ok (.real (n.value.toDouble false), false) := by
      rw [← n.number_text, ← htext, String.ofList_toList]
    exact isCut_of_print hsign hprint (Numeral.isNumberText htext) hread

/-- The value of a literal is printed as a number of the source or as infinity. -/
theorem Literal.isCut_of_number {text : String} {v : Number} {isInteger : Bool}
    (h : number text = .ok (v, isInteger)) : v.isCut isInteger := by
  obtain ⟨n, rfl, hdigits, hmax⟩ | ⟨d, rfl, rfl⟩ := number_cases h
  · exact Number.isCut_of_isSpelled (Number.isSpelled_whole hdigits hmax)
  · have hsign := Decimal.negative_toDouble false d
    cases hd : d.toDouble false with
    | finite s sig shift =>
      obtain rfl : s = false := by simpa [hd, Double.negative] using hsign
      exact Number.isCut_real (Decimal.canonical_toDouble hd)
    | infinite s =>
      obtain rfl : s = false := by simpa [hd, Double.negative] using hsign
      decide +kernel

/-! Trees. -/

theorem Argument.isCut_bare (a : Argument) : a.bare.isCut = a.isCut := by
  obtain ⟨_, name, v⟩ := a
  simp [Argument.bare, isCut, Node.isEquals_bare]

theorem Parameter.isCut_bare (a : Parameter) : a.bare.isCut = a.isCut := by
  obtain ⟨_, _, _ | d⟩ := a <;> simp [Parameter.bare, isCut, Node.isEquals_bare]

theorem Node.isCut_bare (n : Node) : n.bare.isCut = n.isCut := by
  cases n with
  | call s f args =>
    have hargs : (bareArguments args).all Argument.isCut = args.all Argument.isCut := by
      simp [bareArguments_eq_map, List.all_map, Function.comp_def, Argument.isCut_bare]
    simp only [Node.bare, isCut, isEquals_bare, isReturn_bare, hargs]
  | function s ps b =>
    simp [Node.bare, isCut, bareParameters_eq_map, List.all_map, Function.comp_def, Parameter.isCut_bare]
  | cond s c t e? => cases e? <;> simp [Node.bare, isCut, isSpelled, isEquals_bare]
  | jump s k x? => cases k <;> cases x? <;> simp [Node.bare, isCut, isSpelled, isEquals_bare]
  | index s t xs d => exact Node.isSpelled_bare (.index s t xs d)
  | _ => simp [Node.bare, isCut, isSpelled, isEquals_bare]

namespace Grammar

theorem isMemberText_of_nameFrom (h : NameFrom (fun l => l.isCut) text) : Lexeme.isMemberText text := by
  obtain ⟨l, hl, hname⟩ := h
  cases l with
  | name s =>
    cases hname
    exact Lexeme.isMemberText_of_isNameText hl
  | number s =>
    simp only [Lexeme.name?] at hname
    split at hname
    · next hs =>
      cases hname
      exact Lexeme.isMemberText_of_isName hs (Option.isNone_iff_eq_none.1 hl)
    · cases hname
  | _ => cases hname

theorem newline_not_mem_of_argumentText? {l : Lexeme} (hl : l.isCut) (h : argumentText? l = some text) :
    '\n' ∉ text.toList := by
  cases l with
  | string s =>
    cases h
    rw [String.toList_ofList]
    have hs : '\n' ∉ s.toList := by simpa [Lexeme.isCut] using hl
    exact fun hmem => hs (List.mem_of_mem_drop (List.mem_of_mem_dropLast hmem))
  | _ =>
    exact Lexeme.newline_not_mem_of_isName (Lexeme.isName_of_isMemberText (isMemberText_of_nameFrom ⟨_, hl, h⟩))

theorem isCut_called {f : Node} {args : List Argument} {s : Span} (hf : !f.isEquals)
    (hargs : ∀ a ∈ args, !a.value.isEquals ∧
      ∀ text, a.name = some text → ∃ l : Lexeme, l.isCut ∧ argumentText? l = some text) :
    (called f args s).isCut := by
  have hall : args.all Argument.isCut := by
    refine List.all_eq_true.2 fun a ha => ?_
    obtain ⟨hvalue, hname⟩ := hargs a ha
    simp only [Argument.isCut, hvalue, Bool.true_and]
    cases hn : a.name with
    | none => rfl
    | some text =>
      obtain ⟨l, hl, htext⟩ := hname text hn
      simpa using newline_not_mem_of_argumentText? hl htext
  obtain ⟨hcall, hreturn⟩ | ⟨x?, hjump, hx⟩ := called_cases f args s
  · rw [hcall, Node.isCut, hall, hreturn, Bool.and_true, Bool.and_eq_true]
    exact ⟨hf, rfl⟩
  · rw [hjump]
    cases x? with
    | none => rfl
    | some x =>
      obtain ⟨a, ha, rfl⟩ := hx x rfl
      exact (hargs a ha).1

theorem respects_isCut [Text.CharNames] : Respects (fun l => l.isCut) Node.isCut where
  bare := Node.isCut_bare
  arrow h := respects_isSpelled.arrow h
  number _ h := Literal.isCut_of_number h
  string _ _ := rfl
  boolean := rfl
  null := rfl
  identifier h := h
  unary ho hx := Node.isCut_of_isSpelled (respects_isSpelled.unary ho hx)
  binary ho hk hl hr := Node.isCut_of_isSpelled (respects_isSpelled.binary ho hk hl hr)
  called := isCut_called
  index ht hxs hall := Node.isCut_of_isSpelled (respects_isSpelled.index ht hxs hall)
  member ht hname := by
    simp only [Node.isCut, Node.isSpelled, Bool.and_eq_true]
    exact ⟨ht, isMemberText_of_nameFrom hname⟩
  block := rfl
  assign hop ht hv := Node.isCut_of_isSpelled (respects_isSpelled.assign hop ht hv)
  cond hc := hc
  whileLoop hc := hc
  repeatLoop := rfl
  forLoop hv hx := by
    simp only [Node.isCut, Bool.and_eq_true]
    exact ⟨isMemberText_of_nameFrom hv, hx⟩
  function hps := by
    refine List.all_eq_true.2 fun a ha => ?_
    obtain ⟨hname, hdefault⟩ := hps a ha
    simp only [Parameter.isCut, isMemberText_of_nameFrom hname, Bool.true_and]
    cases hd : a.default? with
    | none => rfl
    | some d => exact hdefault d hd
  leave hk := Node.isCut_of_isSpelled (isSpelled_leave hk)

end Grammar

theorem Program.isCut_of_parse [Text.CharNames] {source file : String} {p : Program} (h : parse source file = .ok p) :
    p.all Node.isCut := by
  have hcut : Grammar.Each (fun l => l.isCut) (lexemes source.toList) := by
    intro l hl
    obtain ⟨c, r, -, hscan⟩ := exists_scan_of_mem hl
    exact Lexeme.isCut_of_scan hscan
  have hbare : allNodes Node.isCut (bareNodes p.body) :=
    Grammar.respects_isCut.fine_of_derives (derives_of_parse h) hcut
  rwa [allNodes_bare Node.isCut_bare] at hbare

end Deadwood
