import Deadwood.Proofs.Derived
import Deadwood.Proofs.Regular

/-! Trees whose names, numbers and operators can be cut again. A name that stands in a script is cut as
that name in every other place too, provided that nothing behind it continues it. -/
namespace Deadwood
open Text

theorem Keyword.eq_text_of_ofText? {s : String} {k : Keyword} (h : ofText? s = some k) : s = k.text := by
  unfold ofText? at h
  split at h <;> cases h <;> rfl

theorem Keyword.isAlpha_of_ofText? {c : Char} {r : List Char} {k : Keyword}
    (h : ofText? (String.ofList (c :: r)) = some k) : c.isAlpha := by
  have htext := congrArg String.toList (eq_text_of_ofText? h)
  have hhead : k.text.toList.head?.all Char.isAlpha := by cases k <;> decide
  simpa [← htext, String.toList_ofList] using hhead

namespace Lexeme

/-- A character that continues neither a word nor a number. -/
def bounds (c : Char) : Bool := !continuesName c && !isSign c

/-- What follows a word does not continue it. -/
def Bounded (rest : List Char) : Prop := ∀ c, rest.head? = some c → bounds c

theorem bounded_cons (h : bounds c) : Bounded (c :: r) := by simpa [Bounded] using h

/-- A text that is cut as one lexeme. -/
def isCutAs (l : Lexeme) (s : String) : Bool :=
  match s.toList with
  | c :: r => scanWordOrNumber c r == (l, r.length)
  | [] => false

def isNameText (s : String) : Bool := isCutAs (.name s) s

def isNumberText (s : String) : Bool := isCutAs (.number s) s

theorem isCutAs_iff {l : Lexeme} {s : String} :
    isCutAs l s ↔ ∃ c r, s.toList = c :: r ∧ scanWordOrNumber c r = (l, r.length) := by
  unfold isCutAs
  cases s.toList with
  | nil => simp
  | cons c r => simp [and_assoc]

/-- What a name or a reserved word starts with. -/
def startsWord (c : Char) : Bool := c.isAlpha || c == '.'

theorem startsWord_of_scanWordOrNumber {c : Char} {r : List Char} (h : scanWordOrNumber c r = (.name s, n)) :
    startsWord c ∧ scanWord c r = (.name s, n) := by
  obtain hword | ⟨-, hnumber⟩ | ⟨hstray, -⟩ := scanWordOrNumber_cases h
  · exact hword
  · obtain ⟨_, _, heq⟩ := Option.map_eq_some_iff.1 hnumber
    cases heq
  · cases hstray

theorem word_ne_number (cs : List Char) : word cs ≠ .number s := by
  obtain ⟨k, -, heq⟩ | ⟨-, heq⟩ := word_cases cs <;> rw [heq] <;> exact nofun

theorem scanNumber_of_scanWordOrNumber {c : Char} {r : List Char} (h : scanWordOrNumber c r = (.number s, n)) :
    ¬c.isAlpha ∧ scanNumber c r = some (.number s, n) := by
  obtain ⟨-, hword⟩ | hnumber | ⟨hstray, -⟩ := scanWordOrNumber_cases h
  · exact absurd (Prod.mk.inj hword).1 (word_ne_number _)
  · exact hnumber
  · cases hstray

/-- What a number starts with. -/
theorem starts_of_numberLength? {c : Char} {r : List Char} (h : numberLength? (c :: r) = some n) :
    startsWord c || isDecimal c := by
  cases hc : isDecimal c with
  | true => exact Bool.or_true _
  | false =>
    by_cases hpoint : c = '.'
    · simp [startsWord, hpoint]
    · simp [numberLength?, hc, hpoint] at h

theorem starts_of_scanWordOrNumber {c : Char} {r : List Char} (h : scanWordOrNumber c r = (.number s, n)) :
    startsWord c || isDecimal c := by
  obtain ⟨_, hlength, -⟩ := Option.map_eq_some_iff.1 (scanNumber_of_scanWordOrNumber h).2
  exact starts_of_numberLength? hlength

theorem scan_word {c : Char} (hc : startsWord c || isDecimal c) (r : List Char) :
    scan c r = (some (scanWordOrNumber c r).1, (scanWordOrNumber c r).2) := by
  have hne (d : Char) (hd : (startsWord d || isDecimal d) = false) : c ≠ d := by
    rintro rfl
    rw [hd] at hc
    cases hc
  unfold scan
  dsimp only
  rw [if_neg (by simpa using hne '\n' rfl), if_neg (by simp [hne '\r' rfl]),
    if_neg (by simp [isBlank, hne ' ' rfl, hne '\t' rfl, hne '\x0c' rfl, hne '\r' rfl])]
  split
  case h_24 => rw [if_neg (by simp [hne '"' rfl, hne '\'' rfl])]
  all_goals cases hc

theorem lexemes_word {c : Char} {r rest : List Char} (hc : startsWord c || isDecimal c)
    (h : scanWordOrNumber c r = (l, r.length)) (hrest : Bounded rest) : lexemes (c :: r ++ rest) = l :: lexemes rest := by
  have hscan : scanWordOrNumber c (r ++ rest) = (l, r.length) := by
    cases rest with
    | nil => rw [List.append_nil, h]
    | cons x b =>
      have hx : bounds x := hrest x rfl
      simp only [bounds, Bool.and_eq_true, Bool.not_eq_true'] at hx
      rw [scanWordOrNumber_append hx.1 (.inl hx.2), h]
  rw [List.cons_append, lexemes_cons, scan_word hc, hscan, List.drop_left]
  rfl

theorem lexemes_name {s : String} {rest : List Char} (h : isNameText s) (hrest : Bounded rest) :
    lexemes (s.toList ++ rest) = .name s :: lexemes rest := by
  obtain ⟨c, r, hs, h⟩ := isCutAs_iff.1 h
  rw [hs]
  exact lexemes_word (by simp [(startsWord_of_scanWordOrNumber h).1]) h hrest

theorem lexemes_number {s : String} {rest : List Char} (h : isNumberText s) (hrest : Bounded rest) :
    lexemes (s.toList ++ rest) = .number s :: lexemes rest := by
  obtain ⟨c, r, hs, h⟩ := isCutAs_iff.1 h
  rw [hs]
  exact lexemes_word (starts_of_scanWordOrNumber h) h hrest

theorem lexemes_keyword (k : Keyword) {rest : List Char} (hrest : Bounded rest) :
    lexemes (k.text.toList ++ rest) = .keyword k :: lexemes rest := by
  cases k <;> exact lexemes_word (by decide) (by decide) hrest

/-! Names in a script are such texts. -/

theorem scan_eq_name {c : Char} {r : List Char} (h : scan c r = (some (.name s), n)) :
    scanWordOrNumber c r = (.name s, n) :=
  (scanned h).scanWordOrNumber_eq rfl nofun

theorem eq_number_of_scanNumber {c : Char} {r : List Char} (h : scanNumber c r = some (l, m)) :
    l ≠ .name s := by
  obtain ⟨_, _, heq⟩ := Option.map_eq_some_iff.1 h
  cases heq
  exact nofun

/-- A number behind a point is a number unless a name begins there that goes on. -/
theorem scanWordOrNumber_point {r : List Char} (hnumber : scanNumber '.' r = some (l, m))
    (h : isName ('.' :: r.take 1) = false ∨ ((r.drop m).head?.map continuesName).getD false = false) :
    scanWordOrNumber '.' r = (l, m) := by
  unfold scanWordOrNumber
  rw [if_neg (by decide), hnumber]
  dsimp only
  rw [if_neg]
  obtain h | h := h
  · rw [h, Bool.and_false, Bool.false_and]
    exact nofun
  · rw [h, Bool.and_false]
    exact nofun

/-- A number that stops before an open exponent leaves a character of it. -/
theorem numberLength?_of_opensExponent {cs : List Char} (h : opensExponent cs) (hn : numberLength? cs = some n) :
    n + 1 = cs.length := by
  have hlength : cs.length - mantissaLength cs = 1 := by
    rw [← List.length_drop]
    obtain h | h := h <;> rw [h] <;> rfl
  have hmantissa : numberLength? cs = some n → n = mantissaLength cs := by
    rw [numberLength?_eq]
    obtain h | h := h
    all_goals
      simp only [h, exponentLength, Nat.add_zero, List.head?_cons]
      split
      · rintro ⟨⟩
      · rintro ⟨⟩
        rfl
  have := hmantissa hn
  omega

/-- The number at the front of a name is shorter than the name, also when the name is cut out. -/
theorem scanNumber_lt_of_name {r : List Char} (h : scanWordOrNumber '.' r = (.name s, n))
    (hnumber : scanNumber '.' (r.takeWhile continuesName) = some (l, m)) :
    m < (r.takeWhile continuesName).length := by
  refine Nat.lt_of_le_of_ne (scanNumber_le hnumber) fun hm => ?_
  have hsplit := List.takeWhile_append_dropWhile (p := continuesName) (l := r)
  have hcontra (hnumber : scanNumber '.' r = some (l, m))
      (hnext : ((r.drop m).head?.map continuesName).getD false = false) : False := by
    rw [scanWordOrNumber_point hnumber (.inr hnext)] at h
    exact eq_number_of_scanNumber hnumber (Prod.mk.inj h).1
  cases hrest : r.dropWhile continuesName with
  | nil =>
    rw [hrest, List.append_nil] at hsplit
    rw [hsplit] at hnumber hm
    exact hcontra hnumber (by simp [hm])
  | cons x b =>
    have hx : continuesName x = false := by
      have := List.head?_dropWhile_not continuesName r
      simpa [hrest] using this
    rw [hrest] at hsplit
    have hopens : ¬opensExponent ('.' :: r.takeWhile continuesName) := by
      intro hopens
      obtain ⟨k, hk, heq⟩ := Option.map_eq_some_iff.1 hnumber
      have hlength := numberLength?_of_opensExponent hopens hk
      cases heq
      rw [List.length_cons] at hlength
      obtain hempty : (r.takeWhile continuesName).length = 0 := by omega
      rw [List.length_eq_zero_iff.1 hempty] at hk
      cases hk
    rw [← scanNumber_append hx (.inr hopens) b, hsplit] at hnumber
    refine hcontra hnumber ?_
    rw [← hsplit, hm, List.drop_left]
    simp [hx]

theorem exists_scanNumber {d : Char} (hd : isDecimal d) (r : List Char) :
    ∃ l m, scanNumber '.' (d :: r) = some (l, m) := by
  have hmantissa : ¬mantissaLength ('.' :: d :: r) < 2 := by
    have hdigits : mantissaLength ('.' :: d :: r) = 0 + 1 + ((d :: r).takeWhile isDecimal).length := rfl
    rw [hdigits, List.takeWhile_cons_of_pos hd, List.length_cons]
    omega
  unfold scanNumber
  rw [numberLength?_eq]
  simp only [hmantissa, decide_false, Bool.and_false, Bool.false_eq_true, if_false]
  exact ⟨_, _, rfl⟩

theorem isName_front {r : List Char} (h : scanWordOrNumber '.' r = (.name s, n))
    (hnumber : scanNumber '.' (r.takeWhile continuesName) = some (l, m)) :
    isName ('.' :: (r.takeWhile continuesName).take 1) := by
  cases r with
  | nil => cases hnumber
  | cons d r =>
    cases hd : continuesName d with
    | false =>
      rw [List.takeWhile_cons_of_neg (by simp [hd])] at hnumber
      cases hnumber
    | true =>
      cases hdigit : d.isDigit with
      | false => simp [isName, hd, hdigit]
      | true =>
        -- an ASCII digit makes a number of it
        have hdecimal : isDecimal d := by simp [isDecimal, digitValue?, hdigit]
        obtain ⟨l', m', hnumber'⟩ := exists_scanNumber hdecimal r
        rw [scanWordOrNumber_point hnumber' (.inl (by simp [isName, hdigit]))] at h
        exact absurd (Prod.mk.inj h).1 (eq_number_of_scanNumber hnumber')

theorem takeWhile_takeWhile_self (p : α → Bool) (xs : List α) :
    (xs.takeWhile p).takeWhile p = xs.takeWhile p := by
  induction xs with
  | nil => rfl
  | cons x xs ih =>
    cases hx : p x <;> simp [hx, ih]

theorem scanWordOrNumber_takeWhile {c : Char} {r : List Char} (h : scanWordOrNumber c r = (.name s, n)) :
    scanWordOrNumber c (r.takeWhile continuesName) = (.name s, n) := by
  obtain ⟨hc, hword⟩ := startsWord_of_scanWordOrNumber h
  have hword : scanWord c (r.takeWhile continuesName) = (.name s, n) := by
    rw [← hword, scanWord, scanWord, takeWhile_takeWhile_self]
  unfold scanWordOrNumber
  split
  · exact hword
  · next halpha =>
    obtain rfl : c = '.' := by simpa [startsWord, halpha] using hc
    split
    · next l m hnumber =>
      have hlt := scanNumber_lt_of_name h hnumber
      have hnext : (((r.takeWhile continuesName).drop m).head?.map continuesName).getD false = true := by
        rw [List.head?_drop, List.getElem?_eq_getElem hlt]
        exact List.all_eq_true.1 (List.all_takeWhile (p := continuesName)) _ (List.getElem_mem hlt)
      rw [if_pos (by rw [isName_front h hnumber, hnext]; rfl), hword]
    · exact hword

theorem ofText?_of_isNameText {s : String} (h : isNameText s) : Keyword.ofText? s = none := by
  obtain ⟨c, r, hs, h⟩ := isCutAs_iff.1 h
  obtain ⟨hword, -⟩ := Prod.mk.inj (startsWord_of_scanWordOrNumber h).2
  obtain ⟨k, -, heq⟩ | ⟨hnone, heq⟩ := word_cases (c :: r.takeWhile continuesName)
  · cases heq.symm.trans hword
  · cases heq.symm.trans hword
    exact hnone

theorem isNameText_of_scan {c : Char} {r : List Char} (h : scan c r = (some (.name s), n)) : isNameText s := by
  have h := scan_eq_name h
  have hname := scanWordOrNumber_takeWhile h
  obtain ⟨hword, rfl⟩ := Prod.mk.inj (startsWord_of_scanWordOrNumber h).2
  have hs : s = String.ofList (c :: r.takeWhile continuesName) := by
    obtain ⟨k, -, heq⟩ | ⟨-, heq⟩ := word_cases (c :: r.takeWhile continuesName)
    · cases heq.symm.trans hword
    · exact (Lexeme.name.inj (heq.symm.trans hword)).symm
  rw [hs] at hname ⊢
  exact isCutAs_iff.2 ⟨_, _, String.toList_ofList, hname⟩

theorem isName_of_isNameText {s : String} (h : isNameText s) : isName s.toList := by
  obtain ⟨c, r, hs, h⟩ := isCutAs_iff.1 h
  obtain ⟨hc, hword⟩ := startsWord_of_scanWordOrNumber h
  have hall : r.all continuesName := by
    have hlength : (r.takeWhile continuesName).length = r.length := (Prod.mk.inj hword).2
    rw [← (List.takeWhile_prefix continuesName).eq_of_length hlength]
    exact List.all_takeWhile
  rw [hs]
  match r with
  | [] =>
    unfold isName
    split
    · simp_all
    · simp_all [startsWord]
    · simp_all
  | d :: r =>
    by_cases hpoint : c = '.'
    · subst hpoint
      cases hdigit : d.isDigit with
      | false => simpa [isName, hdigit] using hall
      | true =>
        have hdecimal : isDecimal d := by simp [isDecimal, digitValue?, hdigit]
        obtain ⟨l, m, hnumber⟩ := exists_scanNumber hdecimal r
        rw [scanWordOrNumber_point hnumber (.inl (by simp [isName, hdigit]))] at h
        exact absurd (Prod.mk.inj h).1 (eq_number_of_scanNumber hnumber)
    · simp_all [isName, startsWord]

/-! Numbers hold digits, a point, letters and signs. -/

/-- A character of a number. -/
def isNumeric (c : Char) : Bool := continuesName c || isSign c

theorem isNumeric_of_isDecimal {c : Char} (h : isDecimal c) : isNumeric c := by
  simp [isNumeric, continuesName, isWord_of_isDecimal h]

theorem isNumeric_digits (cs : List Char) : ∀ c ∈ cs.takeWhile isDecimal, isNumeric c := by
  intro c hc
  exact isNumeric_of_isDecimal (List.all_eq_true.1 List.all_takeWhile c hc)

theorem take_length_takeWhile (p : α → Bool) (xs : List α) : xs.take (xs.takeWhile p).length = xs.takeWhile p :=
  (List.prefix_iff_eq_take.1 (List.takeWhile_prefix p)).symm

theorem isNumeric_mantissa (cs : List Char) : ∀ c ∈ cs.take (mantissaLength cs), isNumeric c := by
  unfold mantissaLength
  dsimp only
  split
  · next r hr =>
    rw [Nat.add_assoc, List.take_add, hr, Nat.add_comm 1, List.take_succ_cons, take_length_takeWhile,
      take_length_takeWhile]
    simp only [List.forall_mem_append, List.forall_mem_cons]
    exact ⟨isNumeric_digits cs, rfl, isNumeric_digits r⟩
  · rw [take_length_takeWhile]
    exact isNumeric_digits cs

theorem isNumeric_exponent (cs : List Char) : ∀ c ∈ cs.take (exponentLength cs), isNumeric c := by
  match cs with
  | [] | [_] => simp [exponentLength]
  | e :: s :: r =>
    by_cases he : e = 'e' ∨ e = 'E'
    · have hletter : isNumeric e := by obtain rfl | rfl := he <;> rfl
      have he : (e == 'e' || e == 'E') = true := by simpa using he
      cases hs : s == '+' || s == '-' with
      | true =>
        simp only [exponentLength, he, hs, if_true]
        split
        · simp
        · rw [List.take_succ_cons, List.take_succ_cons, take_length_takeWhile]
          simp only [List.forall_mem_cons]
          exact ⟨hletter, by simp [isNumeric, isSign, hs], isNumeric_digits r⟩
      | false =>
        simp only [exponentLength, he, hs, if_true, Bool.false_eq_true, if_false]
        split
        · simp
        · rw [List.take_succ_cons, take_length_takeWhile]
          exact List.forall_mem_cons.2 ⟨hletter, isNumeric_digits (s :: r)⟩
    · simp [exponentLength, he]

theorem isNumeric_of_numberLength? {cs : List Char} (h : numberLength? cs = some n) : ∀ c ∈ cs.take n, isNumeric c := by
  rw [numberLength?_eq] at h
  dsimp only at h
  split at h
  · cases h
  · cases h
    rw [List.take_add, List.take_add]
    simp only [List.forall_mem_append]
    refine ⟨⟨isNumeric_mantissa cs, isNumeric_exponent _⟩, ?_⟩
    split
    · next hsuffix =>
      obtain ⟨r, hr⟩ := List.head?_eq_some_iff.1 (eq_of_beq hsuffix)
      rw [hr]
      exact List.forall_mem_singleton.2 rfl
    · simp

theorem isNumeric_of_isNumberText {s : String} (h : isNumberText s) : ∀ c ∈ s.toList, isNumeric c := by
  obtain ⟨c, r, hs, h⟩ := isCutAs_iff.1 h
  obtain ⟨n, hn, heq⟩ := Option.map_eq_some_iff.1 (scanNumber_of_scanWordOrNumber h).2
  have htext : s = String.ofList ((c :: r).take n) := (Lexeme.number.inj (Prod.mk.inj heq).1).symm
  rw [htext, String.toList_ofList]
  exact isNumeric_of_numberLength? hn

/-! A few numbers can stand for a name, but not everywhere. -/

def isMemberText (s : String) : Bool := isNameText s || isNumberText s && isName s.toList

/-- The lexeme that such a text is cut as. -/
def member (s : String) : Lexeme := if isNameText s then .name s else .number s

theorem member_cases (s : String) : member s = .name s ∨ member s = .number s := by
  unfold member
  split
  · exact .inl rfl
  · exact .inr rfl

theorem lexemes_member {s : String} {rest : List Char} (h : isNameText s || isNumberText s) (hrest : Bounded rest) :
    lexemes (s.toList ++ rest) = member s :: lexemes rest := by
  unfold member
  split
  · next hname => exact lexemes_name hname hrest
  · next hname => exact lexemes_number (by simpa [hname] using h) hrest

/-- No text is cut in two ways. -/
theorem member_of_isNumberText {s : String} (h : isNumberText s) : member s = .number s := by
  refine if_neg fun hname => ?_
  obtain ⟨c, r, hs, hscan⟩ := isCutAs_iff.1 h
  obtain ⟨c', r', hs', hscan'⟩ := isCutAs_iff.1 hname
  cases hs.symm.trans hs'
  cases hscan.symm.trans hscan'

theorem isCut_of_isMemberText {s : String} (h : isMemberText s) : isNameText s || isNumberText s := by
  simp only [isMemberText, Bool.or_eq_true, Bool.and_eq_true] at h ⊢
  exact h.imp_right And.left

theorem isName_of_isMemberText {s : String} (h : isMemberText s) : isName s.toList := by
  simp only [isMemberText, Bool.or_eq_true, Bool.and_eq_true] at h
  obtain h | h := h
  · exact isName_of_isNameText h
  · exact h.2

theorem name?_member {s : String} (h : isMemberText s) : (member s).name? = some s := by
  unfold member
  split
  · rfl
  · exact if_pos (isName_of_isMemberText h)

theorem isName_cons {c : Char} {r : List Char} (h : isName (c :: r)) : startsWord c ∧ r.all continuesName := by
  unfold isName at h
  split at h
  · next heq =>
    cases heq
    simp only [Bool.and_eq_true] at h
    exact ⟨rfl, h.2⟩
  · next heq =>
    cases heq
    simpa [startsWord] using h
  · cases h

/-- Every name can be such a text, unless it is reserved. -/
theorem isMemberText_of_isName {s : String} (h : isName s.toList) (hword : Keyword.ofText? s = none) :
    isMemberText s := by
  cases hs : s.toList with
  | nil =>
    rw [hs] at h
    cases h
  | cons c r =>
    have hname : isName (c :: r) := hs ▸ h
    obtain ⟨hc, hr⟩ := isName_cons hname
    have htake : r.takeWhile continuesName = r := by
      have happend : (r ++ []).takeWhile continuesName = r ++ [].takeWhile continuesName :=
        List.takeWhile_append_of_pos fun d hd => List.all_eq_true.1 hr d hd
      simpa using happend
    have hchars : String.ofList (c :: r) = s := by rw [← hs, String.ofList_toList]
    have hscan : scanWord c r = (.name s, r.length) := by
      rw [scanWord, htake, word, hchars, hword]
    have htext (h : scanWordOrNumber c r = (.name s, r.length)) : isMemberText s := by
      simp [isMemberText, isNameText, isCutAs_iff.2 ⟨c, r, hs, h⟩]
    cases halpha : c.isAlpha with
    | true => exact htext (by rw [scanWordOrNumber, halpha, if_pos rfl, hscan])
    | false =>
      obtain rfl : c = '.' := by simpa [startsWord, halpha] using hc
      cases hnumber : scanNumber '.' r with
      | none => exact htext (by simp [scanWordOrNumber, hnumber, hscan])
      | some cut =>
        obtain ⟨l, n⟩ := cut
        cases hmore : ((r.drop n).head?.map continuesName).getD false with
        | true =>
          have hfront : isName ('.' :: r.take 1) := by
            cases r with
            | nil => rfl
            | cons d r => simp_all [isName]
          refine htext ?_
          rw [scanWordOrNumber, halpha, hnumber]
          simp only [hfront, hmore, hscan]
          rfl
        | false =>
          -- the number takes the whole text
          have hn : n = r.length := by
            refine Nat.le_antisymm (scanNumber_le hnumber) (Nat.not_lt.1 fun hlt => ?_)
            have hnext := List.all_eq_true.1 hr _ (List.getElem_mem hlt)
            rw [List.head?_drop, List.getElem?_eq_getElem hlt] at hmore
            simp [hnext] at hmore
          have hl : l = .number s := by
            obtain ⟨k, hk, heq⟩ := Option.map_eq_some_iff.1 hnumber
            obtain ⟨rfl, hlength⟩ := Prod.mk.inj heq
            have hlong : r.length ≠ 0 := by
              intro hempty
              rw [List.length_eq_zero_iff.1 hempty] at hk
              cases hk
            rw [List.take_of_length_le (by rw [List.length_cons]; omega), hchars]
          have hcut : isNumberText s := by
            refine isCutAs_iff.2 ⟨'.', r, hs, ?_⟩
            rw [scanWordOrNumber_point hnumber (.inr hmore), hl, hn]
          simp [isMemberText, hcut, h]

theorem numberLength?_of_isAlpha {c : Char} (hc : c.isAlpha) (r : List Char) : numberLength? (c :: r) = none := by
  have hdigit : c.isDigit = false := by
    cases h : c.isDigit with
    | false => rfl
    | true => exact absurd hc (by simp [not_isAlpha_of_isDigit h])
  have hascii : c.toNat < 128 := (isAlphanum_bounds (by simp [Char.isAlphanum, hc])).2
  have hdecimal : isDecimal c = false := by simp [isDecimal, digitValue?, hdigit, hascii]
  have hpoint : c ≠ '.' := by
    rintro rfl
    cases hc
  simp [numberLength?, hdecimal, hpoint]

/-- A text that is cut as a number is a number as a whole. -/
theorem numberLength?_of_isNumberText {s : String} (h : isNumberText s) :
    numberLength? s.toList = some s.toList.length := by
  obtain ⟨c, r, hs, hscan⟩ := isCutAs_iff.1 h
  obtain ⟨n, hn, heq⟩ := Option.map_eq_some_iff.1 (scanNumber_of_scanWordOrNumber hscan).2
  obtain ⟨htext, hlength⟩ := Prod.mk.inj heq
  have hne : n ≠ 0 := by
    rintro rfl
    have hchars := congrArg String.toList (Lexeme.number.inj htext)
    rw [List.take_zero, String.toList_ofList, hs] at hchars
    cases hchars
  rw [hs, hn, List.length_cons]
  congr 1
  omega

theorem isNumberText_of_isName {s : String} (hname : isName s.toList)
    (h : numberLength? s.toList = some s.toList.length) : isNumberText s := by
  cases hs : s.toList with
  | nil =>
    rw [hs] at hname
    cases hname
  | cons c r =>
    rw [hs] at hname h
    cases halpha : c.isAlpha with
    | true =>
      rw [numberLength?_of_isAlpha halpha] at h
      cases h
    | false =>
      obtain rfl : c = '.' := by simpa [startsWord, halpha] using (isName_cons hname).1
      have hnumber : scanNumber '.' r = some (.number s, r.length) := by
        rw [scanNumber, h, Option.map_some, List.take_length, ← hs, String.ofList_toList]
        simp [hs]
      exact isCutAs_iff.2 ⟨'.', r, hs, scanWordOrNumber_point hnumber (.inr (by simp))⟩

/-- A name that is no reserved word. -/
def isFreeName (s : String) : Bool := isName s.toList && (Keyword.ofText? s).isNone

theorem isMemberText_of_isFreeName {s : String} (h : isFreeName s) : isMemberText s := by
  simp only [isFreeName, Bool.and_eq_true, Option.isNone_iff_eq_none] at h
  exact isMemberText_of_isName h.1 h.2

/-- Such a name is cut as a name, unless all of it could be a number. -/
theorem isNameText_iff {s : String} (h : isFreeName s) :
    isNameText s ↔ numberLength? s.toList ≠ some s.toList.length := by
  constructor
  · intro hcut hlength
    have hmember := member_of_isNumberText (isNumberText_of_isName (isName_of_isNameText hcut) hlength)
    rw [member, if_pos hcut] at hmember
    cases hmember
  · intro hlength
    obtain hcut | hcut := Bool.or_eq_true_iff.1 (isCut_of_isMemberText (isMemberText_of_isFreeName h))
    · exact hcut
    · exact absurd (numberLength?_of_isNumberText hcut) hlength

theorem percentTail_append {r : List Char} (h : percentTail r = some n) (b : List Char) :
    percentTail (r ++ b) = some n := by
  fun_induction percentTail r generalizing n with
  | case4 c r hc hspace ih =>
    obtain ⟨m, hm, rfl⟩ := Option.map_eq_some_iff.1 h
    simp [percentTail, hc, hspace, ih hm]
  | _ => simp_all [percentTail]

end Lexeme

/-- An operator of the language, or one in percent signs that is cut as written. -/
def BinaryOp.isSpelled : BinaryOp → Bool
  | .special s =>
    (match s.toList with
      | '%' :: r => Lexeme.percentTail r == some r.length
      | _ => false) && ofText s == .special s
  | .unknown _ => false
  | _ => true

namespace Lexeme

theorem lexemes_op {op : BinaryOp} (h : op.isSpelled) (r : List Char) :
    lexemes (op.text.toList ++ ' ' :: r) = .op op :: lexemes (' ' :: r) := by
  cases op with
  | arith a => cases a <;> exact lexemes_cons _ _
  | rel o => cases o <;> exact lexemes_cons _ _
  | special s => 
    simp only [BinaryOp.isSpelled, Bool.and_eq_true, beq_iff_eq] at h
    obtain ⟨hs, hof⟩ := h
    split at hs
    · next t ht =>
      have htail := percentTail_append (by simpa using hs) (' ' :: r)
      have hscan : scan '%' (t ++ ' ' :: r) = (some (.op (.special s)), t.length) := by
        simp [scan, isBlank, htail, ← ht, hof]
      rw [BinaryOp.text, ht, List.cons_append, lexemes_cons, hscan, List.drop_left]
      rfl
    · cases hs
  | unknown => cases h
  | _ => exact lexemes_cons _ _

/-- The lexemes that a script without literals is cut into. -/
def isSpelled : Lexeme → Bool
  | .name s => isNameText s
  | .op o => o.isSpelled
  | .assign o => o == .arrow || o == .superArrow
  | .number _ | .string _ => false
  | _ => true

def isLiteral : Lexeme → Bool
  | .number _ | .string _ => true
  | _ => false

theorem percentTail_take {r : List Char} (h : percentTail r = some n) : percentTail (r.take n) = some n := by
  fun_induction percentTail r generalizing n with
  | case4 c r hc hspace ih =>
    obtain ⟨m, hm, rfl⟩ := Option.map_eq_some_iff.1 h
    simp [percentTail, hc, hspace, ih hm]
  | case2 c r hc =>
    cases h
    simp [percentTail, hc]
  | _ => cases h

theorem isSpelled_ofText {r : List Char} (h : percentTail r = some n) :
    (BinaryOp.ofText (String.ofList ('%' :: r.take n))).isSpelled := by
  have htail : percentTail (r.take n) = some (r.take n).length := by
    rw [percentTail_take h, List.length_take_of_le (percentTail_le h)]
  have hlast := getLast?_of_percentTail h
  generalize hs : String.ofList ('%' :: r.take n) = s
  have hchars : s.toList = '%' :: r.take n := by rw [← hs, String.toList_ofList]
  have hcases : BinaryOp.ofText s = .special s ∨ (BinaryOp.ofText s).isSpelled := by
    unfold BinaryOp.ofText
    split
    case h_19 => exact .inl (if_pos (by simp [hchars, List.getLast?_cons, hlast]))
    all_goals exact .inr rfl
  obtain hspecial | hspelled := hcases
  · simp [hspecial, BinaryOp.isSpelled, hchars, htail]
  · exact hspelled

theorem isSpelled_of_scan {c : Char} {r : List Char} {l : Lexeme} (h : (scan c r).1 = some l)
    (hl : l.isLiteral = false) : l.isSpelled := by
  obtain ⟨n, hscan⟩ := exists_scanned h
  cases hscan with
  | breaks | closeBracket | superArrow | stray => rfl
  | mark hmark =>
    have hmarks : ∀ m ∈ marks, m.2.isSpelled := by decide
    exact hmarks _ hmark
  | pair hpair =>
    have hpairs : ∀ m ∈ pairs, m.2.2.isSpelled := by decide
    exact hpairs _ hpair
  | percent htail => exact isSpelled_ofText htail
  | string => cases hl
  | word hword =>
    cases l with
    | name s => exact isNameText_of_scan (n := (scan c r).2) (Prod.ext h rfl)
    | keyword | stray => rfl
    | number => cases hl
    | _ => cases isWordOrNumber_of_scanWordOrNumber hword

end Lexeme

/-! Trees made of such names, numbers and operators, without strings. -/

def Argument.isSpelled (a : Argument) : Bool := !a.value.isEquals && (a.name.map Lexeme.isNameText).getD true

def Parameter.isSpelled (a : Parameter) : Bool :=
  Lexeme.isNameText a.name && (a.default?.map (!·.isEquals)).getD true

/-- A call that stands for leaving a function is written as one. -/
def Node.isReturn (f : Node) (args : List Argument) : Bool := (Grammar.called f args .blank).isJump

/-- A number that is written without a sign and read back from what is written. -/
def Number.isSpelled (v : Number) (isInteger : Bool) : Bool :=
  !v.isNegative && (Print.number v isInteger).toOption.any
    fun text => Lexeme.isNumberText text && (Literal.number text).toOption == some (v, isInteger)

/-- The names, numbers and operators of a node are spelled as they were, and `=` assigns in statements
only. -/
def Node.isSpelled : Node → Bool
  | .number _ v i => v.isSpelled i
  | .string .. => false
  | .boolean .. | .null .. | .block .. | .repeatLoop .. => true
  | .identifier id => Lexeme.isNameText id.name
  | .unary _ op x => op.precedence?.isSome && !x.isEquals
  | .binary _ op l r => op.isSpelled && !l.isEquals && !r.isEquals
  | .call _ f args => !f.isEquals && args.all Argument.isSpelled && !isReturn f args
  | .index _ t xs _ => !t.isEquals && !xs.isEmpty && xs.all (!·.isEquals)
  | .member _ t name => !t.isEquals && Lexeme.isMemberText name
  | .assign _ op t v => (Lexeme.isSpelled (.assign op) || op == .equals) && !t.isEquals && !v.isEquals
  | .cond _ c _ _ | .whileLoop _ c _ => !c.isEquals
  | .forLoop _ v x _ => Lexeme.isNameText v.name && !x.isEquals
  | .function _ ps _ => ps.all Parameter.isSpelled
  | .jump _ .ret x? => (x?.map (!·.isEquals)).getD true
  | .jump _ _ x? => x?.isNone

/-! All that is printed is cut again, though not always as what it was: infinity is written as a name, strings may stand
anywhere, and the name of an argument may be any text on one line. -/

def Number.isCut (v : Number) (isInteger : Bool) : Bool :=
  !v.isNegative && (Print.number v isInteger).toOption.any
    fun text => text == "inf" || Lexeme.isNumberText text && (Literal.number text).toOption.isSome

def Argument.isCut (a : Argument) : Bool :=
  !a.value.isEquals && (a.name.map fun s => !s.toList.contains '\n').getD true

def Parameter.isCut (a : Parameter) : Bool :=
  Lexeme.isMemberText a.name && (a.default?.map (!·.isEquals)).getD true

def Node.isCut : Node → Bool
  | .number _ v i => v.isCut i
  | .string .. => true
  | .call _ f args => !f.isEquals && args.all Argument.isCut && !isReturn f args
  | .forLoop _ v x _ => Lexeme.isMemberText v.name && !x.isEquals
  | .function _ ps _ => ps.all Parameter.isCut
  | n => n.isSpelled

theorem Lexeme.isMemberText_of_isNameText {s : String} (h : isNameText s) : isMemberText s := by
  simp [isMemberText, h]

theorem Lexeme.newline_not_mem_of_isName {s : String} (h : isName s.toList) : '\n' ∉ s.toList := by
  intro hmem
  cases hs : s.toList with
  | nil =>
    rw [hs] at hmem
    cases hmem
  | cons c r =>
    rw [hs] at h hmem
    obtain ⟨hc, hr⟩ := isName_cons h
    obtain rfl | hmem := List.mem_cons.1 hmem
    · exact absurd hc (by decide)
    · exact absurd (List.all_eq_true.1 hr _ hmem) (by decide)

theorem Number.isCut_of_isSpelled {v : Number} {isInteger : Bool} (h : v.isSpelled isInteger) :
    v.isCut isInteger := by
  unfold isSpelled at h
  unfold isCut
  cases hprint : Print.number v isInteger <;> simp_all [Except.toOption]

theorem Argument.isCut_of_isSpelled {a : Argument} (h : a.isSpelled) : a.isCut := by
  obtain ⟨_, _ | name, v⟩ := a
  · exact h
  · simp only [isSpelled, Option.map_some, Option.getD_some, Bool.and_eq_true] at h
    have hname := Lexeme.newline_not_mem_of_isName (Lexeme.isName_of_isNameText h.2)
    simpa [isCut, hname] using h.1

theorem Parameter.isCut_of_isSpelled {a : Parameter} (h : a.isSpelled) : a.isCut := by
  simp only [isSpelled, Bool.and_eq_true] at h
  simp only [isCut, Lexeme.isMemberText_of_isNameText h.1, h.2, Bool.and_self]

theorem Node.isCut_of_isSpelled {n : Node} (h : n.isSpelled) : n.isCut := by
  cases n with
  | number => exact Number.isCut_of_isSpelled h
  | string => rfl
  | call s f args =>
    simp only [isSpelled, isCut, Bool.and_eq_true, List.all_eq_true] at h ⊢
    exact ⟨⟨h.1.1, fun a ha => Argument.isCut_of_isSpelled (h.1.2 a ha)⟩, h.2⟩
  | forLoop s v x b =>
    simp only [isSpelled, isCut, Bool.and_eq_true] at h ⊢
    exact ⟨Lexeme.isMemberText_of_isNameText h.1, h.2⟩
  | function s ps b =>
    simp only [isSpelled, isCut, List.all_eq_true] at h ⊢
    exact fun a ha => Parameter.isCut_of_isSpelled (h a ha)
  | _ => exact h

theorem allNodes_isCut {ns : List Node} (h : allNodes Node.isSpelled ns) : allNodes Node.isCut ns :=
  allNodes_imp (fun _ _ => Node.isCut_of_isSpelled) ns h h

theorem Node.all_isCut {n : Node} (h : n.all Node.isSpelled) : n.all Node.isCut :=
  n.all_imp (fun _ _ => Node.isCut_of_isSpelled) h h

theorem Node.isJump_bare (n : Node) : n.bare.isJump = n.isJump := by
  cases n with
  | cond s c t e? => cases e? <;> rfl
  | jump s k x? => cases x? <;> rfl
  | _ => rfl

theorem Node.isReturn_bare (f : Node) (args : List Argument) :
    isReturn f.bare (bareArguments args) = isReturn f args := by
  rw [isReturn, ← Grammar.called_bare f args .blank, isJump_bare, isReturn]

theorem Argument.isSpelled_bare (a : Argument) : a.bare.isSpelled = a.isSpelled := by
  obtain ⟨_, name, v⟩ := a
  simp [Argument.bare, isSpelled, Node.isEquals_bare]

theorem Parameter.isSpelled_bare (a : Parameter) : a.bare.isSpelled = a.isSpelled := by
  obtain ⟨_, _, _ | d⟩ := a <;> simp [Parameter.bare, isSpelled, Node.isEquals_bare]

theorem Node.isSpelled_bare (n : Node) : n.bare.isSpelled = n.isSpelled := by
  cases n with
  | call s f args =>
    have hargs : (bareArguments args).all Argument.isSpelled = args.all Argument.isSpelled := by
      simp [bareArguments_eq_map, List.all_map, Function.comp_def, Argument.isSpelled_bare]
    simp only [Node.bare, isSpelled, isEquals_bare, isReturn_bare, hargs]
  | index s t xs d =>
    simp [Node.bare, isSpelled, isEquals_bare, bareNodes_eq_map, List.all_map, Function.comp_def]
  | function s ps b =>
    simp [Node.bare, isSpelled, bareParameters_eq_map, List.all_map, Function.comp_def,
      Parameter.isSpelled_bare]
  | cond s c t e? => cases e? <;> simp [Node.bare, isSpelled, isEquals_bare]
  | jump s k x? => cases k <;> cases x? <;> simp [Node.bare, isSpelled, isEquals_bare]
  | _ => simp [Node.bare, isSpelled, isEquals_bare]

namespace Grammar

theorem isNameText_of_nameFrom (h : NameFrom (fun l => l.isSpelled) text) : Lexeme.isNameText text := by
  obtain ⟨l, hl, hname⟩ := h
  cases l with
  | name s =>
    cases hname
    exact hl
  | number => cases hl
  | _ => cases hname

/-- A call stays a call unless it leaves a function, with at most one plain argument. -/
theorem called_cases (f : Node) (args : List Argument) (s : Span) :
    called f args s = .call s f args ∧ Node.isReturn f args = false ∨
      ∃ x?, called f args s = .jump s .ret x? ∧ ∀ x, x? = some x → ∃ a ∈ args, a.value = x := by
  unfold Node.isReturn called
  split
  · exact .inr ⟨none, rfl, nofun⟩
  · exact .inr ⟨some _, rfl, by simp⟩
  · exact .inl ⟨rfl, rfl⟩

theorem isSpelled_called {f : Node} {args : List Argument} {s : Span} (hf : !f.isEquals)
    (hargs : ∀ a ∈ args, !a.value.isEquals ∧
      ∀ text, a.name = some text → ∃ l : Lexeme, l.isSpelled ∧ argumentText? l = some text) :
    (called f args s).isSpelled := by
  have hall : args.all Argument.isSpelled := by
    refine List.all_eq_true.2 fun a ha => ?_
    obtain ⟨hvalue, hname⟩ := hargs a ha
    simp only [Argument.isSpelled, hvalue, Bool.true_and]
    cases hn : a.name with
    | none => rfl
    | some text =>
      obtain ⟨l, hl, htext⟩ := hname text hn
      cases l with
      | string => cases hl
      | _ => exact isNameText_of_nameFrom ⟨_, hl, htext⟩
  obtain ⟨hcall, hreturn⟩ | ⟨x?, hjump, hx⟩ := called_cases f args s
  · rw [hcall, Node.isSpelled, hall, hreturn, Bool.and_true, Bool.and_eq_true]
    exact ⟨hf, rfl⟩
  · rw [hjump]
    cases x? with
    | none => rfl
    | some x =>
      obtain ⟨a, ha, rfl⟩ := hx x rfl
      exact (hargs a ha).1

theorem isSpelled_leave {k : Keyword} {j : Jump} {s : Span} (hk : leaves? k = some j) :
    (Node.jump s j none).isSpelled := by
  cases k with
  | breakWord | nextWord =>
    cases hk
    rfl
  | _ => cases hk

theorem respects_isSpelled [Text.CharNames] : Respects (fun l => l.isSpelled) Node.isSpelled where
  bare := Node.isSpelled_bare
  arrow h := by
    rintro rfl
    cases h
  number h := by cases h
  string h := by cases h
  boolean := rfl
  null := rfl
  identifier h := h
  unary ho hx := by simpa [Node.isSpelled, ho] using hx
  binary ho _ hl hr := by
    simp only [Node.isSpelled, Bool.and_eq_true]
    exact ⟨⟨ho, hl⟩, hr⟩
  called := isSpelled_called
  index ht hxs hall := by
    simp only [Node.isSpelled, Bool.and_eq_true, List.all_eq_true]
    exact ⟨⟨ht, by simpa using hxs⟩, hall⟩
  member ht hname := by simp_all [Node.isSpelled, Lexeme.isMemberText, isNameText_of_nameFrom hname]
  block := rfl
  assign hop ht hv := by
    simp only [Node.isSpelled, Bool.and_eq_true, Bool.or_eq_true, beq_iff_eq]
    exact ⟨⟨hop, ht⟩, hv⟩
  cond hc := hc
  whileLoop hc := hc
  repeatLoop := rfl
  forLoop hv hx := by simp_all [Node.isSpelled, isNameText_of_nameFrom hv]
  function hps := by
    refine List.all_eq_true.2 fun a ha => ?_
    obtain ⟨hname, hdefault⟩ := hps a ha
    simp only [Parameter.isSpelled, isNameText_of_nameFrom hname, Bool.true_and]
    cases hd : a.default? with
    | none => rfl
    | some d => exact hdefault d hd
  leave := isSpelled_leave

end Grammar

theorem Program.isSpelled_of_parse [Text.CharNames] {source file : String} {p : Program} (h : parse source file = .ok p)
    (hleaves : ∀ l ∈ lexemes source.toList, l.isLiteral = false) : p.all Node.isSpelled := by
  have hspelled : Grammar.Each (fun l => l.isSpelled) (lexemes source.toList) := by
    intro l hl
    obtain ⟨c, r, -, hscan⟩ := exists_scan_of_mem hl
    exact Lexeme.isSpelled_of_scan hscan (hleaves l hl)
  have hbare : allNodes Node.isSpelled (bareNodes p.body) :=
    Grammar.respects_isSpelled.fine_of_derives (derives_of_parse h) hspelled
  rwa [allNodes_bare Node.isSpelled_bare] at hbare

end Deadwood
