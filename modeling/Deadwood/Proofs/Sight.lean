import Deadwood.Proofs.Brackets
import Deadwood.Proofs.Nesting
import Deadwood.Proofs.Reserved

/-! Scripts as the screen sees them. It goes through a script line by line and does not cut it into lexemes, but for a
script in which operators hold none of its marks, and comments no other line, all that it looks at can be told from
the lexemes and the ends of lines between them. -/
namespace Deadwood
open Text Screen
open Lexeme (scan scanWordOrNumber isBlank continuesName newlines)

/-! Pieces of a text. -/

namespace Lexeme

/-- A text as it is cut: lexemes with their characters, and blanks and comments without a lexeme. -/
def piecesFrom : Nat → List Char → List (Option Lexeme × List Char)
  | _, [] => []
  | skip + 1, _ :: r => piecesFrom skip r
  | 0, c :: r => ((scan c r).1, c :: r.take (scan c r).2) :: piecesFrom (scan c r).2 r

def pieces (cs : List Char) : List (Option Lexeme × List Char) := piecesFrom 0 cs

theorem piecesFrom_eq (skip : Nat) (cs : List Char) : piecesFrom skip cs = pieces (cs.drop skip) := by
  induction skip generalizing cs with
  | zero => rfl
  | succ skip ih =>
    cases cs with
    | nil => rfl
    | cons c r => exact ih r

theorem pieces_cons (c : Char) (r : List Char) :
    pieces (c :: r) = ((scan c r).1, c :: r.take (scan c r).2) :: pieces (r.drop (scan c r).2) := by
  rw [pieces, piecesFrom, piecesFrom_eq]

/-- What the screen can tell of a piece: its lexeme, or `none` for each end of a line in it. -/
def sighted : Option Lexeme × List Char → List (Option Lexeme)
  | (some l, cs) => if l = .newline then (cs.filter isLineEnd).map fun _ => none else [some l]
  | (none, cs) => (cs.filter isLineEnd).map fun _ => none

/-- Operators hold no mark of the screen, and comments nothing but blanks behind the end of a line. -/
def isOrderly : Option Lexeme × List Char → Bool
  | (some (.op _), cs) => cs.all (!isMark ·)
  | (none, cs) => (cs.dropWhile (!isLineEnd ·)).all isBlank
  | _ => true

end Lexeme

def Screen.sight (text : List Char) : List (Option Lexeme) := (Lexeme.pieces text).flatMap Lexeme.sighted

theorem Screen.sight_cons (c : Char) (r : List Char) :
    sight (c :: r) = Lexeme.sighted ((scan c r).1, c :: r.take (scan c r).2) ++ sight (r.drop (scan c r).2) := by
  rw [sight, Lexeme.pieces_cons, List.flatMap_cons, sight]

theorem Screen.lexemes_eq_reduceOption (text : List Char) :
    (lexemes text).filter (· ≠ .newline) = (sight text).filterMap id := by
  match text with
  | [] => rfl
  | c :: r =>
    rw [lexemes_cons, sight_cons, List.filter_append, List.filterMap_append, lexemes_eq_reduceOption]
    congr 1
    cases h : (scan c r).1 with
    | none => simp [Lexeme.sighted]
    | some l => by_cases hl : l = .newline <;> simp [Lexeme.sighted, hl]
termination_by text.length
decreasing_by rw [List.length_drop, List.length_cons]; omega

/-! Characters of lexemes. -/

/-- Characters that the screen takes for the given brackets and no more. -/
structure Screen.Shown (cs brackets : List Char) : Prop where
  calm : ∀ c ∈ cs, isCalm c ∧ isSpace c = false
  nests : ∀ opened, nests opened cs = nests opened brackets

theorem Screen.Shown.of_isPlain {cs : List Char} (h : ∀ c ∈ cs, isPlain c ∧ isSpace c = false) : Shown cs [] where
  calm c hc := ⟨by simp [isCalm, (h c hc).1], (h c hc).2⟩
  nests opened := by
    induction cs with
    | nil => rfl
    | cons c r ih =>
      obtain ⟨hc, hr⟩ := List.forall_mem_cons.1 h
      obtain ⟨hopen, hclose⟩ := isPlain_bracket hc.1
      simp only [Screen.nests, hopen, hclose, Option.isSome_none, Bool.false_eq_true, if_false]
      exact ih hr

/-- A mark is all brackets or all plain. -/
def Screen.isShown (cs brackets : List Char) : Bool :=
  cs.all (fun c => isCalm c && !isSpace c) && (brackets == cs || brackets == [] && cs.all isPlain)

theorem Screen.Shown.of_isShown {cs brackets : List Char} (h : isShown cs brackets) : Shown cs brackets := by
  simp only [isShown, Bool.and_eq_true, Bool.or_eq_true, beq_iff_eq, List.all_eq_true, Bool.not_eq_true'] at h
  obtain ⟨hcalm, rfl | ⟨rfl, hplain⟩⟩ := h
  · exact ⟨hcalm, fun _ => rfl⟩
  · exact .of_isPlain fun c hc => ⟨hplain c hc, (hcalm c hc).2⟩

/-- The lexemes that are neither a line break nor a semicolon, string or stray character. -/
def Lexeme.isCode : Lexeme → Bool
  | .newline | .semicolon | .string _ | .stray _ => false
  | _ => true

theorem Lexeme.isNumeric_of_starts {c : Char} (h : startsWord c || isDecimal c) : isNumeric c := by
  simp only [startsWord, Bool.or_eq_true, beq_iff_eq] at h
  obtain (hc | rfl) | hc := h
  · simp [isNumeric, continuesName, isWord, Char.isAlphanum, hc]
  · rfl
  · simp [isNumeric, continuesName, isWord_of_isDecimal hc]

theorem Lexeme.isNumeric_scanWord {c : Char} {r : List Char} (hc : startsWord c) (h : scanWord c r = (l, n)) :
    ∀ d ∈ c :: r.take n, isNumeric d := by
  cases h
  rw [take_length_takeWhile]
  refine List.forall_mem_cons.2 ⟨isNumeric_of_starts (by simp [hc]), fun d hd => ?_⟩
  have hd := List.all_eq_true.1 List.all_takeWhile d hd
  simp [isNumeric, hd]

theorem Lexeme.isNumeric_scanNumber {c : Char} {r : List Char} (h : scanNumber c r = some (l, n)) :
    ∀ d ∈ c :: r.take n, isNumeric d := by
  obtain ⟨m, hm, heq⟩ := Option.map_eq_some_iff.1 h
  cases heq
  refine List.forall_mem_cons.2 ⟨isNumeric_of_starts (starts_of_numberLength? hm), fun d hd => ?_⟩
  cases m with
  | zero => simp at hd
  | succ m => exact isNumeric_of_numberLength? hm d (List.mem_cons_of_mem c hd)

theorem Lexeme.isNumeric_scanWordOrNumber {c : Char} {r : List Char} (h : scanWordOrNumber c r = (l, n))
    (hl : l.isCode) : ∀ d ∈ c :: r.take n, isNumeric d := by
  obtain ⟨hc, hword⟩ | ⟨-, hnumber⟩ | ⟨rfl, -⟩ := scanWordOrNumber_cases h
  · exact isNumeric_scanWord hc hword
  · exact isNumeric_scanNumber hnumber
  · cases hl

theorem Lexeme.isPlain_of_isNumeric {c : Char} (h : isNumeric c) : isPlain c ∧ isSpace c = false := by
  simp only [isNumeric, isSign, Bool.or_eq_true, beq_iff_eq] at h
  obtain hc | rfl | rfl := h
  · refine ⟨isPlain_of_continuesName hc, ?_⟩
    simp only [continuesName, Bool.or_eq_true, beq_iff_eq] at hc
    obtain hc | rfl := hc
    · exact isSpace_of_isWord hc
    · decide
  · decide
  · decide

theorem Lexeme.brackets_of_isWordOrNumber {l : Lexeme} (h : l.isWordOrNumber) : l.brackets = [] := by
  cases l with
  | keyword | name | number | stray => rfl
  | _ => cases h

theorem Lexeme.shown_percent {r : List Char} (h : percentTail r = some n)
    (hmarks : ('%' :: r.take n).all (!isMark ·)) : Shown ('%' :: r.take n) [] := by
  have hspace : ∀ c ∈ '%' :: r.take n, isSpace c = false :=
    List.forall_mem_cons.2 ⟨by decide, isSpace_of_percentTail h⟩
  refine .of_isPlain fun c hc => ⟨?_, hspace c hc⟩
  simpa [isPlain, hspace c hc] using List.all_eq_true.1 hmarks c hc

/-- The characters of a lexeme show its brackets, unless it is an operator with a mark. -/
theorem Lexeme.shown_of_scan {c : Char} {r : List Char} (h : scan c r = (some l, n)) (hl : l.isCode)
    (horderly : isOrderly (some l, c :: r.take n)) : Shown (c :: r.take n) l.brackets := by
  cases scanned h with
  | breaks | string | stray => cases hl
  | mark hmark =>
    have hmarks : ∀ m ∈ marks, m.2.isCode → isShown [m.1] m.2.brackets := by decide
    have hshown := hmarks _ hmark hl
    exact .of_isShown hshown
  | pair hpair =>
    have hpairs : ∀ m ∈ pairs, isShown [m.1, m.2.1] m.2.2.brackets := by decide
    have hshown := hpairs _ hpair
    exact .of_isShown hshown
  | closeBracket | superArrow => exact .of_isShown rfl
  | percent htail => exact shown_percent htail horderly
  | word hword =>
    rw [brackets_of_isWordOrNumber (isWordOrNumber_of_scanWordOrNumber hword)]
    exact .of_isPlain fun d hd => isPlain_of_isNumeric (isNumeric_scanWordOrNumber hword hl d hd)

/-! Blanks and comments. -/

theorem Lexeme.isLineEnd_newlines (r : List Char) : ∀ c ∈ r.take (newlines r), isLineEnd c := by
  fun_induction newlines r with
  | case1 r ih => simpa using ⟨rfl, ih⟩
  | case2 r ih => simpa using ⟨rfl, rfl, ih⟩
  | case3 => simp

theorem Lexeme.isBlank_cases {c : Char} (h : isBlank c) : (c = ' ' ∨ c = '\t') ∨ isLineEnd c := by
  simp only [isBlank, Bool.or_eq_true, beq_iff_eq] at h
  obtain ((rfl | rfl) | rfl) | rfl := h
  · exact .inl (.inl rfl)
  · exact .inl (.inr rfl)
  · exact .inr rfl
  · exact .inr rfl

/-- What is cut off in front of a rest, by what the screen makes of it. -/
inductive Lexeme.Cut : Option Lexeme → (cs rest : List Char) → Prop where
  | breaks (h : ∀ c ∈ cs, isLineEnd c) : Cut (some .newline) cs rest
  | blanks (h : ∀ c ∈ cs, isBlank c) : Cut none cs rest
  | comment (hrest : rest.head?.all isLineEnd) : Cut none ('#' :: cs) rest
  | semicolon : Cut (some .semicolon) [';'] rest
  | string (h : IsString cs) : Cut (some (.string (String.ofList cs))) cs rest
  | code (hl : l.isCode) : Cut (some l) cs rest
  | stray : Cut (some (.stray c)) cs rest

theorem Lexeme.isCode_of_isWordOrNumber {l : Lexeme} (h : l.isWordOrNumber) : l.isCode ∨ ∃ c, l = .stray c := by
  cases l with
  | keyword | name | number => exact .inl rfl
  | stray c => exact .inr ⟨c, rfl⟩
  | _ => cases h

theorem Lexeme.Scanned.cut (h : Scanned c r o n) : Cut o (c :: r.take n) (r.drop n) := by
  cases h with
  | breaks hc =>
    refine .breaks (List.forall_mem_cons.2 ⟨?_, isLineEnd_newlines r⟩)
    obtain rfl | ⟨rfl, -⟩ := hc <;> rfl
  | blanks hc =>
    rw [take_length_takeWhile]
    exact .blanks (List.forall_mem_cons.2 ⟨hc, List.all_eq_true.1 List.all_takeWhile⟩)
  | comment =>
    refine .comment ?_
    rw [drop_length_takeWhile]
    cases hr : r.dropWhile (· != '\n') with
    | nil => rfl
    | cons d t =>
      have hd := List.head?_dropWhile_not (· != '\n') r
      rw [hr] at hd
      obtain rfl : d = '\n' := by simpa using hd
      rfl
  | mark hmark =>
    have hmarks : ∀ m ∈ marks, m = (';', .semicolon) ∨ m.2.isCode := by decide
    obtain hsemicolon | hcode := hmarks _ hmark
    · cases hsemicolon
      exact .semicolon
    · exact .code hcode
  | pair hpair =>
    have hpairs : ∀ m ∈ pairs, m.2.2.isCode := by decide
    exact .code (hpairs _ hpair)
  | closeBracket | superArrow | percent => exact .code rfl
  | string hquote htail =>
    obtain ⟨chars, rest, hinside, rfl, rfl⟩ := inside_of_stringTail htail
    have htake : (chars ++ c :: rest).take (chars.length + 1) = chars ++ [c] := by
      rw [List.take_length_add_append]
      rfl
    rw [htake]
    exact .string ⟨c, chars, hquote, hinside, rfl⟩
  | stray => exact .stray
  | word hword =>
    obtain hcode | ⟨d, rfl⟩ := isCode_of_isWordOrNumber (isWordOrNumber_of_scanWordOrNumber hword)
    · exact .code hcode
    · exact .stray

theorem Lexeme.cut_scan (c : Char) (r : List Char) :
    Cut (scan c r).1 (c :: r.take (scan c r).2) (r.drop (scan c r).2) :=
  (scanned rfl).cut

/-! Texts by what the screen makes of them. -/

/-- A text with what the screen can tell of it. -/
inductive Sighted : (text : List Char) → List (Option Lexeme) → Prop where
  | nil : Sighted [] []
  | blank (hc : c = ' ' ∨ c = '\t') (h : Sighted r ms) : Sighted (c :: r) ms
  | lineEnd (hc : isLineEnd c) (h : Sighted r ms) : Sighted (c :: r) (none :: ms)
  | comment (hcs : ∀ c ∈ cs, isLineEnd c = false) (hr : r.head?.all isLineEnd) (h : Sighted r ms) :
      Sighted ('#' :: (cs ++ r)) ms
  | string (hcs : Lexeme.IsString cs) (h : Sighted r ms) : Sighted (cs ++ r) (some (.string (String.ofList cs)) :: ms)
  | semicolon (h : Sighted r ms) : Sighted (';' :: r) (some .semicolon :: ms)
  | code (hscan : scan c t = (some l, n)) (hl : l.isCode) (hshown : Shown (c :: t.take n) l.brackets)
      (h : Sighted (t.drop n) ms) : Sighted (c :: t) (some l :: ms)

namespace Sighted

theorem lineEnds {cs r : List Char} (hcs : ∀ c ∈ cs, isLineEnd c) (h : Sighted r ms) :
    Sighted (cs ++ r) ((cs.filter isLineEnd).map (fun _ => none) ++ ms) := by
  induction cs with
  | nil => exact h
  | cons c cs ih =>
    obtain ⟨hc, hcs⟩ := List.forall_mem_cons.1 hcs
    rw [List.filter_cons_of_pos hc]
    exact .lineEnd hc (ih hcs)

theorem blanks {cs r : List Char} (hcs : ∀ c ∈ cs, isBlank c) (h : Sighted r ms) :
    Sighted (cs ++ r) ((cs.filter isLineEnd).map (fun _ => none) ++ ms) := by
  induction cs with
  | nil => exact h
  | cons c cs ih =>
    obtain ⟨hc, hcs⟩ := List.forall_mem_cons.1 hcs
    obtain hblank | hend := Lexeme.isBlank_cases hc
    · have hend : isLineEnd c = false := by obtain rfl | rfl := hblank <;> rfl
      rw [List.filter_cons_of_neg (by simp [hend])]
      exact .blank hblank (ih hcs)
    · rw [List.filter_cons_of_pos hend]
      exact .lineEnd hend (ih hcs)

/-- Behind the end of a line, a comment goes on with blanks. -/
theorem comments {cs r : List Char} (hcs : (('#' :: cs).dropWhile (!isLineEnd ·)).all isBlank)
    (hr : r.head?.all isLineEnd) (h : Sighted r ms) :
    Sighted ('#' :: cs ++ r) ((('#' :: cs).filter isLineEnd).map (fun _ => none) ++ ms) := by
  have hfront : ∀ c ∈ cs.takeWhile (!isLineEnd ·), isLineEnd c = false := by
    intro c hc
    simpa using List.all_eq_true.1 List.all_takeWhile c hc
  have hback : ∀ c ∈ cs.dropWhile (!isLineEnd ·), isBlank c := List.all_eq_true.1 hcs
  have hfilter : ('#' :: cs).filter isLineEnd = (cs.dropWhile (!isLineEnd ·)).filter isLineEnd := by
    have hnone : (cs.takeWhile (!isLineEnd ·)).filter isLineEnd = [] := by simpa using hfront
    rw [List.filter_cons_of_neg (by decide)]
    conv => lhs; rw [← List.takeWhile_append_dropWhile (p := (!isLineEnd ·)) (l := cs)]
    rw [List.filter_append, hnone, List.nil_append]
  have hhead : (cs.dropWhile (!isLineEnd ·) ++ r).head?.all isLineEnd := by
    cases hd : cs.dropWhile (!isLineEnd ·) with
    | nil => exact hr
    | cons d t =>
      have hhead := List.head?_dropWhile_not (!isLineEnd ·) cs
      rw [hd] at hhead
      simpa using hhead
  have hcomment := Sighted.comment hfront hhead (h.blanks hback)
  rwa [← List.append_assoc, List.takeWhile_append_dropWhile, ← hfilter] at hcomment

/-- A script in order is seen as its lexemes. -/
theorem of_isOrderly {text : List Char} (h : (Lexeme.pieces text).all Lexeme.isOrderly)
    (hstray : ∀ l ∈ lexemes text, l.isStray = false) : Sighted text (sight text) := by
  match text with
  | [] => exact .nil
  | c :: r =>
    rw [Lexeme.pieces_cons, List.all_cons, Bool.and_eq_true] at h
    rw [lexemes_cons, List.forall_mem_append] at hstray
    have hrest := of_isOrderly h.2 hstray.2
    have hcut := Lexeme.cut_scan c r
    have hsplit : c :: r = (c :: r.take (scan c r).2) ++ r.drop (scan c r).2 := by simp
    rw [sight_cons]
    obtain ⟨hpiece, -⟩ := h
    obtain ⟨hstray, -⟩ := hstray
    generalize hscan : scan c r = found at *
    obtain ⟨l?, n⟩ := found
    dsimp only at hpiece hstray hrest hcut hsplit ⊢
    generalize hcs : c :: r.take n = cs at *
    cases hcut with
    | breaks hends =>
      rw [hsplit]
      exact hrest.lineEnds hends
    | blanks hblanks =>
      rw [hsplit]
      exact hrest.blanks hblanks
    | comment hhead =>
      rw [hsplit]
      exact hrest.comments hpiece hhead
    | semicolon =>
      rw [hsplit]
      exact .semicolon hrest
    | string hstring =>
      rw [hsplit]
      exact .string hstring hrest
    | @code l _ _ hl =>
      have hsighted : Lexeme.sighted (some l, cs) = [some l] := if_neg (by rintro rfl; cases hl)
      rw [hsighted]
      subst hcs
      exact .code hscan hl (Lexeme.shown_of_scan hscan hl hpiece) hrest
    | stray => simp [Lexeme.isStray] at hstray
termination_by text.length
decreasing_by rw [List.length_drop, List.length_cons]; omega

end Sighted

/-! The first line of a text and the lines behind it. -/

def Text.row (text : List Char) : List Char := text.takeWhile (!isLineEnd ·)

def Text.later (text : List Char) : List (List Char) := (lines text).tail

theorem Text.row_append {cs : List Char} (h : ∀ c ∈ cs, isLineEnd c = false) (r : List Char) :
    row (cs ++ r) = cs ++ row r := by
  rw [row, List.takeWhile_append_of_pos (by simpa using h), row]

theorem Text.row_lineEnd {c : Char} (hc : isLineEnd c) (r : List Char) : row (c :: r) = [] :=
  List.takeWhile_cons_of_neg (by simp [hc])

theorem Text.row_of_head? {r : List Char} (h : r.head?.all isLineEnd) : row r = [] := by
  cases r with
  | nil => rfl
  | cons c r => exact row_lineEnd h r

theorem Text.tail_consLine (c : Char) (ls : List (List Char)) : (consLine c ls).tail = ls.tail := by
  cases ls <;> rfl

theorem Text.later_append {cs : List Char} (h : ∀ c ∈ cs, isLineEnd c = false) (r : List Char) :
    later (cs ++ r) = later r := by
  induction cs with
  | nil => rfl
  | cons c cs ih =>
    obtain ⟨hc, hcs⟩ := List.forall_mem_cons.1 h
    rw [later, List.cons_append, lines_cons hc, tail_consLine]
    exact ih hcs

theorem Text.lines_eq {text : List Char} (h : text ≠ []) : lines text = row text :: later text := by
  cases text with
  | nil => exact absurd rfl h
  | cons c r =>
    cases hc : isLineEnd c with
    | true =>
      obtain ⟨ls, hls⟩ := lines_lineEnd hc r
      rw [later, hls, row_lineEnd hc]
      rfl
    | false =>
      have hrow : row ([c] ++ r) = [c] ++ row r := row_append (by simpa using hc) r
      rw [List.singleton_append] at hrow
      rw [later, lines_cons hc, tail_consLine, hrow]
      cases r with
      | nil => rfl
      | cons d r =>
        rw [lines_eq (List.cons_ne_nil d r)]
        rfl

/-- What holds of the empty line may be looked for in the row and behind it. -/
theorem Text.forall_lines_iff {p : List Char → Prop} (hp : p []) (text : List Char) :
    (∀ l ∈ lines text, p l) ↔ p (row text) ∧ ∀ l ∈ later text, p l := by
  by_cases h : text = []
  · subst h
    exact iff_of_true nofun ⟨hp, nofun⟩
  · rw [lines_eq h, List.forall_mem_cons]

/-- The end of a line may be the first half of one. -/
theorem Text.later_lineEnd {c : Char} (hc : isLineEnd c) (r : List Char) :
    later (c :: r) = lines r ∨ lines r = [] :: later (c :: r) := by
  by_cases hreturn : c = '\r' ∧ ∃ t, r = '\n' :: t
  · obtain ⟨rfl, t, rfl⟩ := hreturn
    exact .inr rfl
  · refine .inl ?_
    rw [later, lines.eq_3 c r fun t hc hr => hreturn ⟨hc, t, hr⟩, if_pos hc]
    rfl

theorem Text.forall_later_lineEnd {p : List Char → Prop} (hp : p []) {c : Char} (hc : isLineEnd c) (r : List Char) :
    (∀ l ∈ later (c :: r), p l) ↔ ∀ l ∈ lines r, p l := by
  obtain h | h := later_lineEnd hc r
  · rw [h]
  · rw [h, List.forall_mem_cons]
    exact ⟨fun hall => ⟨hp, hall⟩, fun hall => hall.2⟩

/-! Brackets and strings. -/

/-- The literal of the string has no end of a line in it. -/
def Text.isUnbroken (s : String) : Bool := s.toList.all (!isLineEnd ·)

theorem Lexeme.Inside.front {q : Char} {a b : List Char} (h : Inside q (a ++ b)) :
    ∃ chars slash, a = chars ++ slash ∧ Inside q chars ∧ (slash = [] ∨ slash = ['\\']) := by
  generalize hab : a ++ b = cs at h
  induction h generalizing a with
  | nil =>
    obtain ⟨rfl, -⟩ := List.append_eq_nil_iff.1 hab
    exact ⟨[], [], rfl, .nil, .inl rfl⟩
  | @plain c r hquote hslash hfeed _ ih =>
    cases a with
    | nil => exact ⟨[], [], rfl, .nil, .inl rfl⟩
    | cons d a =>
      rw [List.cons_append, List.cons.injEq] at hab
      obtain ⟨rfl, hab⟩ := hab
      obtain ⟨chars, slash, rfl, hchars, hend⟩ := ih hab
      exact ⟨_, slash, rfl, .plain hquote hslash hfeed hchars, hend⟩
  | @escaped c r hfeed _ ih =>
    match a with
    | [] => exact ⟨[], [], rfl, .nil, .inl rfl⟩
    | [d] =>
      rw [List.cons_append, List.cons.injEq] at hab
      obtain ⟨rfl, -⟩ := hab
      exact ⟨[], _, rfl, .nil, .inr rfl⟩
    | d :: e :: a =>
      simp only [List.cons_append, List.cons.injEq] at hab
      obtain ⟨rfl, rfl, hab⟩ := hab
      obtain ⟨chars, slash, rfl, hchars, hend⟩ := ih hab
      exact ⟨_, slash, rfl, .escaped hfeed hchars, hend⟩

theorem Screen.outside_isString {cs : List Char} (h : Lexeme.IsString cs) (r : List Char) :
    outside none (cs ++ r) = outside none r := by
  obtain ⟨q, chars, hq, hchars, rfl⟩ := h
  have hslash : q ≠ '\\' := by obtain rfl | rfl := hq <;> decide
  rw [List.cons_append, List.append_assoc, List.singleton_append, outside_quote hq, outside_string hchars hslash]

/-- A string with the end of a line in it is open there. -/
theorem Screen.outside_broken {cs : List Char} (h : Lexeme.IsString cs) (hbroken : ∃ c ∈ cs, isLineEnd c)
    (r : List Char) : (outside none (row (cs ++ r))).2 = true := by
  obtain ⟨q, chars, hq, hchars, rfl⟩ := h
  have hqend : isLineEnd q = false := by obtain rfl | rfl := hq <;> rfl
  have hsome : ∃ c ∈ chars, isLineEnd c := by
    obtain ⟨c, hc, hend⟩ := hbroken
    simp only [List.mem_cons, List.mem_append, List.not_mem_nil, or_false] at hc
    obtain rfl | hc | rfl := hc
    · simp [hqend] at hend
    · exact ⟨c, hc, hend⟩
    · simp [hqend] at hend
  have hrow : row (q :: (chars ++ [q]) ++ r) = q :: chars.takeWhile (!isLineEnd ·) := by
    have hstop : (chars ++ ([q] ++ r)).takeWhile (!isLineEnd ·) = chars.takeWhile (!isLineEnd ·) := by
      rw [List.takeWhile_append, if_neg]
      intro hlength
      obtain ⟨c, hc, hend⟩ := hsome
      rw [← (List.takeWhile_prefix (!isLineEnd ·)).eq_of_length hlength] at hc
      simpa [hend] using List.all_eq_true.1 List.all_takeWhile c hc
    rw [row, List.cons_append, List.append_assoc, List.takeWhile_cons_of_pos (by simp [hqend]), hstop]
  rw [← List.takeWhile_append_dropWhile (p := (!isLineEnd ·)) (l := chars)] at hchars
  obtain ⟨front, slash, hfront, hinside, hend⟩ := hchars.front
  rw [hrow, hfront, outside_quote hq, outside_unclosed hinside hend]

/-- No line of the text ends inside a string. -/
def Screen.Closed (text : List Char) : Prop := ∀ l ∈ lines text, (outside none l).2 = false

theorem Screen.closed_iff (text : List Char) :
    Closed text ↔ (outside none (row text)).2 = false ∧ ∀ l ∈ later text, (outside none l).2 = false :=
  forall_lines_iff (p := fun l => (outside none l).2 = false) rfl text

theorem Screen.closed_lineEnd {c : Char} (hc : isLineEnd c) (r : List Char) : Closed (c :: r) ↔ Closed r := by
  rw [closed_iff, row_lineEnd hc, forall_later_lineEnd (p := fun l => (outside none l).2 = false) rfl hc]
  exact ⟨fun h => h.2, fun h => ⟨rfl, h⟩⟩

theorem Screen.visible_lines (text : List Char) :
    visible (lines text) = (outside none (row text)).1 ++ visible (later text) := by
  cases text with
  | nil => rfl
  | cons c r => rw [lines_eq (List.cons_ne_nil c r), visible_cons]

theorem Screen.visible_lineEnd {c : Char} (hc : isLineEnd c) (r : List Char) :
    visible (lines (c :: r)) = visible (lines r) := by
  rw [visible_lines, row_lineEnd hc]
  obtain h | h := later_lineEnd hc r <;> rw [h] <;> rfl

theorem Screen.visible_comment {cs r : List Char} (hcs : ∀ c ∈ cs, isLineEnd c = false) (hr : r.head?.all isLineEnd) :
    (Closed ('#' :: (cs ++ r)) ↔ Closed r) ∧ visible (lines ('#' :: (cs ++ r))) = visible (lines r) := by
  have hline : ∀ c ∈ '#' :: cs, isLineEnd c = false := List.forall_mem_cons.2 ⟨rfl, hcs⟩
  have hrow : outside none (row ('#' :: (cs ++ r))) = outside none (row r) := by
    rw [← List.cons_append, row_append hline, row_of_head? hr]
    rfl
  have hlater : later ('#' :: (cs ++ r)) = later r := later_append hline r
  rw [closed_iff, closed_iff r, visible_lines, visible_lines r, hrow, hlater]
  exact ⟨Iff.rfl, rfl⟩

namespace Screen.Front

theorem closed_append (h : Front cs v) (r : List Char) : Closed (cs ++ r) ↔ Closed r := by
  rw [closed_iff, closed_iff r, row_append h.line, later_append h.line, h.seen]

theorem visible_append (h : Front cs v) (r : List Char) : visible (lines (cs ++ r)) = v ++ visible (lines r) := by
  rw [visible_lines, visible_lines r, row_append h.line, later_append h.line, h.seen, List.append_assoc]

theorem of_calm {cs : List Char} (h : ∀ c ∈ cs, isCalm c) : Front cs cs := by
  induction cs with
  | nil => exact nil
  | cons c cs ih =>
    obtain ⟨hc, hcs⟩ := List.forall_mem_cons.1 h
    exact (calm hc).append (ih hcs)

theorem semicolon : Front [';'] [';'] where
  line := List.forall_mem_singleton.2 rfl
  seen r := by simp [outside]

theorem isString (h : Lexeme.IsString cs) (hcs : isUnbroken (String.ofList cs)) : Front cs [] where
  line := by simpa [isUnbroken] using hcs
  seen r := outside_isString h r

theorem blank (hc : c = ' ' ∨ c = '\t') : Front [c] [c] := calm (by obtain rfl | rfl := hc <;> decide)

end Screen.Front

namespace Sighted

/-- The screen finds a string open at the end of a line if and only if the end is in a string. -/
theorem closed_iff (h : Sighted text ms) : Closed text ↔ ∀ s, some (.string s) ∈ ms → isUnbroken s := by
  induction h with
  | nil => exact iff_of_true nofun nofun
  | blank hc _ ih => exact ((Front.blank hc).closed_append _).trans ih
  | lineEnd hc _ ih =>
    rw [closed_lineEnd hc, ih]
    simp
  | comment hcs hr _ ih => exact (visible_comment hcs hr).1.trans ih
  | @string cs r ms hcs _ ih =>
    cases hbroken : isUnbroken (String.ofList cs) with
    | true =>
      rw [(Front.isString hcs hbroken).closed_append, ih]
      simp only [List.mem_cons, Option.some.injEq, Lexeme.string.injEq]
      grind
    | false =>
      have hend : ∃ c ∈ cs, isLineEnd c := by simpa [isUnbroken] using hbroken
      refine iff_of_false (fun hclosed => ?_) fun hall => ?_
      · have hopen := outside_broken hcs hend r
        rw [((Screen.closed_iff _).1 hclosed).1] at hopen
        cases hopen
      · rw [hall _ List.mem_cons_self] at hbroken
        cases hbroken
  | semicolon _ ih =>
    rw [← List.singleton_append, Front.semicolon.closed_append, ih]
    simp
  | @code c t l n ms hscan hl hshown _ ih =>
    have hfront := Front.of_calm fun d hd => (hshown.calm d hd).1
    have hsplit : c :: t = c :: t.take n ++ t.drop n := by simp
    rw [hsplit, hfront.closed_append, ih]
    have hstring (s : String) : Lexeme.string s ≠ l := by
      rintro rfl
      cases hl
    simp [hstring]

/-- The brackets that the screen sees are those of the lexemes. -/
theorem nests_visible (h : Sighted text ms) (hstrings : ∀ s, some (.string s) ∈ ms → isUnbroken s)
    (opened : List Char) :
    nests opened (visible (lines text)) = nests opened ((ms.filterMap id).flatMap Lexeme.brackets) := by
  induction h generalizing opened with
  | nil => rfl
  | @blank c r ms hc _ ih =>
    rw [← List.singleton_append, (Front.blank hc).visible_append, ← ih hstrings]
    obtain rfl | rfl := hc <;> rfl
  | lineEnd hc _ ih => exact (congrArg _ (visible_lineEnd hc _)).trans (ih (by simpa using hstrings) opened)
  | comment hcs hr _ ih => exact (congrArg _ (visible_comment hcs hr).2).trans (ih hstrings opened)
  | string hcs _ ih =>
    rw [(Front.isString hcs (hstrings _ List.mem_cons_self)).visible_append]
    exact ih (fun s hs => hstrings s (List.mem_cons_of_mem _ hs)) opened
  | @semicolon r ms _ ih =>
    rw [← List.singleton_append, Front.semicolon.visible_append]
    exact ih (by simpa using hstrings) opened
  | @code c t l n ms hscan hl hshown _ ih =>
    have hfront := Front.of_calm fun d hd => (hshown.calm d hd).1
    have hsplit : c :: t = c :: t.take n ++ t.drop n := by simp
    have ih := ih fun s hs => hstrings s (List.mem_cons_of_mem _ hs)
    have hcons : ((some l :: ms).filterMap id).flatMap Lexeme.brackets =
        l.brackets ++ (ms.filterMap id).flatMap Lexeme.brackets := rfl
    rw [hsplit, hfront.visible_append, hcons, nests_append, nests_append, hshown.nests]
    cases nests opened l.brackets with
    | none => rfl
    | some opened' => exact ih opened'

end Sighted
end Deadwood
