import Deadwood.Proofs.Quotation
import Deadwood.Proofs.Screening
import Mathlib.Data.List.Forall2

/-! The scan of brackets and strings. It lets a text pass exactly if no line ends inside a string and the brackets
outside strings and comments are a balanced word, and otherwise blames the first place in reading order where this
fails. -/
namespace Deadwood.Screen
open Text

/-! Words of brackets, each with the number of its line. -/

def isBracket (c : Char) : Bool := (closer? c).isSome || isCloser c

abbrev Word := List (Char × Nat)

/-- Every bracket has its partner. -/
inductive Balanced : Word → Prop where
  | nil : Balanced []
  | nest (hclose : closer? o.1 = some c.1) (hv : Balanced v) (hw : Balanced w) : Balanced (o :: (v ++ c :: w))

/-- The word can be completed to a balanced one. -/
def Extends (w : Word) : Prop := ∃ v, Balanced (w ++ v)

/-- The bracket `o` has its partner in the word behind it. -/
def HasPartner (o : Char) (w : Word) : Prop :=
  ∃ v c rest, w = v ++ c :: rest ∧ Balanced v ∧ closer? o = some c.1

theorem closer?_of_closer? {o c : Char} (h : closer? o = some c) : closer? c = none ∧ isCloser c := by
  unfold closer? at h
  split at h <;> cases h <;> decide

theorem isCloser_of_isBracket {c : Char} (h : isBracket c) (hc : closer? c = none) : isCloser c := by
  simpa [isBracket, hc] using h

theorem closer?_of_isCloser {c : Char} (h : isCloser c) : closer? c = none := by
  simp only [isCloser, Bool.or_eq_true, beq_iff_eq] at h
  obtain (rfl | rfl) | rfl := h <;> rfl

theorem nests_open {o : Char} (ho : (closer? o).isSome) (opened cs : List Char) :
    nests opened (o :: cs) = nests (o :: opened) cs := by
  simp [nests, ho]

theorem nests_close {o c : Char} (hclose : closer? o = some c) (opened cs : List Char) :
    nests (o :: opened) (c :: cs) = nests opened cs := by
  simp [nests, closer?_of_closer? hclose, hclose]

namespace Balanced

theorem append (hv : Balanced v) (hw : Balanced w) : Balanced (v ++ w) := by
  induction hv with
  | nil => exact hw
  | nest hclose hv _ _ ih =>
    rw [List.cons_append, List.append_assoc, List.cons_append]
    exact .nest hclose hv ih

theorem enclosed {o c : Char × Nat} (hclose : closer? o.1 = some c.1) (h : Balanced v) : Balanced (o :: (v ++ [c])) :=
  .nest hclose h .nil

/-- Reading a balanced word leaves open what was open before. -/
theorem nests_eq (h : Balanced w) (opened : List Char) : nests opened (w.map (·.1)) = some opened := by
  induction h generalizing opened with
  | nil => rfl
  | @nest o c v w hclose _ _ ihv ihw =>
    rw [List.map_cons, List.map_append, List.map_cons, nests_open (by simp [hclose]), nests_append, ihv,
      Option.bind_some, nests_close hclose, ihw]

theorem not_hasPartner (h : Balanced w) (o : Char) : ¬HasPartner o w := by
  rintro ⟨v, c, rest, rfl, hv, hclose⟩
  have hc := closer?_of_closer? hclose
  have hnests := h.nests_eq []
  rw [List.map_append, nests_append, hv.nests_eq] at hnests
  simp [nests, hc] at hnests

end Balanced

theorem HasPartner.append {o : Char} {v : Word} (h : HasPartner o v) (w : Word) : HasPartner o (v ++ w) := by
  obtain ⟨u, c, rest, rfl, hu, hclose⟩ := h
  exact ⟨u, c, rest ++ w, by simp, hu, hclose⟩

/-- Two places in one list are the same, or one lies before the other. -/
theorem append_cons_cases {a a' b b' : List α} {x x' : α} (h : a ++ x :: b = a' ++ x' :: b') :
    (a = a' ∧ x = x' ∧ b = b') ∨ (∃ m, a' = a ++ x :: m ∧ b = m ++ x' :: b') ∨
      ∃ m, a = a' ++ x' :: m ∧ b' = m ++ x :: b := by
  obtain ⟨m, rfl, hm⟩ | ⟨m, rfl, hm⟩ := List.append_eq_append_iff.1 h
  · cases m with
    | nil =>
      obtain ⟨rfl, rfl⟩ := List.cons.inj hm
      exact .inl ⟨(List.append_nil a).symm, rfl, rfl⟩
    | cons y m =>
      obtain ⟨rfl, rfl⟩ := List.cons.inj hm
      exact .inr (.inl ⟨m, rfl, rfl⟩)
  · cases m with
    | nil =>
      obtain ⟨rfl, rfl⟩ := List.cons.inj hm
      exact .inl ⟨List.append_nil a', rfl, rfl⟩
    | cons y m =>
      obtain ⟨rfl, rfl⟩ := List.cons.inj hm
      exact .inr (.inr ⟨m, rfl, rfl⟩)

theorem Balanced.hasPartner {w a b : Word} {o : Char × Nat} (h : Balanced w) (hw : w = a ++ o :: b)
    (ho : (closer? o.1).isSome) : HasPartner o.1 b := by
  induction h generalizing a b with
  | nil => simp at hw
  | @nest o' c v w hclose hv _ ihv ihw =>
    cases a with
    | nil =>
      obtain ⟨rfl, rfl⟩ := List.cons.inj hw
      exact ⟨v, c, w, rfl, hv, hclose⟩
    | cons o'' a =>
      obtain ⟨-, hsplit⟩ := List.cons.inj hw
      obtain ⟨-, rfl, -⟩ | ⟨m, -, rfl⟩ | ⟨m, rfl, rfl⟩ := append_cons_cases hsplit
      · simp [(closer?_of_closer? hclose).1] at ho
      · exact ihw rfl
      · exact (ihv rfl).append _

/-! The brackets left open. -/

/-- Between the brackets that a word leaves open, innermost first, its parts are balanced. -/
inductive Leaves : Word → Opened → Prop where
  | nil (h : Balanced w) : Leaves w []
  | cons (h : Leaves u opened) (ho : (closer? o.1).isSome) (hv : Balanced v) : Leaves (u ++ o :: v) (o :: opened)

namespace Leaves

theorem nests_eq (h : Leaves w opened) : nests [] (w.map (·.1)) = some (opened.map (·.1)) := by
  induction h with
  | nil h => exact h.nests_eq []
  | @cons u opened o v _ ho hv ih =>
    rw [List.map_append, nests_append, ih, Option.bind_some, List.map_cons, nests_open ho, hv.nests_eq,
      List.map_cons]

theorem append (h : Leaves w opened) (hv : Balanced v) : Leaves (w ++ v) opened := by
  cases h with
  | nil h => exact .nil (h.append hv)
  | cons h ho hv' =>
    rw [List.append_assoc, List.cons_append]
    exact .cons h ho (hv'.append hv)

theorem push (h : Leaves w opened) (ho : (closer? o.1).isSome) : Leaves (w ++ [o]) (o :: opened) := .cons h ho .nil

theorem pop {o c : Char × Nat} (h : Leaves w (o :: opened)) (hclose : closer? o.1 = some c.1) :
    Leaves (w ++ [c]) opened := by
  cases h with
  | cons h ho hv =>
    rw [List.append_assoc, List.cons_append]
    exact h.append (hv.enclosed hclose)

/-- The partners of the open brackets complete the word. -/
theorem exists_balanced (h : Leaves w opened) (hv : Balanced v) : ∃ x, Balanced (w ++ v ++ x) := by
  induction h generalizing v with
  | nil h => exact ⟨[], by simpa using h.append hv⟩
  | @cons u opened o v' _ ho hv' ih =>
    obtain ⟨c, hclose⟩ := Option.isSome_iff_exists.1 ho
    obtain ⟨x, hx⟩ := ih ((hv'.append hv).enclosed (c := (c, 0)) hclose)
    exact ⟨(c, 0) :: x, by simpa using hx⟩

theorem extends_word (h : Leaves w opened) : Extends w := by
  obtain ⟨x, hx⟩ := h.exists_balanced .nil
  exact ⟨x, by simpa using hx⟩

theorem not_extends {c : Char × Nat} (h : Leaves w opened) (hc : isCloser c.1)
    (htop : ∀ o ∈ opened.head?, closer? o.1 ≠ some c.1) : ¬Extends (w ++ [c]) := by
  rintro ⟨v, hv⟩
  have hnests := hv.nests_eq []
  rw [List.append_assoc, List.map_append, nests_append, h.nests_eq, Option.bind_some] at hnests
  cases opened with
  | nil => simp [nests, closer?_of_isCloser hc, hc] at hnests
  | cons o opened => simp [nests, closer?_of_isCloser hc, hc, htop o rfl] at hnests

end Leaves

/-- A bracket is pushed, meets its partner, or cannot be part of a balanced word. -/
theorem matchLine_bracket {w : Word} {opened : Opened} {c : Char} (h : Leaves w opened) (hc : isBracket c) (n : Nat) :
    (∃ opened', matchLine n opened [c] = .ok opened' ∧ Leaves (w ++ [(c, n)]) opened') ∨
      matchLine n opened [c] = .error c ∧ isCloser c ∧ ¬Extends (w ++ [(c, n)]) := by
  cases hopen : closer? c with
  | some d =>
    refine .inl ⟨(c, n) :: opened, by simp [matchLine, hopen], h.push ?_⟩
    simp [hopen]
  | none =>
    have hc := isCloser_of_isBracket hc hopen
    cases opened with
    | nil => exact .inr ⟨by simp [matchLine, hopen, hc], hc, h.not_extends hc (by rintro _ ⟨⟩)⟩
    | cons o opened =>
      by_cases hclose : closer? o.1 = some c
      · exact .inl ⟨opened, by simp [matchLine, hopen, hc, hclose], h.pop hclose⟩
      · refine .inr ⟨by simp [matchLine, hopen, hc, hclose], hc, h.not_extends hc ?_⟩
        rintro _ ⟨⟩
        exact hclose

/-! Lines as the scan sees them. -/

/-- A line with the characters outside its strings and before its comment, and whether it ends inside a string. -/
inductive Shows : (line seen : List Char) → (inside : Bool) → Prop where
  | done : Shows [] [] false
  | comment : Shows ('#' :: r) [] false
  | plain (hcomment : c ≠ '#') (hquote : c ≠ '"' ∧ c ≠ '\'') (h : Shows r seen inside) :
      Shows (c :: r) (c :: seen) inside
  | string (hs : Lexeme.IsString s) (h : Shows r seen inside) : Shows (s ++ r) seen inside
  | unclosed (hquote : q = '"' ∨ q = '\'') (h : Lexeme.Inside q chars) (hend : slash = [] ∨ slash = ['\\']) :
      Shows (q :: (chars ++ slash)) [] true

/-- Behind a quote the line goes on inside a string that is closed, or not. -/
theorem outside_cases {q : Char} (hq : q = '"' ∨ q = '\'') {r : List Char} (hr : '\n' ∉ r) :
    (∃ chars r', Lexeme.Inside q chars ∧ r = chars ++ q :: r' ∧ outside (some q) r = outside none r') ∨
      ∃ chars slash, Lexeme.Inside q chars ∧ (slash = [] ∨ slash = ['\\']) ∧ r = chars ++ slash ∧
        outside (some q) r = ([], true) := by
  match r with
  | [] => exact .inr ⟨[], [], .nil, .inl rfl, rfl, by rw [outside]; rfl⟩
  | c :: r =>
    rw [List.mem_cons, not_or] at hr
    obtain ⟨hfeed, hr⟩ := hr
    by_cases hslash : c = '\\'
    · subst hslash
      cases r with
      | nil => exact .inr ⟨[], ['\\'], .nil, .inr rfl, rfl, rfl⟩
      | cons d r =>
        rw [List.mem_cons, not_or] at hr
        obtain ⟨hfeed, hr⟩ := hr
        have hskip : outside (some q) ('\\' :: d :: r) = outside (some q) r := by simp [outside]
        rw [hskip]
        obtain ⟨chars, r', hchars, rfl, heq⟩ | ⟨chars, slash, hchars, hend, rfl, heq⟩ := outside_cases hq hr
        · exact .inl ⟨_, r', .escaped (Ne.symm hfeed) hchars, rfl, heq⟩
        · exact .inr ⟨_, slash, .escaped (Ne.symm hfeed) hchars, hend, rfl, heq⟩
    · rw [outside_open hslash]
      by_cases hquote : c = q
      · subst hquote
        exact .inl ⟨[], r, .nil, rfl, by simp⟩
      · rw [if_neg (by simpa using hquote)]
        obtain ⟨chars, r', hchars, rfl, heq⟩ | ⟨chars, slash, hchars, hend, rfl, heq⟩ := outside_cases hq hr
        · exact .inl ⟨_, r', .plain hquote hslash (Ne.symm hfeed) hchars, rfl, heq⟩
        · exact .inr ⟨_, slash, .plain hquote hslash (Ne.symm hfeed) hchars, hend, rfl, heq⟩

theorem shows_outside {l : List Char} (hl : '\n' ∉ l) : Shows l (outside none l).1 (outside none l).2 := by
  match l with
  | [] => exact .done
  | c :: r =>
    rw [List.mem_cons, not_or] at hl
    obtain ⟨-, hr⟩ := hl
    by_cases hcomment : c = '#'
    · subst hcomment
      exact .comment
    · by_cases hquote : c = '"' ∨ c = '\''
      · rw [outside_quote hquote]
        obtain ⟨chars, r', hchars, rfl, heq⟩ | ⟨chars, slash, hchars, hend, rfl, heq⟩ := outside_cases hquote hr
        · have hshows := Shows.string ⟨c, chars, hquote, hchars, rfl⟩ (shows_outside (l := r') (by simp_all))
          rw [heq]
          simpa using hshows
        · rw [heq]
          exact .unclosed hquote hchars hend
      · have hquote := not_or.1 hquote
        have hplain : outside none (c :: r) = (c :: (outside none r).1, (outside none r).2) := by
          simp [outside, hcomment, hquote]
        rw [hplain]
        exact .plain hcomment hquote (shows_outside hr)
termination_by l.length

theorem outside_string {q : Char} {chars : List Char} (h : Lexeme.Inside q chars) (hq : q ≠ '\\') (r : List Char) :
    outside (some q) (chars ++ q :: r) = outside none r := by
  induction h with
  | nil =>
    rw [List.nil_append, outside_open hq]
    simp
  | plain hquote hslash _ _ ih =>
    rw [List.cons_append, outside_open hslash, if_neg (by simpa using hquote), ih]
  | escaped _ _ ih => simpa [outside] using ih

theorem outside_unclosed {q : Char} {chars slash : List Char} (h : Lexeme.Inside q chars)
    (hend : slash = [] ∨ slash = ['\\']) : outside (some q) (chars ++ slash) = ([], true) := by
  induction h with
  | nil =>
    obtain rfl | rfl := hend
    · simp [outside]
    · simp [outside]
  | plain hquote hslash _ _ ih =>
    rw [List.cons_append, outside_open hslash, if_neg (by simpa using hquote), ih]
  | escaped _ _ ih => simpa [outside] using ih

theorem Shows.outside_eq (h : Shows l seen inside) : outside none l = (seen, inside) := by
  induction h with
  | done => rfl
  | comment => rfl
  | plain hcomment hquote _ ih => simp [outside, hcomment, hquote, ih]
  | @string s r _ _ hs _ ih =>
    obtain ⟨q, chars, hq, hchars, rfl⟩ := hs
    have hstring : outside (some q) (chars ++ q :: r) = outside none r :=
      outside_string hchars (by obtain rfl | rfl := hq <;> decide) r
    rw [List.cons_append, List.append_assoc, List.singleton_append, outside_quote hq, hstring, ih]
  | unclosed hq hchars hend => rw [outside_quote hq, outside_unclosed hchars hend]

/-- What a line shows is determined by it. -/
theorem shows_iff {l seen : List Char} {inside : Bool} (hl : '\n' ∉ l) :
    Shows l seen inside ↔ outside none l = (seen, inside) := by
  constructor
  · exact Shows.outside_eq
  · intro h
    have hshows := shows_outside hl
    rwa [h] at hshows

theorem isLineEnd_of_mem_lines {text l : List Char} (hl : l ∈ lines text) : ∀ c ∈ l, isLineEnd c = false := by
  fun_induction lines text generalizing l with
  | case1 => cases hl
  | case2 r ih =>
    obtain rfl | hl := List.mem_cons.1 hl
    · simp
    · exact ih hl
  | case3 c r _ hend ih =>
    obtain rfl | hl := List.mem_cons.1 hl
    · simp
    · exact ih hl
  | case4 c r _ hend ih =>
    have hc : isLineEnd c = false := by simpa using hend
    cases hr : lines r with
    | nil =>
      obtain rfl : l = [c] := by simpa [hr, consLine] using hl
      simpa using hc
    | cons m ms =>
      rw [hr] at hl ih
      obtain rfl | hl := List.mem_cons.1 hl
      · exact List.forall_mem_cons.2 ⟨hc, ih List.mem_cons_self⟩
      · exact ih (List.mem_cons_of_mem _ hl)

/-! The scan as a walk over what it meets on the lines. -/

/-- A bracket of a line, or the line's end, inside a string or not. -/
inductive Event where
  | bracket (char : Char)
  | lineEnd (inside : Bool)

/-- What is met on the lines from number `n` on, of which each shows some characters and whether it ends inside a
string. -/
def events : Nat → List (List Char × Bool) → List (Event × Nat)
  | _, [] => []
  | n, (seen, inside) :: views =>
    (seen.filter isBracket).map (fun c => (.bracket c, n)) ++ (.lineEnd inside, n) :: events (n + 1) views

def bracket? : Event × Nat → Option (Char × Nat)
  | (.bracket c, n) => some (c, n)
  | (.lineEnd _, _) => none

def word (es : List (Event × Nat)) : Word := es.filterMap bracket?

theorem word_append (es fs : List (Event × Nat)) : word (es ++ fs) = word es ++ word fs := List.filterMap_append

def walk : Opened → List (Event × Nat) → Option (Problem × Nat)
  | [], [] => none
  | (c, n) :: _, [] => some (.unmatchedBracket (String.singleton c), n)
  | opened, (.bracket c, n) :: es =>
    match matchLine n opened [c] with
    | .error c => some (.unmatchedBracket (String.singleton c), n)
    | .ok opened => walk opened es
  | opened, (.lineEnd inside, n) :: es => if inside then some (.unclosedString, n) else walk opened es

theorem matchLine_cons (n : Nat) (opened : Opened) (c : Char) (r : List Char) :
    matchLine n opened (c :: r) = (matchLine n opened [c]).bind (matchLine n · r) := by
  simp only [matchLine]
  split
  · rfl
  · split
    · split
      · split <;> rfl
      · rfl
    · rfl

theorem walk_line (n : Nat) (opened : Opened) (cs : List Char) (es : List (Event × Nat)) :
    walk opened ((cs.filter isBracket).map (fun c => (.bracket c, n)) ++ es) =
      match matchLine n opened cs with
      | .error c => some (.unmatchedBracket (String.singleton c), n)
      | .ok opened => walk opened es := by
  induction cs generalizing opened with
  | nil => rfl
  | cons c r ih =>
    rw [matchLine_cons]
    cases hc : isBracket c with
    | true =>
      rw [List.filter_cons_of_pos hc, List.map_cons, List.cons_append]
      cases hmatch : matchLine n opened [c] with
      | error d => simp only [walk, hmatch]; rfl
      | ok opened' => simp only [walk, hmatch, ih]; rfl
    | false =>
      have hmatch : matchLine n opened [c] = .ok opened := by
        simp only [isBracket, Bool.or_eq_false_iff] at hc
        simp [matchLine, hc]
      rw [List.filter_cons_of_neg (by simp [hc]), ih, hmatch]
      rfl

theorem scanFrom_eq_walk (n : Nat) (opened : Opened) (ls : List (List Char)) :
    scanFrom n opened ls = walk opened (events n (ls.map (outside none))) := by
  induction ls generalizing n opened with
  | nil => cases opened <;> rfl
  | cons l ls ih =>
    rw [List.map_cons, events, walk_line]
    simp only [scanFrom]
    cases matchLine n opened (outside none l).1 with
    | error c => rfl
    | ok opened' => simp only [walk, ih]

theorem isBracket_of_mem_events {n m : Nat} {views : List (List Char × Bool)} {c : Char}
    (h : (.bracket c, m) ∈ events n views) : isBracket c := by
  induction views generalizing n with
  | nil => cases h
  | cons view views ih =>
    simp only [events, List.mem_append, List.mem_map, List.mem_filter, List.mem_cons, Prod.mk.injEq, reduceCtorEq,
      false_and, false_or] at h
    obtain ⟨_, ⟨-, hd⟩, ⟨rfl⟩, -⟩ | h := h
    · exact hd
    · exact ih h

theorem lineEnd_mem_events {n : Nat} {views : List (List Char × Bool)} :
    (∀ m, (.lineEnd true, m) ∉ events n views) ↔ ∀ v ∈ views, v.2 = false := by
  induction views generalizing n with
  | nil => simp [events]
  | cons view views ih =>
    obtain ⟨seen, inside⟩ := view
    rw [List.forall_mem_cons, ← ih (n := n + 1)]
    simp only [events, List.mem_append, List.mem_map, List.mem_cons, Prod.mk.injEq, reduceCtorEq, false_and, and_false,
      exists_false, Event.lineEnd.injEq, false_or, not_or]
    constructor
    · intro h
      exact ⟨by simpa using (h n).1, fun m => (h m).2⟩
    · rintro ⟨hinside, h⟩ m
      exact ⟨by simp [hinside], h m⟩

/-! What is to blame. -/

/-- A closing bracket that ends every hope of a balanced word, or a line that ends inside a string. -/
inductive Offends (before : List (Event × Nat)) : Event × Nat → Problem → Prop where
  | closer (hc : isCloser c) (hbefore : Extends (word before)) (hword : ¬Extends (word before ++ [(c, n)])) :
      Offends before (.bracket c, n) (.unmatchedBracket (String.singleton c))
  | string : Offends before (.lineEnd true, n) .unclosedString

/-- Nothing offends on the way. -/
def Unblamed (es : List (Event × Nat)) : Prop :=
  ∀ before e after, es = before ++ e :: after → ∀ problem, ¬Offends before e problem

/-- The first offence in reading order and its line. If nothing offends on the way, this is the last opening bracket
without a partner. -/
inductive FirstOffence (es : List (Event × Nat)) : Problem → Nat → Prop where
  | met (hes : es = before ++ (e, n) :: after) (hbefore : Unblamed before) (he : Offends before (e, n) problem) :
      FirstOffence es problem n
  | leftOpen (hes : Unblamed es) (hword : word es = u ++ (o, n) :: v) (ho : (closer? o).isSome)
      (hopen : ¬HasPartner o v)
      (hlast : ∀ a p b, v = a ++ p :: b → (closer? p.1).isSome → HasPartner p.1 b) :
      FirstOffence es (.unmatchedBracket (String.singleton o)) n

theorem Unblamed.snoc {es : List (Event × Nat)} {e : Event × Nat} (h : Unblamed es)
    (he : ∀ problem, ¬Offends es e problem) : Unblamed (es ++ [e]) := by
  intro before e' after hsplit
  obtain rfl | ⟨after, f, rfl⟩ := List.eq_nil_or_concat after
  · obtain ⟨rfl, heq⟩ := List.append_inj' hsplit rfl
    cases heq
    exact he
  · rw [List.concat_eq_append, ← List.cons_append, ← List.append_assoc] at hsplit
    exact h before e' after (List.append_inj' hsplit rfl).1

/-- The walk carries what was met before, of which the open brackets are left. -/
theorem walk_blames {before es : List (Event × Nat)} {opened : Opened} (hbefore : Unblamed before)
    (h : Leaves (word before) opened) (hes : ∀ c n, (.bracket c, n) ∈ es → isBracket c) :
    walk opened es = none ∧ (∀ n, (.lineEnd true, n) ∉ es) ∧ Balanced (word (before ++ es)) ∨
      ∃ problem n, walk opened es = some (problem, n) ∧ FirstOffence (before ++ es) problem n := by
  induction es generalizing before opened with
  | nil =>
    rw [List.append_nil]
    generalize hw : word before = w at h
    cases h with
    | nil h => exact .inl ⟨rfl, by simp, h⟩
    | @cons u opened o v hu ho hv =>
      refine .inr ⟨_, o.2, rfl, .leftOpen hbefore hw ho (hv.not_hasPartner o.1) fun a p b hsplit hp => ?_⟩
      exact hv.hasPartner hsplit hp
  | cons e es ih =>
    have hes' : ∀ c n, (.bracket c, n) ∈ es → isBracket c := fun c n hc => hes c n (List.mem_cons_of_mem _ hc)
    rw [List.append_cons]
    match e with
    | (.bracket c, n) =>
      have hword : word (before ++ [(.bracket c, n)]) = word before ++ [(c, n)] := word_append _ _
      obtain ⟨opened', hmatch, hleaves⟩ | ⟨hmatch, hc, hstuck⟩ := matchLine_bracket h (hes c n List.mem_cons_self) n
      · have hfine : ∀ problem, ¬Offends before (.bracket c, n) problem := by
          rintro _ ⟨-, -, hstuck⟩
          exact hstuck hleaves.extends_word
        rw [← hword] at hleaves
        simpa [walk, hmatch] using ih (hbefore.snoc hfine) hleaves hes'
      · refine .inr ⟨.unmatchedBracket (String.singleton c), n, by simp only [walk, hmatch], ?_⟩
        exact .met (List.append_assoc ..) hbefore (.closer hc h.extends_word hstuck)
    | (.lineEnd true, n) =>
      exact .inr ⟨.unclosedString, n, by simp [walk], .met (List.append_assoc ..) hbefore .string⟩
    | (.lineEnd false, n) =>
      have hword : word (before ++ [(.lineEnd false, n)]) = word before := by
        rw [word_append]
        exact List.append_nil _
      have hfine : ∀ problem, ¬Offends before (.lineEnd false, n) problem := by
        intro problem hoffends
        cases hoffends
      rw [← hword] at h
      simpa [walk] using ih (hbefore.snoc hfine) h hes'

/-! There is one first offence at most, and none in a text that is fine. -/

theorem Offends.problem_eq (h : Offends before e problem) (h' : Offends before e problem') : problem = problem' := by
  cases h <;> cases h' <;> rfl

theorem FirstOffence.not_balanced {es : List (Event × Nat)} (h : FirstOffence es problem n)
    (hends : ∀ m, (.lineEnd true, m) ∉ es) : ¬Balanced (word es) := by
  intro hbalanced
  cases h with
  | @met before e n after _ hes _ he =>
    subst hes
    cases he with
    | closer _ _ hstuck =>
      refine hstuck ⟨word after, ?_⟩
      rw [word_append] at hbalanced
      simpa [word, bracket?] using hbalanced
    | string => exact hends n (by simp)
  | leftOpen _ hword ho hopen => exact hopen (hbalanced.hasPartner hword ho)

theorem FirstOffence.unique {es : List (Event × Nat)} (h : FirstOffence es problem n)
    (h' : FirstOffence es problem' n') : problem = problem' ∧ n = n' := by
  cases h with
  | met hes hbefore he =>
    cases h' with
    | met hes' hbefore' he' =>
      obtain ⟨rfl, heq, -⟩ | ⟨m, rfl, -⟩ | ⟨m, rfl, -⟩ := append_cons_cases (hes.symm.trans hes')
      · cases heq
        exact ⟨he.problem_eq he', rfl⟩
      · exact absurd he (hbefore' _ _ _ rfl _)
      · exact absurd he' (hbefore _ _ _ rfl _)
    | leftOpen hes' => exact absurd he (hes' _ _ _ hes _)
  | leftOpen hes hword ho hopen hlast =>
    cases h' with
    | met hes' _ he' => exact absurd he' (hes _ _ _ hes' _)
    | leftOpen _ hword' ho' hopen' hlast' =>
      obtain ⟨-, heq, -⟩ | ⟨m, -, rfl⟩ | ⟨m, -, rfl⟩ := append_cons_cases (hword.symm.trans hword')
      · cases heq
        exact ⟨rfl, rfl⟩
      · exact absurd (hlast _ _ _ rfl ho') hopen'
      · exact absurd (hlast' _ _ _ rfl ho) hopen

theorem forall₂_shows_iff {ls : List (List Char)} (hls : ∀ l ∈ ls, '\n' ∉ l) {views : List (List Char × Bool)} :
    List.Forall₂ (fun l v => Shows l v.1 v.2) ls views ↔ views = ls.map (outside none) := by
  induction ls generalizing views with
  | nil => exact List.forall₂_nil_left_iff
  | cons l ls ih =>
    obtain ⟨hl, hls⟩ := List.forall_mem_cons.1 hls
    simp only [List.forall₂_cons_left_iff, shows_iff hl, ih hls, List.map_cons]
    constructor
    · rintro ⟨v, vs, hv, rfl, rfl⟩
      rw [hv]
    · rintro rfl
      exact ⟨_, _, rfl, rfl, rfl⟩

/-- The scan lets a text pass if and only if no line ends inside a string and the brackets that the lines show are
balanced. Otherwise it reports the first offence. -/
theorem scan_exact (text : List Char) :
    ∃ views, (∀ vs, List.Forall₂ (fun l v => Shows l v.1 v.2) (lines text) vs ↔ vs = views) ∧
      (scanFrom 1 [] (lines text) = none ↔ (∀ v ∈ views, v.2 = false) ∧ Balanced (word (events 1 views))) ∧
      ∀ problem n, scanFrom 1 [] (lines text) = some (problem, n) ↔ FirstOffence (events 1 views) problem n := by
  have hfeed : ∀ l ∈ lines text, '\n' ∉ l := by
    intro l hl hmem
    cases isLineEnd_of_mem_lines hl '\n' hmem
  refine ⟨(lines text).map (outside none), fun views => forall₂_shows_iff hfeed, ?_⟩
  rw [scanFrom_eq_walk]
  have hstart : Unblamed [] := fun before e after h => by simp at h
  have hbrackets : ∀ c n, (.bracket c, n) ∈ events 1 ((lines text).map (outside none)) → isBracket c :=
    fun c n hc => isBracket_of_mem_events hc
  have hblames := walk_blames hstart (.nil .nil) hbrackets
  rw [List.nil_append, lineEnd_mem_events] at hblames
  obtain ⟨hwalk, hends, hword⟩ | ⟨problem, n, hwalk, hfirst⟩ := hblames
  · refine ⟨iff_of_true hwalk ⟨hends, hword⟩, fun problem n => iff_of_false (by simp [hwalk]) fun hfirst => ?_⟩
    exact hfirst.not_balanced (lineEnd_mem_events.2 hends) hword
  · refine ⟨iff_of_false (by simp [hwalk]) fun hfine => ?_, fun problem' n' => ?_⟩
    · exact hfirst.not_balanced (lineEnd_mem_events.2 hfine.1) hfine.2
    · rw [hwalk, Option.some.injEq, Prod.mk.injEq]
      constructor
      · rintro ⟨rfl, rfl⟩
        exact hfirst
      · exact hfirst.unique

end Deadwood.Screen
