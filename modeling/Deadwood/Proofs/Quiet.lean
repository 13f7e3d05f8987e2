import Deadwood.Proofs.Printed
import Deadwood.Proofs.Screening

/-! Printed text as the screen sees it: besides strings in quotes nothing in it opens a string or a comment, and the
brackets outside them nest. -/
namespace Deadwood
open Text Screen Print

/-- The characters that mean something to the screen. -/
def Text.isMark (c : Char) : Bool :=
  c ∈ ['(', ')', '[', ']', '\x7b', '\x7d', '"', '\'', '#', ';']

/-- Neither such a character nor a blank that a printed line does not hold. -/
def Text.isPlain (c : Char) : Bool := !isMark c && (!isSpace c || c ∈ [' ', '\t'])

/-- A plain character or a bracket. -/
def Text.isCalm (c : Char) : Bool := isPlain c || (closer? c).isSome || isCloser c

theorem Text.spaces_alphanumeric :
    (spaceRanges.all fun s => alphanumericRanges.all fun r => r.2 < s.1 || s.2 < r.1) = true := by decide +kernel

theorem Text.isSpace_of_isWord {c : Char} (h : isWord c) : isSpace c = false := by
  cases hspace : isSpace c with
  | false => rfl
  | true =>
    simp only [isWord, isSpace, Bool.or_eq_true, Bool.and_eq_true, decide_eq_true_eq, beq_iff_eq] at h hspace
    obtain (h | rfl) | ⟨hc, h⟩ := h
    · have hbounds := isAlphanum_bounds h
      obtain ((rfl | hs) | hs) | hs := hspace
      · exact absurd hbounds (by decide)
      all_goals omega
    · exact absurd hspace (by decide)
    · obtain ((rfl | hs) | hs) | ⟨-, hs⟩ := hspace
      · exact absurd hc (by decide)
      · omega
      · omega
      · obtain ⟨r, hr, hrange⟩ := List.any_eq_true.1 h
        obtain ⟨s, hs, hsrange⟩ := List.any_eq_true.1 hs
        have hdisjoint := List.all_eq_true.1 (List.all_eq_true.1 spaces_alphanumeric s hs) r hr
        simp only [Bool.or_eq_true, Bool.and_eq_true, decide_eq_true_eq] at hrange hsrange hdisjoint
        omega

theorem Text.isPlain_of_continuesName {c : Char} (h : Lexeme.continuesName c) : isPlain c := by
  have hmark : isMark c = false := by
    cases hc : isMark c with
    | false => rfl
    | true =>
      have hmarks : (['(', ')', '[', ']', '\x7b', '\x7d', '"', '\'', '#', ';'].all
        fun d => !Lexeme.continuesName d) = true := by decide
      have hfalse := List.all_eq_true.1 hmarks c (of_decide_eq_true hc)
      rw [h] at hfalse
      cases hfalse
  have hspace : isSpace c = false := by
    simp only [Lexeme.continuesName, Bool.or_eq_true, beq_iff_eq] at h
    obtain h | rfl := h
    · exact isSpace_of_isWord h
    · decide
  simp [isPlain, hmark, hspace]

theorem Text.isPlain_bracket {c : Char} (h : isPlain c) : closer? c = none ∧ isCloser c = false := by
  have hmark : isMark c = false := by
    simp only [isPlain, Bool.and_eq_true, Bool.not_eq_true'] at h
    exact h.1
  constructor
  · unfold closer?
    split
    · cases hmark
    · cases hmark
    · cases hmark
    · rfl
  · simp_all [isCloser, isMark]

/-! The strings of a printed text. -/

/-- The name of an argument stands in quotes unless it is a plain name. -/
def Argument.quotedName (a : Argument) : List (Option (List Point)) :=
  match a.name with
  | some name => if Lexeme.isName name.toList then [] else [some (points name)]
  | none => []

mutual

/-- The strings that a node is printed with, and `none` for each line feed between them. -/
def Node.quotes : Node → List (Option (List Point))
  | .string _ ps => [some ps]
  | .unary _ _ x => x.quotes
  | .binary _ _ l r => l.quotes ++ r.quotes
  | .call _ f args => f.quotes ++ quotesArguments args
  | .index _ t xs _ => t.quotes ++ quotesNodes xs
  | .member _ t _ => t.quotes
  | .block b => b.quotes
  | .assign _ _ t v => t.quotes ++ v.quotes
  | .cond _ c t none => c.quotes ++ t.quotes
  | .cond _ c t (some e) => c.quotes ++ (t.quotes ++ e.quotesElse)
  | .whileLoop _ c b => c.quotes ++ b.quotes
  | .repeatLoop _ b => b.quotes
  | .forLoop _ _ x b => x.quotes ++ b.quotes
  | .function _ ps b => quotesParameters ps ++ b.quotes
  | .jump _ .ret (some x) => x.quotes
  | _ => []

def Block.quotes : Block → List (Option (List Point))
  | ⟨_, ss⟩ => if ss.isEmpty then [] else none :: quotesRows ss

def Block.quotesElse : Block → List (Option (List Point))
  | ⟨_, ss⟩ => if isElseIf ss then quotesNodes ss else if ss.isEmpty then [] else none :: quotesRows ss

def quotesNodes : List Node → List (Option (List Point))
  | [] => []
  | n :: ns => n.quotes ++ quotesNodes ns

def quotesRows : List Node → List (Option (List Point))
  | [] => []
  | n :: ns => n.quotes ++ none :: quotesRows ns

def quotesArguments : List Argument → List (Option (List Point))
  | [] => []
  | ⟨s, name, v⟩ :: as => Argument.quotedName ⟨s, name, v⟩ ++ (v.quotes ++ quotesArguments as)

def quotesParameters : List Parameter → List (Option (List Point))
  | [] => []
  | ⟨_, _, none⟩ :: ps => quotesParameters ps
  | ⟨_, _, some d⟩ :: ps => d.quotes ++ quotesParameters ps

end

def Program.quotes (p : Program) : List (Option (List Point)) := quotesRows p.body

/-! Text that is quiet outside its strings. -/

/-- Calm characters, line feeds and strings in quotes; `seen` is what is left of the lines without the strings. -/
inductive Masked : (text seen : List Char) → List (Option (List Point)) → Prop where
  | nil : Masked [] [] []
  | calm (hc : isCalm c) (h : Masked r seen qs) : Masked (c :: r) (c :: seen) qs
  | feed (h : Masked r seen qs) : Masked ('\n' :: r) seen (none :: qs)
  | quoted (ps : List Point) (h : Masked r seen qs) : Masked ((literal ps).toList ++ r) seen (some ps :: qs)

theorem Masked.append (ha : Masked a seen qs) (hb : Masked b seen' qs') :
    Masked (a ++ b) (seen ++ seen') (qs ++ qs') := by
  induction ha with
  | nil => exact hb
  | calm hc _ ih => exact .calm hc ih
  | feed _ ih => exact .feed ih
  | quoted ps _ ih =>
    rw [List.append_assoc]
    exact .quoted ps ih

theorem Masked.of_calm (h : ∀ c ∈ text, isCalm c) : Masked text text [] := by
  induction text with
  | nil => exact .nil
  | cons c r ih =>
    obtain ⟨hc, hr⟩ := List.forall_mem_cons.1 h
    exact .calm hc (ih hr)

/-- Text whose brackets outside strings nest. -/
def Quiet (text : List Char) (qs : List (Option (List Point))) : Prop :=
  ∃ seen, Masked text seen qs ∧ ∀ opened, nests opened seen = some opened

namespace Quiet

theorem append (ha : Quiet a qs) (hb : Quiet b qs') : Quiet (a ++ b) (qs ++ qs') := by
  obtain ⟨seen, hmasked, hnested⟩ := ha
  obtain ⟨seen', hmasked', hnested'⟩ := hb
  refine ⟨seen ++ seen', hmasked.append hmasked', fun opened => ?_⟩
  rw [nests_append, hnested, Option.bind_some, hnested']

theorem plain (h : text.all isPlain) : Quiet text [] := by
  refine ⟨text, .of_calm fun c hc => by simp [isCalm, List.all_eq_true.1 h c hc], fun opened => ?_⟩
  induction text with
  | nil => rfl
  | cons c r ih =>
    simp only [List.all_cons, Bool.and_eq_true] at h
    obtain ⟨hopen, hclose⟩ := isPlain_bracket h.1
    simp only [nests, hopen, hclose, Option.isSome_none, Bool.false_eq_true, if_false]
    exact ih h.2

theorem feed : Quiet ['\n'] [none] := ⟨[], .feed .nil, fun _ => rfl⟩

theorem quoted (ps : List Point) : Quiet (literal ps).toList [some ps] := by
  refine ⟨[], ?_, fun _ => rfl⟩
  have hmasked := Masked.quoted ps .nil
  rwa [List.append_nil] at hmasked

theorem enclosed {o c : Char} (hclose : closer? o = some c) (h : Quiet text qs) : Quiet (o :: (text ++ [c])) qs := by
  have hc : (closer? c).isSome = false ∧ isCloser c := by
    unfold closer? at hclose
    split at hclose <;> cases hclose <;> decide
  obtain ⟨seen, hmasked, hnested⟩ := h
  have hlast := hmasked.append (.calm (by simp [isCalm, hc.2]) .nil : Masked [c] [c] [])
  rw [List.append_nil] at hlast
  refine ⟨o :: (seen ++ [c]), .calm (by simp [isCalm, hclose]) hlast, fun opened => ?_⟩
  have hopen : nests opened (o :: (seen ++ [c])) = nests (o :: opened) (seen ++ [c]) := by simp [nests, hclose]
  rw [hopen, nests_append, hnested]
  simp [nests, hc, hclose]

/-- Names hold plain characters only. -/
theorem of_isName {s : String} (h : Lexeme.isName s.toList) : Quiet s.toList [] := by
  refine plain (List.all_eq_true.2 fun c hc => isPlain_of_continuesName ?_)
  cases hs : s.toList with
  | nil =>
    rw [hs] at hc
    cases hc
  | cons d r =>
    rw [hs] at h hc
    obtain ⟨hd, hr⟩ := Lexeme.isName_cons h
    obtain rfl | hc := List.mem_cons.1 hc
    · simp only [Lexeme.startsWord, Bool.or_eq_true, beq_iff_eq] at hd
      obtain hd | rfl := hd
      · simp [Lexeme.continuesName, isWord, Char.isAlphanum, hd]
      · decide
    · exact List.all_eq_true.1 hr c hc

theorem member {s : String} (h : Lexeme.isMemberText s) : Quiet s.toList [] :=
  of_isName (Lexeme.isName_of_isMemberText h)

theorem name {s : String} (h : Lexeme.isNameText s) : Quiet s.toList [] := of_isName (Lexeme.isName_of_isNameText h)

theorem number {s : String} (h : Lexeme.isNumberText s) : Quiet s.toList [] := by
  refine plain (List.all_eq_true.2 fun c hc => ?_)
  have hnumeric := Lexeme.isNumeric_of_isNumberText h c hc
  simp only [Lexeme.isNumeric, Lexeme.isSign, Bool.or_eq_true, beq_iff_eq] at hnumeric
  obtain hc | rfl | rfl := hnumeric
  · exact isPlain_of_continuesName hc
  · decide
  · decide

theorem paren (h : Quiet text qs) : Quiet ('(' :: (text ++ [')'])) qs := enclosed rfl h

theorem wrap {text : String} (h : Quiet text.toList qs) (n : Node) (strength : Nat) (strict : Bool) :
    Quiet (wrap n strength strict text).toList qs := by
  unfold Print.wrap
  split
  · simpa using h.paren
  · exact h

theorem blanks {cs : List Char} (hcs : ∀ c ∈ cs, c = ' ' ∨ c = '\t') : Quiet cs [] := by
  refine plain (List.all_eq_true.2 fun c hc => ?_)
  obtain rfl | rfl := hcs c hc <;> decide

end Quiet

/-- Items that are quiet one by one. -/
def QuietEach (texts : List String) (qss : List (List (Option (List Point)))) : Prop :=
  List.Forall₂ (fun text qs => Quiet text.toList qs) texts qss

namespace QuietEach

theorem intercalate (h : QuietEach texts qss) : Quiet (String.intercalate ", " texts).toList qss.flatten := by
  rw [String.toList_intercalate]
  induction h with
  | nil => exact .plain rfl
  | @cons text qs texts qss hfirst hmore ih =>
    cases hmore with
    | nil => simpa using hfirst
    | cons =>
      have hcomma : Quiet [',', ' '] [] := .plain (by decide)
      simpa [List.intercalate] using hfirst.append (hcomma.append ih)

theorem join (h : QuietEach texts qss) : Quiet (String.join texts).toList qss.flatten := by
  rw [String.toList_join]
  induction h with
  | nil => exact .plain rfl
  | cons hfirst _ ih => exact hfirst.append ih

theorem rowText {pad : List Char} (hpad : ∀ c ∈ pad, c = ' ' ∨ c = '\t') (h : QuietEach texts qss) :
    Quiet (rowText pad texts) (qss.flatMap (· ++ [none])) := by
  induction h with
  | nil => exact .plain rfl
  | cons hfirst _ ih => exact ((Quiet.blanks hpad).append (hfirst.append .feed)).append ih

theorem braced {indent : String} (hindent : ∀ c ∈ indent.toList, c = ' ' ∨ c = '\t') (level : Int)
    (h : QuietEach texts qss) :
    Quiet (braced indent level texts).toList (if qss.isEmpty then [] else none :: qss.flatMap (· ++ [none])) := by
  by_cases hempty : texts = []
  · subst hempty
    cases h
    have hnil : Quiet [] [] := .plain rfl
    simpa [Print.braced] using hnil.enclosed (o := '\x7b') rfl
  · have hqss : qss.isEmpty = false := by cases h <;> first | rfl | exact absurd rfl hempty
    have hrows := h.rowText (pad_blank hindent (level + 1))
    have hinner := Quiet.feed.append (hrows.append (.blanks (pad_blank hindent level)))
    rw [toList_braced _ _ _ hempty, hqss]
    simpa using hinner.enclosed (o := '\x7b') rfl

end QuietEach

/-- The operator holds no character that means something to the screen. -/
def BinaryOp.isQuiet : BinaryOp → Bool
  | .special s => s.toList.all (!isMark ·)
  | _ => true

def Node.isQuiet : Node → Bool
  | .binary _ op _ _ => op.isQuiet
  | _ => true

theorem Lexeme.isSpace_of_percentTail {r : List Char} (h : percentTail r = some n) :
    ∀ c ∈ r.take n, isSpace c = false := by
  fun_induction percentTail r generalizing n with
  | case1 => cases h
  | case2 c r hc =>
    cases h
    obtain rfl : c = '%' := by simpa using hc
    simp only [List.take_succ_cons, List.take_zero, List.forall_mem_singleton]
    decide
  | case3 c r hc hspace => cases h
  | case4 c r hc hspace ih =>
    obtain ⟨m, hm, rfl⟩ := Option.map_eq_some_iff.1 h
    simp only [List.take_succ_cons, List.forall_mem_cons]
    exact ⟨by simpa using hspace, ih hm⟩

theorem Quiet.op {op : BinaryOp} (h : op.isSpelled) (hq : op.isQuiet) : Quiet op.text.toList [] := by
  refine plain ?_
  cases op with
  | arith a => cases a <;> decide
  | rel o => cases o <;> decide
  | special s =>
    simp only [BinaryOp.isSpelled, BinaryOp.isQuiet, Bool.and_eq_true, beq_iff_eq, List.all_eq_true] at h hq
    obtain ⟨hs, -⟩ := h
    split at hs
    · next r hr =>
      have htail := Lexeme.isSpace_of_percentTail (by simpa using hs)
      rw [List.take_length] at htail
      refine List.all_eq_true.2 fun c hc => ?_
      have hspace : isSpace c = false := by
        rw [BinaryOp.text, hr, List.mem_cons] at hc
        obtain rfl | hc := hc
        · decide
        · exact htail c hc
      simpa [isPlain, hspace] using hq c hc
    · cases hs
  | unknown => cases h
  | _ => decide

theorem Quiet.infixed {op : BinaryOp} (hop : Quiet op.text.toList []) {l r : String} (hl : Quiet l.toList qs)
    (hr : Quiet r.toList qs') : Quiet (infixed op l r).toList (qs ++ qs') := by
  have hspace : Quiet [' '] [] := .plain (by decide)
  have hcolon : Quiet [':'] [] := .plain (by decide)
  unfold Print.infixed
  split
  · simpa using hl.append (hcolon.append hr)
  · simpa using hl.append (hspace.append (hop.append (hspace.append hr)))

theorem Quiet.named {name text : String} (hname : Quiet name.toList qs) (h : Quiet text.toList qs') :
    Quiet (name ++ " = " ++ text).toList (qs ++ qs') := by
  have hequals : Quiet [' ', '=', ' '] [] := .plain (by decide)
  simpa using hname.append (hequals.append h)

theorem Quiet.argumentName {name : String} (h : '\n' ∉ name.toList) (s : Span) (v : Node) :
    Quiet (argumentName name).toList (Argument.quotedName ⟨s, some name, v⟩) := by
  rw [argumentName_eq h, Argument.quotedName]
  dsimp only
  split
  · next hname => exact .of_isName hname
  · exact .quoted (points name)

def Argument.quotes (a : Argument) : List (Option (List Point)) := a.quotedName ++ a.value.quotes

def Parameter.quotes (a : Parameter) : List (Option (List Point)) := (a.default?.map Node.quotes).getD []

theorem quotesNodes_eq (ns : List Node) : quotesNodes ns = (ns.map Node.quotes).flatten := by
  induction ns with
  | nil => rfl
  | cons n ns ih => rw [quotesNodes, ih, List.map_cons, List.flatten_cons]

theorem quotesRows_eq (ns : List Node) : quotesRows ns = (ns.map Node.quotes).flatMap (· ++ [none]) := by
  induction ns with
  | nil => rfl
  | cons n ns ih => simp [quotesRows, ih]

theorem quotesArguments_eq (as : List Argument) : quotesArguments as = (as.map Argument.quotes).flatten := by
  induction as with
  | nil => rfl
  | cons a as ih =>
    obtain ⟨s, name, v⟩ := a
    simp [quotesArguments, ih, Argument.quotes]

theorem quotesParameters_eq (ps : List Parameter) : quotesParameters ps = (ps.map Parameter.quotes).flatten := by
  induction ps with
  | nil => rfl
  | cons a ps ih =>
    obtain ⟨_, _, _ | d⟩ := a <;> simp [quotesParameters, ih, Parameter.quotes]

/-! A spelled tree has no strings. -/

mutual

theorem Node.quotes_isNone : (n : Node) → n.all Node.isSpelled → n.quotes.all Option.isNone
  | .string .., h => by cases h
  | .number .., _ | .boolean .., _ | .null _, _ | .identifier _, _ => rfl
  | .unary _ _ x, h | .member _ x _, h => by
    simp only [Node.all, Bool.and_eq_true] at h
    exact x.quotes_isNone h.2
  | .binary _ _ l r, h | .assign _ _ l r, h => by
    simp only [Node.all, Bool.and_eq_true] at h
    simp only [Node.quotes, List.all_append, l.quotes_isNone h.1.2, r.quotes_isNone h.2, Bool.and_self]
  | .call _ f args, h => by
    simp only [Node.all, Node.isSpelled, Bool.and_eq_true] at h
    simp only [Node.quotes, List.all_append, f.quotes_isNone h.1.2, quotesArguments_isNone args h.1.1.1.2 h.2,
      Bool.and_self]
  | .index _ t xs _, h => by
    simp only [Node.all, Bool.and_eq_true] at h
    simp only [Node.quotes, List.all_append, t.quotes_isNone h.1.2, quotesNodes_isNone xs h.2, Bool.and_self]
  | .block b, h | .repeatLoop _ b, h => by
    simp only [Node.all, Bool.and_eq_true] at h
    exact b.quotes_isNone h.2
  | .cond _ c t none, h => by
    simp only [Node.all, Bool.and_eq_true] at h
    simp only [Node.quotes, List.all_append, c.quotes_isNone h.1.2, t.quotes_isNone h.2, Bool.and_self]
  | .cond _ c t (some e), h => by
    simp only [Node.all, Bool.and_eq_true] at h
    simp only [Node.quotes, List.all_append, c.quotes_isNone h.1.1.2, t.quotes_isNone h.1.2,
      e.quotesElse_isNone h.2, Bool.and_self]
  | .whileLoop _ c b, h | .forLoop _ _ c b, h => by
    simp only [Node.all, Bool.and_eq_true] at h
    simp only [Node.quotes, List.all_append, c.quotes_isNone h.1.2, b.quotes_isNone h.2, Bool.and_self]
  | .function _ ps b, h => by
    simp only [Node.all, Bool.and_eq_true] at h
    simp only [Node.quotes, List.all_append, quotesParameters_isNone ps h.1.2, b.quotes_isNone h.2, Bool.and_self]
  | .jump _ .ret none, _ | .jump _ .brk _, _ | .jump _ .nxt _, _ => rfl
  | .jump _ .ret (some x), h => by
    simp only [Node.all, Bool.and_eq_true] at h
    exact x.quotes_isNone h.2

theorem Block.quotes_isNone : (b : Block) → b.all Node.isSpelled → b.quotes.all Option.isNone
  | ⟨_, ss⟩, h => by
    rw [Block.quotes]
    split
    · rfl
    · exact quotesRows_isNone ss h

theorem Block.quotesElse_isNone : (b : Block) → b.all Node.isSpelled → b.quotesElse.all Option.isNone
  | ⟨_, ss⟩, h => by
    rw [Block.quotesElse]
    split
    · exact quotesNodes_isNone ss h
    · split
      · rfl
      · exact quotesRows_isNone ss h

theorem quotesNodes_isNone : (ns : List Node) → allNodes Node.isSpelled ns → (quotesNodes ns).all Option.isNone
  | [], _ => rfl
  | n :: ns, h => by
    simp only [allNodes, Bool.and_eq_true] at h
    simp only [quotesNodes, List.all_append, n.quotes_isNone h.1, quotesNodes_isNone ns h.2, Bool.and_self]

theorem quotesRows_isNone : (ns : List Node) → allNodes Node.isSpelled ns → (quotesRows ns).all Option.isNone
  | [], _ => rfl
  | n :: ns, h => by
    simp only [allNodes, Bool.and_eq_true] at h
    simp only [quotesRows, List.all_append, List.all_cons, n.quotes_isNone h.1, quotesRows_isNone ns h.2,
      Option.isNone_none, Bool.and_self]

theorem quotesArguments_isNone : (as : List Argument) → as.all Argument.isSpelled → allArguments Node.isSpelled as →
    (quotesArguments as).all Option.isNone
  | [], _, _ => rfl
  | ⟨s, name?, v⟩ :: as, hnames, h => by
    simp only [allArguments, List.all_cons, Argument.isSpelled, Bool.and_eq_true] at h hnames
    have hquoted : (Argument.quotedName ⟨s, name?, v⟩).all Option.isNone := by
      cases name? with
      | none => rfl
      | some name => simp [Argument.quotedName, Lexeme.isName_of_isNameText hnames.1.2]
    simp only [quotesArguments, List.all_append, hquoted, v.quotes_isNone h.1,
      quotesArguments_isNone as hnames.2 h.2, Bool.and_self]

theorem quotesParameters_isNone : (ps : List Parameter) → allParameters Node.isSpelled ps →
    (quotesParameters ps).all Option.isNone
  | [], _ => rfl
  | ⟨_, _, none⟩ :: ps, h => quotesParameters_isNone ps h
  | ⟨_, _, some d⟩ :: ps, h => by
    simp only [allParameters, Bool.and_eq_true] at h
    simp only [quotesParameters, List.all_append, d.quotes_isNone h.1, quotesParameters_isNone ps h.2, Bool.and_self]

end

section
variable {indent : String}

mutual

theorem Print.node_quiet (hindent : ∀ c ∈ indent.toList, c = ' ' ∨ c = '\t') (level : Int) : (n : Node) →
    n.all Node.isCut → n.all Node.isQuiet → ∃ text, node indent level n = .ok text ∧ Quiet text.toList n.quotes
  | .string _ ps, _, _ => ⟨_, rfl, .quoted ps⟩
  | .number _ v i, h, _ => by
    obtain ⟨-, hprint, hinf | htext⟩ := Number.isCut_iff.1 h
    · refine ⟨_, hprint, ?_⟩
      rw [hinf]
      exact .name (by decide)
    · exact ⟨_, hprint, .number htext.1⟩
  | .boolean _ true, _, _ => ⟨_, rfl, .plain (by decide)⟩
  | .boolean _ false, _, _ => ⟨_, rfl, .plain (by decide)⟩
  | .null _, _, _ => ⟨_, rfl, .plain (by decide)⟩
  | .identifier id, h, _ => ⟨_, rfl, .name h⟩
  | .unary s op x, h, hq => by
    simp only [Node.all, Node.isCut, Node.isSpelled, Bool.and_eq_true] at h hq
    obtain ⟨text, hx, htext⟩ := node_quiet hindent level x h.2 hq.2
    refine ⟨_, by rw [node, op.precedence_eq h.1.1, hx]; rfl, ?_⟩
    have hop : Quiet op.text.toList [] := by
      cases op with
      | unknown => cases h.1.1
      | _ => exact .plain (by decide)
    simpa [Node.quotes] using hop.append (htext.wrap x op.strength false)
  | .binary s op l r, h, hq => by
    simp only [Node.all, Node.isCut, Node.isSpelled, Node.isQuiet, Bool.and_eq_true] at h hq
    obtain ⟨left, hl, hleft⟩ := node_quiet hindent level l h.1.2 hq.1.2
    obtain ⟨right, hr, hright⟩ := node_quiet hindent level r h.2 hq.2
    refine ⟨_, by rw [node, op.precedence_eq h.1.1.1.1, hl, hr]; rfl, ?_⟩
    exact (Quiet.op h.1.1.1.1 hq.1.1).infixed (hleft.wrap l _ _) (hright.wrap r _ _)
  | .call s f args, h, hq => by
    simp only [Node.all, Node.isCut, Bool.and_eq_true] at h hq
    obtain ⟨callee, hf, hcallee⟩ := node_quiet hindent level f h.1.2 hq.1.2
    obtain ⟨texts, hargs, htexts⟩ := arguments_quiet hindent level args h.1.1.1.2 h.2 hq.2
    refine ⟨_, by rw [node, hf, hargs]; rfl, ?_⟩
    simpa [Node.quotes, quotesArguments_eq] using (hcallee.wrap f atomic false).append htexts.intercalate.paren
  | .index s t xs d, h, hq => by
    simp only [Node.all, Bool.and_eq_true] at h hq
    obtain ⟨target, ht, htarget⟩ := node_quiet hindent level t h.1.2 hq.1.2
    obtain ⟨texts, hxs, htexts⟩ := nodes_quiet hindent level xs h.2 hq.2
    refine ⟨_, by rw [node, ht, hxs]; rfl, ?_⟩
    have hinner := htexts.intercalate.enclosed (o := '[') rfl
    cases d with
    | true =>
      simpa [Node.quotes, quotesNodes_eq] using
        (htarget.wrap t atomic false).append (hinner.enclosed (o := '[') rfl)
    | false => simpa [Node.quotes, quotesNodes_eq] using (htarget.wrap t atomic false).append hinner
  | .member s t name, h, hq => by
    simp only [Node.all, Node.isCut, Node.isSpelled, Bool.and_eq_true] at h hq
    obtain ⟨target, ht, htarget⟩ := node_quiet hindent level t h.2 hq.2
    refine ⟨_, by rw [node, ht]; rfl, ?_⟩
    have hdollar : Quiet ['$'] [] := .plain (by decide)
    simpa [Node.quotes] using (htarget.wrap t atomic false).append (hdollar.append (Quiet.member h.1.2))
  | .block b, h, hq => by
    simp only [Node.all, Bool.and_eq_true] at h hq
    exact block_quiet hindent level b h.2 hq.2
  | .assign s op t v, h, hq => by
    simp only [Node.all, Node.isCut, Node.isSpelled, Bool.and_eq_true] at h hq
    obtain ⟨target, ht, htarget⟩ := node_quiet hindent level t h.1.2 hq.1.2
    obtain ⟨value, hv, hvalue⟩ := node_quiet hindent level v h.2 hq.2
    refine ⟨_, by rw [node, ht, hv]; rfl, ?_⟩
    have hop : Quiet (' ' :: (op.text.toList ++ [' '])) [] := by
      cases op with
      | unknown => cases h.1.1.1.1
      | _ => exact .plain (by decide)
    simpa [Node.quotes] using htarget.append (hop.append hvalue)
  | .cond s c t none, h, hq => by
    simp only [Node.all, Bool.and_eq_true] at h hq
    obtain ⟨condition, hc, hcondition⟩ := node_quiet hindent level c h.1.2 hq.1.2
    obtain ⟨yes, ht, hyes⟩ := block_quiet hindent level t h.2 hq.2
    refine ⟨_, by rw [node, hc, ht]; rfl, ?_⟩
    have hif : Quiet ['i', 'f', ' '] [] := .plain (by decide)
    have hspace : Quiet [' '] [] := .plain (by decide)
    simpa [Node.quotes] using hif.append (hcondition.paren.append (hspace.append hyes))
  | .cond s c t (some e), h, hq => by
    simp only [Node.all, Bool.and_eq_true] at h hq
    obtain ⟨condition, hc, hcondition⟩ := node_quiet hindent level c h.1.1.2 hq.1.1.2
    obtain ⟨yes, ht, hyes⟩ := block_quiet hindent level t h.1.2 hq.1.2
    obtain ⟨no, he, hno⟩ := alternative_quiet hindent level e h.2 hq.2
    refine ⟨_, by rw [node, hc, ht, he]; rfl, ?_⟩
    have hif : Quiet ['i', 'f', ' '] [] := .plain (by decide)
    have hspace : Quiet [' '] [] := .plain (by decide)
    have helse : Quiet [' ', 'e', 'l', 's', 'e', ' '] [] := .plain (by decide)
    simpa [Node.quotes] using hif.append (hcondition.paren.append (hspace.append (hyes.append (helse.append hno))))
  | .whileLoop s c b, h, hq => by
    simp only [Node.all, Bool.and_eq_true] at h hq
    obtain ⟨condition, hc, hcondition⟩ := node_quiet hindent level c h.1.2 hq.1.2
    obtain ⟨body, hb, hbody⟩ := block_quiet hindent level b h.2 hq.2
    refine ⟨_, by rw [node, hc, hb]; rfl, ?_⟩
    have hwhile : Quiet ['w', 'h', 'i', 'l', 'e', ' '] [] := .plain (by decide)
    have hspace : Quiet [' '] [] := .plain (by decide)
    simpa [Node.quotes] using hwhile.append (hcondition.paren.append (hspace.append hbody))
  | .repeatLoop s b, h, hq => by
    simp only [Node.all, Bool.and_eq_true] at h hq
    obtain ⟨body, hb, hbody⟩ := block_quiet hindent level b h.2 hq.2
    refine ⟨_, by rw [node, hb]; rfl, ?_⟩
    have hrepeat : Quiet ['r', 'e', 'p', 'e', 'a', 't', ' '] [] := .plain (by decide)
    simpa [Node.quotes] using hrepeat.append hbody
  | .forLoop s v x b, h, hq => by
    simp only [Node.all, Node.isCut, Bool.and_eq_true] at h hq
    obtain ⟨iterable, hx, hiterable⟩ := node_quiet hindent level x h.1.2 hq.1.2
    obtain ⟨body, hb, hbody⟩ := block_quiet hindent level b h.2 hq.2
    refine ⟨_, by rw [node, hx, hb]; rfl, ?_⟩
    have hfor : Quiet ['f', 'o', 'r', ' '] [] := .plain (by decide)
    have hin : Quiet [' ', 'i', 'n', ' '] [] := .plain (by decide)
    have hspace : Quiet [' '] [] := .plain (by decide)
    have hheader := ((Quiet.member h.1.1.1).append (hin.append hiterable)).paren
    simpa [Node.quotes] using hfor.append (hheader.append (hspace.append hbody))
  | .function s ps b, h, hq => by
    simp only [Node.all, Node.isCut, Bool.and_eq_true] at h hq
    obtain ⟨texts, hps, htexts⟩ := parameters_quiet hindent level ps h.1.1 h.1.2 hq.1.2
    obtain ⟨body, hb, hbody⟩ := block_quiet hindent level b h.2 hq.2
    refine ⟨_, by rw [node, hps, hb]; rfl, ?_⟩
    have hfunction : Quiet ['f', 'u', 'n', 'c', 't', 'i', 'o', 'n'] [] := .plain (by decide)
    have hspace : Quiet [' '] [] := .plain (by decide)
    simpa [Node.quotes, quotesParameters_eq] using
      hfunction.append (htexts.intercalate.paren.append (hspace.append hbody))
  | .jump s .ret none, _, _ => by
    refine ⟨_, rfl, ?_⟩
    have hreturn : Quiet ['r', 'e', 't', 'u', 'r', 'n'] [] := .plain (by decide)
    have hnil : Quiet [] [] := .plain rfl
    simpa [Node.quotes] using hreturn.append hnil.paren
  | .jump s .ret (some x), h, hq => by
    simp only [Node.all, Bool.and_eq_true] at h hq
    obtain ⟨payload, hx, hpayload⟩ := node_quiet hindent level x h.2 hq.2
    refine ⟨_, by rw [node, hx]; rfl, ?_⟩
    have hreturn : Quiet ['r', 'e', 't', 'u', 'r', 'n'] [] := .plain (by decide)
    simpa [Node.quotes] using hreturn.append hpayload.paren
  | .jump s .brk x?, _, _ => ⟨_, rfl, .plain (by decide)⟩
  | .jump s .nxt x?, _, _ => ⟨_, rfl, .plain (by decide)⟩

theorem Print.block_quiet (hindent : ∀ c ∈ indent.toList, c = ' ' ∨ c = '\t') (level : Int) : (b : Block) →
    b.all Node.isCut → b.all Node.isQuiet → ∃ text, block indent level b = .ok text ∧ Quiet text.toList b.quotes
  | ⟨_, ss⟩, h, hq => by
    obtain ⟨texts, hss, htexts⟩ := nodes_quiet hindent (level + 1) ss h hq
    refine ⟨_, by rw [block, hss]; rfl, ?_⟩
    simpa [Block.quotes, quotesRows_eq] using htexts.braced hindent level

theorem Print.alternative_quiet (hindent : ∀ c ∈ indent.toList, c = ' ' ∨ c = '\t') (level : Int) : (b : Block) →
    b.all Node.isCut → b.all Node.isQuiet →
      ∃ text, alternative indent level b = .ok text ∧ Quiet text.toList b.quotesElse
  | ⟨_, ss⟩, h, hq => by
    rw [alternative]
    cases hif : isElseIf ss with
    | true =>
      obtain ⟨texts, hss, htexts⟩ := nodes_quiet hindent level ss h hq
      refine ⟨_, by rw [hss]; rfl, ?_⟩
      simpa [Block.quotesElse, hif, quotesNodes_eq] using htexts.join
    | false =>
      obtain ⟨texts, hss, htexts⟩ := nodes_quiet hindent (level + 1) ss h hq
      refine ⟨_, by rw [hss]; rfl, ?_⟩
      simpa [Block.quotesElse, hif, quotesRows_eq] using htexts.braced hindent level

theorem Print.nodes_quiet (hindent : ∀ c ∈ indent.toList, c = ' ' ∨ c = '\t') (level : Int) : (ns : List Node) →
    allNodes Node.isCut ns → allNodes Node.isQuiet ns →
    ∃ texts, nodes indent level ns = .ok texts ∧ QuietEach texts (ns.map Node.quotes)
  | [], _, _ => ⟨_, rfl, .nil⟩
  | n :: ns, h, hq => by
    simp only [allNodes, Bool.and_eq_true] at h hq
    obtain ⟨text, hn, htext⟩ := node_quiet hindent level n h.1 hq.1
    obtain ⟨texts, hns, htexts⟩ := nodes_quiet hindent level ns h.2 hq.2
    exact ⟨_, by rw [nodes, hn, hns]; rfl, .cons htext htexts⟩

theorem Print.arguments_quiet (hindent : ∀ c ∈ indent.toList, c = ' ' ∨ c = '\t') (level : Int) :
    (as : List Argument) → as.all Argument.isCut → allArguments Node.isCut as →
    allArguments Node.isQuiet as →
      ∃ texts, arguments indent level as = .ok texts ∧ QuietEach texts (as.map Argument.quotes)
  | [], _, _, _ => ⟨_, rfl, .nil⟩
  | ⟨_, none, v⟩ :: as, hnames, h, hq => by
    simp only [allArguments, List.all_cons, Bool.and_eq_true] at h hq hnames
    obtain ⟨text, hv, htext⟩ := node_quiet hindent level v h.1 hq.1
    obtain ⟨texts, has, htexts⟩ := arguments_quiet hindent level as hnames.2 h.2 hq.2
    exact ⟨_, by rw [arguments, hv, has]; rfl, .cons htext htexts⟩
  | ⟨_, some name, v⟩ :: as, hnames, h, hq => by
    simp only [allArguments, List.all_cons, Argument.isCut, Bool.and_eq_true] at h hq hnames
    obtain ⟨text, hv, htext⟩ := node_quiet hindent level v h.1 hq.1
    obtain ⟨texts, has, htexts⟩ := arguments_quiet hindent level as hnames.2 h.2 hq.2
    have hfeed : '\n' ∉ name.toList := by simpa using hnames.1.2
    exact ⟨_, by rw [arguments, hv, has]; rfl, .cons ((Quiet.argumentName hfeed _ v).named htext) htexts⟩

theorem Print.parameters_quiet (hindent : ∀ c ∈ indent.toList, c = ' ' ∨ c = '\t') (level : Int) :
    (ps : List Parameter) → ps.all Parameter.isCut → allParameters Node.isCut ps →
    allParameters Node.isQuiet ps →
    ∃ texts, parameters indent level ps = .ok texts ∧ QuietEach texts (ps.map Parameter.quotes)
  | [], _, _, _ => ⟨_, rfl, .nil⟩
  | ⟨_, name, none⟩ :: ps, hnames, h, hq => by
    simp only [List.all_cons, Parameter.isCut, Bool.and_eq_true] at hnames
    obtain ⟨texts, hps, htexts⟩ := parameters_quiet hindent level ps hnames.2 h hq
    exact ⟨_, by rw [parameters, hps]; rfl, .cons (.member hnames.1.1) htexts⟩
  | ⟨_, name, some d⟩ :: ps, hnames, h, hq => by
    simp only [allParameters, List.all_cons, Parameter.isCut, Bool.and_eq_true] at h hq hnames
    obtain ⟨text, hd, htext⟩ := node_quiet hindent level d h.1 hq.1
    obtain ⟨texts, hps, htexts⟩ := parameters_quiet hindent level ps hnames.2 h.2 hq.2
    exact ⟨_, by rw [parameters, hd, hps]; rfl, .cons ((Quiet.member hnames.1.1).named htext) htexts⟩

end

variable (hindent : ∀ c ∈ indent.toList, c = ' ' ∨ c = '\t')
include hindent

theorem Program.print_quiet_of_isCut {p : Program} (h : p.all Node.isCut) (hq : p.all Node.isQuiet) :
    ∃ text, p.print indent = .ok text ∧ Quiet text.toList p.quotes := by
  obtain ⟨texts, hbody, htexts⟩ := nodes_quiet hindent 0 p.body h hq
  refine ⟨_, by rw [print, hbody]; rfl, ?_⟩
  have hrows := htexts.rowText (List.forall_mem_nil _)
  simpa [String.toList_join, rowText, List.flatMap_map, Program.quotes, quotesRows_eq] using hrows

theorem Program.print_quiet {p : Program} (h : p.all Node.isSpelled) (hq : p.all Node.isQuiet) :
    ∃ text, p.print indent = .ok text ∧ Quiet text.toList p.quotes :=
  print_quiet_of_isCut hindent (allNodes_isCut h) hq

end

end Deadwood
