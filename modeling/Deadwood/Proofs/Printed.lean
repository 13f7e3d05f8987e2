import Deadwood.Proofs.Quotation
import Deadwood.Proofs.Spelling
import Mathlib.Data.List.Forall2

/-! The lexemes of printed text. Layout is forgotten: what is left of a printed tree are its names,
operators and marks, and the line breaks between statements. -/
namespace Deadwood
open Lexeme (isBlank scan scan_newline bounds Bounded bounded_cons)

/-! Blanks and single marks. -/

theorem lexemes_dropWhile_isBlank (cs : List Char) : lexemes (cs.dropWhile isBlank) = lexemes cs := by
  cases cs with
  | nil => rfl
  | cons c r =>
    cases hc : isBlank c with
    | false => rw [List.dropWhile_cons_of_neg (by simp [hc])]
    | true =>
      rw [List.dropWhile_cons_of_pos hc]
      by_cases hbreak : c = '\r' ∧ r.head? = some '\n'
      · -- a line break may start with a blank
        obtain ⟨rfl, hr⟩ := hbreak
        obtain ⟨r, rfl⟩ := List.head?_eq_some_iff.1 hr
        exact (lexemes_newline r).trans (lexemes_cons '\r' ('\n' :: r)).symm
      · rw [lexemes_cons, Lexeme.scan_blank hc hbreak, drop_length_takeWhile]
        rfl

theorem lexemes_blank {c : Char} (hc : c = ' ' ∨ c = '\t') (r : List Char) : lexemes (c :: r) = lexemes r := by
  rw [← lexemes_dropWhile_isBlank (c :: r), ← lexemes_dropWhile_isBlank r]
  obtain rfl | rfl := hc <;> rfl

theorem lexemes_blanks {cs : List Char} (hcs : ∀ c ∈ cs, c = ' ' ∨ c = '\t') (r : List Char) :
    lexemes (cs ++ r) = lexemes r := by
  induction cs with
  | nil => rfl
  | cons c cs ih =>
    rw [List.cons_append, lexemes_blank (hcs c (by simp)), ih fun d hd => hcs d (by simp [hd])]

@[simp] theorem lexemes_space (r : List Char) : lexemes (' ' :: r) = lexemes r := lexemes_blank (.inl rfl) r

@[simp] theorem lexemes_openParen (r : List Char) : lexemes ('(' :: r) = .openParen :: lexemes r :=
  lexemes_cons _ _

@[simp] theorem lexemes_closeParen (r : List Char) : lexemes (')' :: r) = .closeParen :: lexemes r :=
  lexemes_cons _ _

@[simp] theorem lexemes_openBrace (r : List Char) : lexemes ('\x7b' :: r) = .openBrace :: lexemes r :=
  lexemes_cons _ _

@[simp] theorem lexemes_closeBrace (r : List Char) : lexemes ('\x7d' :: r) = .closeBrace :: lexemes r :=
  lexemes_cons _ _

@[simp] theorem lexemes_comma (r : List Char) : lexemes (',' :: r) = .comma :: lexemes r :=
  lexemes_cons _ _

@[simp] theorem lexemes_dollar (r : List Char) : lexemes ('$' :: r) = .dollar :: lexemes r :=
  lexemes_cons _ _

@[simp] theorem lexemes_range (r : List Char) : lexemes (':' :: r) = .op .range :: lexemes r :=
  lexemes_cons _ _

@[simp] theorem lexemes_closeBracket (r : List Char) :
    lexemes (']' :: r) = .closeBracket (r.head? == some ']') :: lexemes r :=
  lexemes_cons _ _

/-! The lexemes of a tree. -/

/-- An operand, in parentheses where they are needed. -/
def Print.enclosed (needed : Bool) (inner plain : List Lexeme) : List Lexeme :=
  if needed then .openParen :: (inner ++ [.closeParen]) else plain

def UnaryOp.lexeme : UnaryOp → Lexeme
  | .not => .not
  | .neg => .op (.arith .sub)
  | _ => .op (.arith .add)

def AssignOp.lexeme : AssignOp → Lexeme
  | .equals => .equals
  | op => .assign op

def UnaryOp.strength (op : UnaryOp) : Nat := op.precedence?.getD 0

/-- The least strength of an operand on the left that needs no parentheses. -/
def BinaryOp.leftStrength (op : BinaryOp) : Nat := op.precedence?.getD 0 + (Print.strictLeft op).toNat

def BinaryOp.rightStrength (op : BinaryOp) : Nat := op.precedence?.getD 0 + (Print.strictRight op).toNat

theorem BinaryOp.strength_bounds {op : BinaryOp} (h : op.isSpelled) :
    (0 < op.leftStrength ∧ op.leftStrength ≤ 11) ∧ 0 < op.rightStrength ∧ op.rightStrength ≤ 11 := by
  cases op with
  | arith a => cases a <;> decide
  | unknown => cases h
  | rel | special => simp [leftStrength, rightStrength, precedence?, Print.strictLeft, Print.strictRight]
  | _ => decide

/-- Items between commas. Only the last can stand right before a closing mark. -/
def Print.commas (tight : Bool) : List (Bool → List Lexeme) → List Lexeme
  | [] => []
  | [x] => x tight
  | x :: xs => x false ++ .comma :: commas tight xs

def Print.rows (xs : List (Bool → List Lexeme)) : List Lexeme := xs.flatMap fun x => x false ++ [.newline]

def Print.braces (xs : List (Bool → List Lexeme)) : List Lexeme :=
  if xs.isEmpty then [.openBrace, .closeBrace]
  else .openBrace :: .newline :: (rows xs ++ [.closeBrace])

/-- The text of a number. -/
def Print.numeral (v : Number) (isInteger : Bool) : String := (number v isInteger).toOption.getD ""

open Print

theorem Number.isSpelled_iff {v : Number} {isInteger : Bool} : v.isSpelled isInteger ↔
    v.isNegative = false ∧ number v isInteger = .ok (numeral v isInteger) ∧
      Lexeme.isNumberText (numeral v isInteger) ∧ Literal.number (numeral v isInteger) = .ok (v, isInteger) := by
  unfold isSpelled numeral
  cases number v isInteger with
  | error e => simp [Except.toOption]
  | ok text => cases hread : Literal.number text <;> simp [Except.toOption, hread]

theorem Number.isCut_iff {v : Number} {isInteger : Bool} : v.isCut isInteger ↔
    v.isNegative = false ∧ number v isInteger = .ok (numeral v isInteger) ∧
      (numeral v isInteger = "inf" ∨
        Lexeme.isNumberText (numeral v isInteger) ∧ ∃ r, Literal.number (numeral v isInteger) = .ok r) := by
  unfold isCut numeral
  cases number v isInteger with
  | error e => simp [Except.toOption]
  | ok text => cases hread : Literal.number text <;> simp [Except.toOption, hread]

/-- The lexeme that the printed name of an argument is cut as. -/
def Print.nameLexeme (name : String) : Lexeme :=
  if Lexeme.isName name.toList then (Keyword.ofText? name).elim (.member name) .keyword
  else .string (Text.quoted name)

mutual

/-- The lexemes a node is printed as. `tight` tells whether a `]` stands right behind it. -/
def Node.spell (tight : Bool) : Node → List Lexeme
  | .number _ v i => [.member (numeral v i)]
  | .string _ ps => [.string (Text.literal ps)]
  | .boolean _ v => [.keyword (if v then .trueWord else .falseWord)]
  | .null _ => [.keyword .nullWord]
  | .identifier id => [.name id.name]
  | .unary _ op x => op.lexeme :: enclosed (x.precedence < op.strength) (x.spell false) (x.spell tight)
  | .binary _ op l r =>
    enclosed (l.precedence < op.leftStrength) (l.spell false) (l.spell false) ++
      .op op :: enclosed (r.precedence < op.rightStrength) (r.spell false) (r.spell tight)
  | .call _ f args =>
    enclosed (f.precedence < atomic) (f.spell false) (f.spell false) ++
      .openParen :: (commas false (spellArguments args) ++ [.closeParen])
  | .index _ t xs d =>
    enclosed (t.precedence < atomic) (t.spell false) (t.spell false) ++
      if d then .openDouble :: (commas true (spellNodes xs) ++ [.closeBracket true, .closeBracket tight])
      else .openBracket :: (commas true (spellNodes xs) ++ [.closeBracket tight])
  | .member _ t name => enclosed (t.precedence < atomic) (t.spell false) (t.spell false) ++ [.dollar, .member name]
  | .block b => b.spell
  | .assign _ op t v => t.spell false ++ op.lexeme :: v.spell tight
  | .cond _ c t none => .keyword .ifWord :: .openParen :: (c.spell false ++ .closeParen :: t.spell)
  | .cond _ c t (some e) =>
    .keyword .ifWord :: .openParen ::
      (c.spell false ++ .closeParen :: (t.spell ++ .keyword .elseWord :: e.spellElse))
  | .whileLoop _ c b => .keyword .whileWord :: .openParen :: (c.spell false ++ .closeParen :: b.spell)
  | .repeatLoop _ b => .keyword .repeatWord :: b.spell
  | .forLoop _ v x b =>
    .keyword .forWord :: .openParen :: .member v.name :: .keyword .inWord ::
      (x.spell false ++ .closeParen :: b.spell)
  | .function _ ps b =>
    .keyword .functionWord :: .openParen :: (commas false (spellParameters ps) ++ .closeParen :: b.spell)
  | .jump _ .ret none => [.name "return", .openParen, .closeParen]
  | .jump _ .ret (some x) => .name "return" :: .openParen :: (x.spell false ++ [.closeParen])
  | .jump _ .brk _ => [.keyword .breakWord]
  | .jump _ .nxt _ => [.keyword .nextWord]

def Block.spell : Block → List Lexeme
  | ⟨_, ss⟩ => braces (spellNodes ss)

def Block.spellElse : Block → List Lexeme
  | ⟨_, ss⟩ => if isElseIf ss then (spellNodes ss).flatMap (· false) else braces (spellNodes ss)

def spellNodes : List Node → List (Bool → List Lexeme)
  | [] => []
  | n :: ns => (fun tight => n.spell tight) :: spellNodes ns

def spellArguments : List Argument → List (Bool → List Lexeme)
  | [] => []
  | ⟨_, none, v⟩ :: as => (fun tight => v.spell tight) :: spellArguments as
  | ⟨_, some name, v⟩ :: as => (fun tight => nameLexeme name :: .equals :: v.spell tight) :: spellArguments as

def spellParameters : List Parameter → List (Bool → List Lexeme)
  | [] => []
  | ⟨_, name, none⟩ :: ps => (fun _ => [.member name]) :: spellParameters ps
  | ⟨_, name, some d⟩ :: ps => (fun tight => .member name :: .equals :: d.spell tight) :: spellParameters ps

end

/-! How a spelled tree begins. -/

/-- What a statement or an item starts with; the name of an argument may be a reserved word. -/
def Print.leads : Lexeme → Bool
  | .keyword _ => true
  | l => Grammar.begins 0 l

theorem Print.leads_member (s : String) : leads (.member s) := by
  obtain h | h := Lexeme.member_cases s <;> rw [h] <;> rfl

theorem Print.leads_nameLexeme (name : String) : leads (nameLexeme name) := by
  unfold nameLexeme
  split
  · cases Keyword.ofText? name with
    | none => exact leads_member name
    | some k => rfl
  · rfl

theorem Print.enclosed_leads (h : ∃ l r, ts = l :: r ∧ leads l) (needed : Bool) (inner : List Lexeme) :
    ∃ l r, enclosed needed inner ts = l :: r ∧ leads l := by
  cases needed with
  | true => exact ⟨.openParen, _, rfl, rfl⟩
  | false => exact h

theorem Print.leads_append (h : ∃ l r, ts = l :: r ∧ leads l) (us : List Lexeme) :
    ∃ l r, ts ++ us = l :: r ∧ leads l := by
  obtain ⟨l, r, rfl, hl⟩ := h
  exact ⟨l, r ++ us, rfl, hl⟩

theorem Block.spell_leads (b : Block) : ∃ l r, b.spell = l :: r ∧ leads l := by
  obtain ⟨_, ss⟩ := b
  rw [Block.spell, braces]
  split <;> exact ⟨.openBrace, _, rfl, rfl⟩

theorem Node.spell_leads (tight : Bool) : (n : Node) → ∃ l r, n.spell tight = l :: r ∧ leads l
  | .number _ v i => ⟨_, _, rfl, leads_member _⟩
  | .string .. | .boolean _ true | .boolean _ false | .null _ | .identifier _ => ⟨_, _, rfl, rfl⟩
  | .unary _ op x => ⟨op.lexeme, _, rfl, by cases op <;> rfl⟩
  | .binary _ op l r => leads_append (enclosed_leads (l.spell_leads false) _ _) _
  | .call _ f args => leads_append (enclosed_leads (f.spell_leads false) _ _) _
  | .index _ t xs d => leads_append (enclosed_leads (t.spell_leads false) _ _) _
  | .member _ t name => leads_append (enclosed_leads (t.spell_leads false) _ _) _
  | .block b => b.spell_leads
  | .assign _ op t v => leads_append (t.spell_leads false) _
  | .cond _ c t none | .cond _ c t (some e) | .whileLoop _ c b | .repeatLoop _ b | .forLoop _ v x b
  | .function _ ps b => ⟨_, _, rfl, rfl⟩
  | .jump _ .ret none | .jump _ .ret (some x) | .jump _ .brk _ | .jump _ .nxt _ => ⟨_, _, rfl, rfl⟩

/-! The text of a tree is cut into its lexemes. -/

/-- The text is cut into these lexemes wherever nothing behind it continues them. -/
structure Spells (text : List Char) (ts : Bool → List Lexeme) : Prop where
  cut : ∀ rest, Bounded rest → lexemes (text ++ rest) = ts (rest.head? == some ']') ++ lexemes rest
  starts : ∀ tight, ∃ l r, ts tight = l :: r ∧ leads l

/-- What starts like an operand starts with no `=` and no `[`. -/
theorem head?_ne_of_leads {cs : List Char} (h : lexemes cs = l :: ts) (hl : leads l) :
    cs.head? ≠ some '=' ∧ cs.head? ≠ some '[' := by
  cases cs with
  | nil => cases h
  | cons c r =>
    rw [lexemes_cons] at h
    constructor
    · rintro ⟨⟩
      have hscan : scan '=' r = (some (.op (.rel .eq)), 1) ∨ scan '=' r = (some .equals, 0) := by
        by_cases hr : r.head? = some '=' <;> simp [scan, isBlank, hr]
      obtain hscan | hscan := hscan
      all_goals
        rw [hscan] at h
        cases (List.cons.inj h).1
        cases hl
    · rintro ⟨⟩
      have hscan : scan '[' r = (some .openDouble, 1) ∨ scan '[' r = (some .openBracket, 0) := by
        by_cases hr : r.head? = some '[' <;> simp [scan, isBlank, hr]
      obtain hscan | hscan := hscan
      all_goals
        rw [hscan] at h
        cases (List.cons.inj h).1
        cases hl

theorem Spells.head? (h : Spells text ts) {rest : List Char} (hrest : Bounded rest) :
    (text ++ rest).head? ≠ some '=' ∧ (text ++ rest).head? ≠ some '[' := by
  obtain ⟨l, r, hts, hl⟩ := h.starts (rest.head? == some ']')
  have hcut := h.cut rest hrest
  rw [hts] at hcut
  exact head?_ne_of_leads hcut hl

theorem lexemes_not {r : List Char} (h : r.head? ≠ some '=') : lexemes ('!' :: r) = .not :: lexemes r := by
  have hscan : scan '!' r = (some .not, 0) := by simp [scan, isBlank, h]
  rw [lexemes_cons, hscan]
  rfl

theorem lexemes_openBracket {r : List Char} (h : r.head? ≠ some '[') :
    lexemes ('[' :: r) = .openBracket :: lexemes r := by
  have hscan : scan '[' r = (some .openBracket, 0) := by simp [scan, isBlank, h]
  rw [lexemes_cons, hscan]
  rfl

theorem lexemes_openDouble (r : List Char) : lexemes ('[' :: '[' :: r) = .openDouble :: lexemes r :=
  lexemes_cons _ _

theorem lexemes_feed {r : List Char} (h : (lexemes r).head? ≠ some .newline) :
    lexemes ('\n' :: r) = .newline :: lexemes r := by
  rw [lexemes_newline]
  obtain hr | hr := lexemes_drop_newlines r
  · rw [← hr]
  · rw [hr] at h
    exact absurd rfl h

theorem Spells.wrap {text : String} (h : Spells text.toList ts) (n : Node) (strength : Nat) (strict : Bool) :
    Spells (wrap n strength strict text).toList fun tight =>
      enclosed (n.precedence < strength + strict.toNat) (ts false) (ts tight) where
  starts tight := enclosed_leads (h.starts tight) _ _
  cut rest hrest := by
    have hneeded : (n.precedence < strength || (strict && n.precedence == strength)) =
        decide (n.precedence < strength + strict.toNat) := by
      cases strict <;> grind
    rw [Print.wrap, hneeded, enclosed]
    cases decide (n.precedence < strength + strict.toNat) with
    | false => exact h.cut rest hrest
    | true =>
      have hcut := h.cut (')' :: rest) (bounded_cons rfl)
      simpa using hcut

theorem Spells.infixed {op : BinaryOp} (hop : op.isSpelled) {l r : String} (hl : Spells l.toList ts)
    (hr : Spells r.toList us) : Spells (infixed op l r).toList fun tight => ts false ++ .op op :: us tight where
  starts _ := leads_append (hl.starts false) _
  cut rest hrest := by
    have hright := hr.cut rest hrest
    by_cases hrange : op = .range
    · subst hrange
      have hleft := hl.cut (':' :: (r.toList ++ rest)) (bounded_cons rfl)
      simpa [Print.infixed, hright] using hleft
    · have htext : Print.infixed op l r = l ++ " " ++ op.text ++ " " ++ r := by
        unfold Print.infixed
        split
        · exact absurd rfl hrange
        · rfl
      have hleft := hl.cut (' ' :: (op.text.toList ++ ' ' :: (r.toList ++ rest))) (bounded_cons rfl)
      simpa [htext, Lexeme.lexemes_op hop, hright] using hleft

theorem Spells.unary {op : UnaryOp} (hop : op.precedence?.isSome) {text : String} (h : Spells text.toList ts) :
    Spells (op.text ++ text).toList fun tight => op.lexeme :: ts tight where
  starts tight := ⟨op.lexeme, _, rfl, by cases op <;> rfl⟩
  cut rest hrest := by
    have hhead := h.head? hrest
    rw [String.toList_append, List.append_assoc, List.cons_append, ← h.cut rest hrest]
    cases op with
    | not => exact lexemes_not hhead.1
    | neg | pos => exact lexemes_cons _ _
    | unknown => cases hop

@[simp] theorem lexemes_equals (r : List Char) : lexemes ('=' :: ' ' :: r) = .equals :: lexemes r := by
  rw [← lexemes_space r]
  exact lexemes_cons _ _

/-- An item with a name before it. -/
theorem Spells.named {l : Lexeme} (hl : leads l) {name text : String}
    (hname : ∀ rest, Bounded rest → lexemes (name.toList ++ rest) = l :: lexemes rest) (h : Spells text.toList ts) :
    Spells (name ++ " = " ++ text).toList fun tight => l :: .equals :: ts tight where
  starts _ := ⟨_, _, rfl, hl⟩
  cut rest hrest := by
    have hcut := hname (' ' :: '=' :: ' ' :: (text.toList ++ rest)) (bounded_cons rfl)
    rw [lexemes_space, lexemes_equals, h.cut rest hrest] at hcut
    simpa using hcut

/-- Items that are printed one by one. -/
def SpellsEach (texts : List String) (xs : List (Bool → List Lexeme)) : Prop :=
  List.Forall₂ (fun text ts => Spells text.toList ts) texts xs

theorem SpellsEach.isEmpty (h : SpellsEach texts xs) : texts.isEmpty = xs.isEmpty := by
  cases h <;> rfl

theorem SpellsEach.commas (h : SpellsEach texts xs) (rest : List Char) (hrest : Bounded rest) :
    lexemes ((String.intercalate ", " texts).toList ++ rest) =
      commas (rest.head? == some ']') xs ++ lexemes rest := by
  rw [String.toList_intercalate]
  induction h with
  | nil => rfl
  | @cons text ts texts xs hfirst hmore ih =>
    cases hmore with
    | nil => simpa [Print.commas] using hfirst.cut rest hrest
    | @cons next _ texts _ =>
      have hcut := hfirst.cut
        (',' :: ' ' :: (", ".toList.intercalate ((next :: texts).map String.toList) ++ rest)) (bounded_cons rfl)
      rw [lexemes_comma, lexemes_space, ih] at hcut
      simpa [Print.commas, List.intercalate] using hcut

/-- Nothing between brackets opens another one at once. -/
theorem SpellsEach.head?_ne (h : SpellsEach texts xs) {r : List Char} (hr : Bounded (']' :: r)) :
    ((String.intercalate ", " texts).toList ++ ']' :: r).head? ≠ some '[' := by
  have hcut := h.commas _ hr
  cases h with
  | nil => exact nofun
  | @cons text ts texts xs hfirst =>
    obtain ⟨l, us, hts, hl⟩ : ∃ l us, Print.commas true (ts :: xs) = l :: us ∧ leads l := by
      cases xs with
      | nil => exact hfirst.starts true
      | cons => exact leads_append (hfirst.starts false) _
    exact (head?_ne_of_leads (hcut.trans (congrArg (· ++ _) hts)) hl).2

/-- Lines, each behind some blanks and ended by a line feed. -/
def Print.rowText (pad : List Char) (texts : List String) : List Char :=
  texts.flatMap fun text => pad ++ (text.toList ++ ['\n'])

theorem SpellsEach.rows {pad : List Char} (hpad : ∀ c ∈ pad, c = ' ' ∨ c = '\t') (h : SpellsEach texts xs)
    (rest : List Char) (hrest : (lexemes rest).head? ≠ some .newline) :
    lexemes (rowText pad texts ++ rest) = Print.rows xs ++ lexemes rest ∧
      (lexemes (rowText pad texts ++ rest)).head? ≠ some .newline := by
  induction h with
  | nil => exact ⟨rfl, hrest⟩
  | @cons text ts texts xs hfirst _ ih =>
    obtain ⟨ih, hhead⟩ := ih
    have hcut := hfirst.cut ('\n' :: (rowText pad texts ++ rest)) (bounded_cons rfl)
    rw [lexemes_feed hhead, ih] at hcut
    have hrow : lexemes (rowText pad (text :: texts) ++ rest) = ts false ++ .newline ::
        (Print.rows xs ++ lexemes rest) := by
      simpa [rowText, lexemes_blanks hpad] using hcut
    obtain ⟨l, r, hts, hl⟩ := hfirst.starts false
    refine ⟨by simpa [Print.rows] using hrow, ?_⟩
    rw [hrow, hts]
    rintro ⟨⟩
    cases hl

theorem Print.mem_of_mem_pad {indent : String} {level : Int} {c : Char} (hc : c ∈ (pad indent level).toList) :
    c ∈ indent.toList := by
  simp only [pad, String.toList_join, List.mem_flatMap, List.mem_replicate] at hc
  obtain ⟨_, ⟨-, rfl⟩, hc⟩ := hc
  exact hc

theorem Print.pad_blank {indent : String} (hindent : ∀ c ∈ indent.toList, c = ' ' ∨ c = '\t') (level : Int) :
    ∀ c ∈ (pad indent level).toList, c = ' ' ∨ c = '\t' :=
  fun c hc => hindent c (mem_of_mem_pad hc)

theorem Print.toList_braced (indent : String) (level : Int) (texts : List String) (h : texts ≠ []) :
    (braced indent level texts).toList = '\x7b' :: '\n' ::
      (rowText (pad indent (level + 1)).toList texts ++ ((pad indent level).toList ++ ['\x7d'])) := by
  have hlines (texts : List String) (h : texts ≠ []) :
      "\n".toList.intercalate (texts.map fun text => (pad indent (level + 1)).toList ++ text.toList) ++ ['\n'] =
        rowText (pad indent (level + 1)).toList texts := by
    induction texts with
    | nil => exact absurd rfl h
    | cons text texts ih =>
      cases texts with
      | nil => simp [rowText]
      | cons next texts =>
        have ih := ih (by simp)
        simp_all [rowText, List.intercalate]
  have hempty : texts.isEmpty = false := by simpa using h
  simp [braced, hempty, String.toList_intercalate, ← hlines texts h, Function.comp_def]

theorem SpellsEach.braces {indent : String} (hindent : ∀ c ∈ indent.toList, c = ' ' ∨ c = '\t') (level : Int)
    (h : SpellsEach texts xs) (rest : List Char) :
    lexemes ((braced indent level texts).toList ++ rest) = Print.braces xs ++ lexemes rest := by
  by_cases hempty : texts = []
  · subst hempty
    cases h
    simp [braced, Print.braces]
  · have hclose : lexemes ((pad indent level).toList ++ '\x7d' :: rest) = .closeBrace :: lexemes rest := by
      rw [lexemes_blanks (pad_blank hindent level), lexemes_closeBrace]
    obtain ⟨hrows, hhead⟩ := h.rows (pad_blank hindent (level + 1)) _ (by rw [hclose]; exact nofun)
    have hxs : xs.isEmpty = false := by simpa [← h.isEmpty] using hempty
    rw [toList_braced _ _ _ hempty]
    simp [lexemes_feed hhead, hrows, hclose, Print.braces, hxs]

theorem lexemes_assign {op : AssignOp} (h : Lexeme.isSpelled (.assign op) || op == .equals) (r : List Char) :
    lexemes (op.text.toList ++ ' ' :: r) = op.lexeme :: lexemes r := by
  cases op with
  | equals => exact lexemes_equals r
  | arrow | superArrow =>
    rw [← lexemes_space r]
    exact lexemes_cons _ _
  | unknown =>
    simp [Lexeme.isSpelled] at h

theorem UnaryOp.precedence_eq {op : UnaryOp} (h : op.precedence?.isSome) : op.precedence = .ok op.strength := by
  obtain ⟨k, hk⟩ := Option.isSome_iff_exists.1 h
  simp [precedence, strength, hk]

theorem BinaryOp.precedence_eq {op : BinaryOp} (h : op.isSpelled) : op.precedence = .ok (op.precedence?.getD 0) := by
  cases op with
  | arith a => cases a <;> rfl
  | unknown => cases h
  | _ => rfl

theorem Print.isElseIf_eq {ss : List Node} (h : isElseIf ss) : ∃ s c t e?, ss = [.cond s c t e?] := by
  unfold isElseIf at h
  split at h
  · exact ⟨_, _, _, _, rfl⟩
  · cases h

/-- Only a line feed lets the printer take other texts for plain names. -/
theorem Print.argumentName_eq {s : String} (h : '\n' ∉ s.toList) :
    argumentName s = if Lexeme.isName s.toList then s else Text.quoted s := by
  have hlast : (s.toList.getLast? == some '\n') = false :=
    beq_eq_false_iff_ne.2 fun hlast => h (List.mem_of_getLast? hlast)
  simp [argumentName, isPlainName, hlast]

theorem Text.lexemes_literal (ps : List Point) (rest : List Char) :
    lexemes ((literal ps).toList ++ rest) = .string (literal ps) :: lexemes rest := by
  rw [(isString_literal ps).lexemes_append, String.ofList_toList]

theorem lexemes_argumentName {name : String} (h : '\n' ∉ name.toList) (rest : List Char) (hrest : Bounded rest) :
    lexemes ((argumentName name).toList ++ rest) = nameLexeme name :: lexemes rest := by
  rw [argumentName_eq h, nameLexeme]
  cases hname : Lexeme.isName name.toList with
  | false => exact Text.lexemes_literal (Text.points name) rest
  | true =>
    cases hword : Keyword.ofText? name with
    | none =>
      have hmember := Lexeme.isMemberText_of_isName hname hword
      exact Lexeme.lexemes_member (Lexeme.isCut_of_isMemberText hmember) hrest
    | some k =>
      rw [Keyword.eq_text_of_ofText? hword]
      exact Lexeme.lexemes_keyword k hrest

theorem lexemes_return (r : List Char) :
    lexemes ('r' :: 'e' :: 't' :: 'u' :: 'r' :: 'n' :: '(' :: r) = .name "return" :: .openParen :: lexemes r :=
  (Lexeme.lexemes_name (s := "return") (by decide) (bounded_cons rfl)).trans (by rw [lexemes_openParen])

theorem lexemes_keyword_space (k : Keyword) (r : List Char) :
    lexemes (k.text.toList ++ ' ' :: r) = .keyword k :: lexemes r := by
  rw [Lexeme.lexemes_keyword k (bounded_cons rfl), lexemes_space]

/-- What stands in parentheses before a body. -/
theorem Spells.header {text body : String} (h : Spells text.toList ts)
    (hbody : ∀ rest, lexemes (body.toList ++ rest) = us ++ lexemes rest) (rest : List Char) :
    lexemes (text.toList ++ ')' :: ' ' :: (body.toList ++ rest)) =
      ts false ++ .closeParen :: (us ++ lexemes rest) := by
  have hcut := h.cut (')' :: ' ' :: (body.toList ++ rest)) (bounded_cons rfl)
  rwa [lexemes_closeParen, lexemes_space, hbody] at hcut

section
variable {indent : String}

mutual

theorem Print.node_spells (hindent : ∀ c ∈ indent.toList, c = ' ' ∨ c = '\t') (level : Int) : (n : Node) →
    n.all Node.isCut → ∃ text, node indent level n = .ok text ∧ Spells text.toList fun tight => n.spell tight
  | .string _ ps, _ => ⟨_, rfl, fun rest _ => Text.lexemes_literal ps rest, fun _ => ⟨_, _, rfl, rfl⟩⟩
  | .number s v i, h => by
    obtain ⟨-, hprint, htext⟩ := Number.isCut_iff.1 h
    have hcut : Lexeme.isNameText (numeral v i) || Lexeme.isNumberText (numeral v i) := by
      obtain hinf | hnumber := htext
      · rw [hinf]
        decide
      · simp [hnumber.1]
    exact ⟨_, hprint, fun _ => Lexeme.lexemes_member hcut, fun _ => ⟨_, _, rfl, leads_member _⟩⟩
  | .boolean _ true, _ => ⟨"TRUE", rfl, fun _ => Lexeme.lexemes_keyword .trueWord, fun _ => ⟨_, _, rfl, rfl⟩⟩
  | .boolean _ false, _ => ⟨"FALSE", rfl, fun _ => Lexeme.lexemes_keyword .falseWord, fun _ => ⟨_, _, rfl, rfl⟩⟩
  | .null _, _ => ⟨"NULL", rfl, fun _ => Lexeme.lexemes_keyword .nullWord, fun _ => ⟨_, _, rfl, rfl⟩⟩
  | .identifier id, h => ⟨id.name, rfl, fun _ => Lexeme.lexemes_name h, fun _ => ⟨_, _, rfl, rfl⟩⟩
  | .unary s op x, h => by
    simp only [Node.all, Node.isCut, Node.isSpelled, Bool.and_eq_true] at h
    obtain ⟨text, hx, hspells⟩ := node_spells hindent level x h.2
    refine ⟨_, by rw [node, op.precedence_eq h.1.1, hx]; rfl, ?_⟩
    exact (hspells.wrap x op.strength false).unary h.1.1
  | .binary s op l r, h => by
    simp only [Node.all, Node.isCut, Node.isSpelled, Bool.and_eq_true] at h
    obtain ⟨left, hl, hleft⟩ := node_spells hindent level l h.1.2
    obtain ⟨right, hr, hright⟩ := node_spells hindent level r h.2
    refine ⟨_, by rw [node, op.precedence_eq h.1.1.1.1, hl, hr]; rfl, ?_⟩
    exact (hleft.wrap l _ _).infixed h.1.1.1.1 (hright.wrap r _ _)
  | .call s f args, h => by
    simp only [Node.all, Node.isCut, Bool.and_eq_true] at h
    obtain ⟨callee, hf, hcallee⟩ := node_spells hindent level f h.1.2
    obtain ⟨texts, hargs, htexts⟩ := arguments_spell hindent level args h.1.1.1.2 h.2
    refine ⟨_, by rw [node, hf, hargs]; rfl, fun rest hrest => ?_, fun tight => Node.spell_leads tight _⟩
    have hinner := htexts.commas (')' :: rest) (bounded_cons rfl)
    have hcut := (hcallee.wrap f atomic false).cut
      ('(' :: ((String.intercalate ", " texts).toList ++ ')' :: rest)) (bounded_cons rfl)
    rw [lexemes_openParen, hinner] at hcut
    simpa [Node.spell] using hcut
  | .index s t xs d, h => by
    simp only [Node.all, Node.isCut, Node.isSpelled, Bool.and_eq_true] at h
    obtain ⟨target, ht, htarget⟩ := node_spells hindent level t h.1.2
    obtain ⟨texts, hxs, htexts⟩ := nodes_spell hindent level xs h.2
    refine ⟨_, by rw [node, ht, hxs]; rfl, fun rest hrest => ?_, fun tight => Node.spell_leads tight _⟩
    have hwrap := htarget.wrap t atomic false
    have hinner (r : List Char) := htexts.commas (']' :: r) (bounded_cons rfl)
    cases d with
    | true =>
      have hcut := hwrap.cut ('[' :: '[' :: ((String.intercalate ", " texts).toList ++ ']' :: ']' :: rest))
        (bounded_cons rfl)
      rw [lexemes_openDouble, hinner] at hcut
      simpa [Node.spell] using hcut
    | false =>
      have hcut := hwrap.cut ('[' :: ((String.intercalate ", " texts).toList ++ ']' :: rest)) (bounded_cons rfl)
      rw [lexemes_openBracket (htexts.head?_ne (bounded_cons rfl)), hinner] at hcut
      simpa [Node.spell] using hcut
  | .member s t name, h => by
    simp only [Node.all, Node.isCut, Node.isSpelled, Bool.and_eq_true] at h
    obtain ⟨target, ht, htarget⟩ := node_spells hindent level t h.2
    refine ⟨_, by rw [node, ht]; rfl, fun rest hrest => ?_, fun tight => Node.spell_leads tight _⟩
    have hcut := (htarget.wrap t atomic false).cut ('$' :: (name.toList ++ rest)) (bounded_cons rfl)
    rw [lexemes_dollar, Lexeme.lexemes_member (Lexeme.isCut_of_isMemberText h.1.2) hrest] at hcut
    simpa [Node.spell] using hcut
  | .block b, h => by
    simp only [Node.all, Bool.and_eq_true] at h
    obtain ⟨text, hb, hcut⟩ := block_spells hindent level b h.2
    exact ⟨text, hb, fun rest _ => hcut rest, fun _ => b.spell_leads⟩
  | .assign s op t v, h => by
    simp only [Node.all, Node.isCut, Node.isSpelled, Bool.and_eq_true] at h
    obtain ⟨target, ht, htarget⟩ := node_spells hindent level t h.1.2
    obtain ⟨value, hv, hvalue⟩ := node_spells hindent level v h.2
    refine ⟨_, by rw [node, ht, hv]; rfl, fun rest hrest => ?_, fun tight => Node.spell_leads tight _⟩
    have hcut := htarget.cut (' ' :: (op.text.toList ++ ' ' :: (value.toList ++ rest))) (bounded_cons rfl)
    rw [lexemes_space, lexemes_assign h.1.1.1.1, hvalue.cut rest hrest] at hcut
    simpa [Node.spell] using hcut
  | .cond s c t none, h => by
    simp only [Node.all, Bool.and_eq_true] at h
    obtain ⟨condition, hc, hcondition⟩ := node_spells hindent level c h.1.2
    obtain ⟨yes, ht, hyes⟩ := block_spells hindent level t h.2
    refine ⟨_, by rw [node, hc, ht]; rfl, fun rest hrest => ?_, fun _ => ⟨_, _, rfl, rfl⟩⟩
    have htext : ("if (" ++ condition ++ ") " ++ yes).toList ++ rest =
        Keyword.ifWord.text.toList ++ ' ' :: '(' :: (condition.toList ++ ')' :: ' ' :: (yes.toList ++ rest)) := by
      simp [Keyword.text]
    rw [htext, lexemes_keyword_space, lexemes_openParen, hcondition.header hyes]
    simp [Node.spell]
  | .cond s c t (some e), h => by
    simp only [Node.all, Bool.and_eq_true] at h
    obtain ⟨condition, hc, hcondition⟩ := node_spells hindent level c h.1.1.2
    obtain ⟨yes, ht, hyes⟩ := block_spells hindent level t h.1.2
    obtain ⟨no, he, hno⟩ := alternative_spells hindent level e h.2
    refine ⟨_, by rw [node, hc, ht, he]; rfl, fun rest hrest => ?_, fun _ => ⟨_, _, rfl, rfl⟩⟩
    have htext : ("if (" ++ condition ++ ") " ++ yes ++ " else " ++ no).toList ++ rest =
        Keyword.ifWord.text.toList ++ ' ' :: '(' :: (condition.toList ++ ')' :: ' ' ::
          (yes.toList ++ ' ' :: (Keyword.elseWord.text.toList ++ ' ' :: (no.toList ++ rest)))) := by
      simp [Keyword.text]
    rw [htext, lexemes_keyword_space, lexemes_openParen, hcondition.header hyes, lexemes_space,
      lexemes_keyword_space, hno rest hrest]
    simp [Node.spell]
  | .whileLoop s c b, h => by
    simp only [Node.all, Bool.and_eq_true] at h
    obtain ⟨condition, hc, hcondition⟩ := node_spells hindent level c h.1.2
    obtain ⟨body, hb, hbody⟩ := block_spells hindent level b h.2
    refine ⟨_, by rw [node, hc, hb]; rfl, fun rest hrest => ?_, fun _ => ⟨_, _, rfl, rfl⟩⟩
    have htext : ("while (" ++ condition ++ ") " ++ body).toList ++ rest =
        Keyword.whileWord.text.toList ++ ' ' :: '(' :: (condition.toList ++ ')' :: ' ' :: (body.toList ++ rest)) := by
      simp [Keyword.text]
    rw [htext, lexemes_keyword_space, lexemes_openParen, hcondition.header hbody]
    simp [Node.spell]
  | .repeatLoop s b, h => by
    simp only [Node.all, Bool.and_eq_true] at h
    obtain ⟨body, hb, hbody⟩ := block_spells hindent level b h.2
    refine ⟨_, by rw [node, hb]; rfl, fun rest hrest => ?_, fun _ => ⟨_, _, rfl, rfl⟩⟩
    have htext : ("repeat " ++ body).toList ++ rest =
        Keyword.repeatWord.text.toList ++ ' ' :: (body.toList ++ rest) := by
      simp [Keyword.text]
    rw [htext, lexemes_keyword_space, hbody]
    simp [Node.spell]
  | .forLoop s v x b, h => by
    simp only [Node.all, Node.isCut, Bool.and_eq_true] at h
    obtain ⟨iterable, hx, hiterable⟩ := node_spells hindent level x h.1.2
    obtain ⟨body, hb, hbody⟩ := block_spells hindent level b h.2
    refine ⟨_, by rw [node, hx, hb]; rfl, fun rest hrest => ?_, fun _ => ⟨_, _, rfl, rfl⟩⟩
    have htext : ("for (" ++ v.name ++ " in " ++ iterable ++ ") " ++ body).toList ++ rest =
        Keyword.forWord.text.toList ++ ' ' :: '(' :: (v.name.toList ++ ' ' ::
          (Keyword.inWord.text.toList ++ ' ' :: (iterable.toList ++ ')' :: ' ' :: (body.toList ++ rest)))) := by
      simp [Keyword.text]
    rw [htext, lexemes_keyword_space, lexemes_openParen,
      Lexeme.lexemes_member (Lexeme.isCut_of_isMemberText h.1.1.1) (bounded_cons rfl), lexemes_space,
      lexemes_keyword_space, hiterable.header hbody]
    simp [Node.spell]
  | .function s ps b, h => by
    simp only [Node.all, Node.isCut, Bool.and_eq_true] at h
    obtain ⟨texts, hps, htexts⟩ := parameters_spell hindent level ps h.1.1 h.1.2
    obtain ⟨body, hb, hbody⟩ := block_spells hindent level b h.2
    refine ⟨_, by rw [node, hps, hb]; rfl, fun rest hrest => ?_, fun _ => ⟨_, _, rfl, rfl⟩⟩
    have htext : ("function(" ++ String.intercalate ", " texts ++ ") " ++ body).toList ++ rest =
        Keyword.functionWord.text.toList ++ '(' ::
          ((String.intercalate ", " texts).toList ++ ')' :: ' ' :: (body.toList ++ rest)) := by
      simp [Keyword.text]
    rw [htext, Lexeme.lexemes_keyword _ (bounded_cons rfl), lexemes_openParen, htexts.commas _ (bounded_cons rfl),
      lexemes_closeParen, lexemes_space, hbody]
    simp [Node.spell]
  | .jump s .ret none, _ => by
    refine ⟨"return()", rfl, fun rest _ => ?_, fun _ => ⟨_, _, rfl, rfl⟩⟩
    simp [Node.spell, lexemes_return]
  | .jump s .ret (some x), h => by
    simp only [Node.all, Bool.and_eq_true] at h
    obtain ⟨payload, hx, hpayload⟩ := node_spells hindent level x h.2
    refine ⟨_, by rw [node, hx]; rfl, fun rest _ => ?_, fun _ => ⟨_, _, rfl, rfl⟩⟩
    have hcut := hpayload.cut (')' :: rest) (bounded_cons rfl)
    simpa [Node.spell, lexemes_return] using hcut
  | .jump s .brk x?, _ => ⟨"break", rfl, fun _ => Lexeme.lexemes_keyword .breakWord, fun _ => ⟨_, _, rfl, rfl⟩⟩
  | .jump s .nxt x?, _ => ⟨"next", rfl, fun _ => Lexeme.lexemes_keyword .nextWord, fun _ => ⟨_, _, rfl, rfl⟩⟩

theorem Print.block_spells (hindent : ∀ c ∈ indent.toList, c = ' ' ∨ c = '\t') (level : Int) : (b : Block) →
    b.all Node.isCut → ∃ text, block indent level b = .ok text ∧
      ∀ rest, lexemes (text.toList ++ rest) = b.spell ++ lexemes rest
  | ⟨_, ss⟩, h => by
    obtain ⟨texts, hss, htexts⟩ := nodes_spell hindent (level + 1) ss h
    exact ⟨_, by rw [block, hss]; rfl, htexts.braces hindent level⟩

theorem Print.alternative_spells (hindent : ∀ c ∈ indent.toList, c = ' ' ∨ c = '\t') (level : Int) : (b : Block) →
    b.all Node.isCut → ∃ text, alternative indent level b = .ok text ∧
      ∀ rest, Bounded rest → lexemes (text.toList ++ rest) = b.spellElse ++ lexemes rest
  | ⟨_, ss⟩, h => by
    rw [alternative, Block.spellElse]
    cases hif : isElseIf ss with
    | true =>
      obtain ⟨texts, hss, htexts⟩ := nodes_spell hindent level ss h
      refine ⟨_, by rw [hss]; rfl, fun rest hrest => ?_⟩
      obtain ⟨s, c, t, e?, rfl⟩ := isElseIf_eq hif
      obtain ⟨hcond⟩ | ⟨hcond, ⟨⟩⟩ := htexts
      have hcut := hcond.cut rest hrest
      cases e? <;> simpa [spellNodes, Node.spell] using hcut
    | false =>
      obtain ⟨texts, hss, htexts⟩ := nodes_spell hindent (level + 1) ss h
      exact ⟨_, by rw [hss]; rfl, fun rest _ => htexts.braces hindent level rest⟩

theorem Print.nodes_spell (hindent : ∀ c ∈ indent.toList, c = ' ' ∨ c = '\t') (level : Int) : (ns : List Node) →
    allNodes Node.isCut ns → ∃ texts, nodes indent level ns = .ok texts ∧ SpellsEach texts (spellNodes ns)
  | [], _ => ⟨_, rfl, .nil⟩
  | n :: ns, h => by
    simp only [allNodes, Bool.and_eq_true] at h
    obtain ⟨text, hn, htext⟩ := node_spells hindent level n h.1
    obtain ⟨texts, hns, htexts⟩ := nodes_spell hindent level ns h.2
    exact ⟨_, by rw [nodes, hn, hns]; rfl, .cons htext htexts⟩

theorem Print.arguments_spell (hindent : ∀ c ∈ indent.toList, c = ' ' ∨ c = '\t') (level : Int) :
    (as : List Argument) → as.all Argument.isCut → allArguments Node.isCut as →
    ∃ texts, arguments indent level as = .ok texts ∧ SpellsEach texts (spellArguments as)
  | [], _, _ => ⟨_, rfl, .nil⟩
  | ⟨_, none, v⟩ :: as, hnames, h => by
    simp only [allArguments, List.all_cons, Bool.and_eq_true] at h hnames
    obtain ⟨text, hv, htext⟩ := node_spells hindent level v h.1
    obtain ⟨texts, has, htexts⟩ := arguments_spell hindent level as hnames.2 h.2
    exact ⟨_, by rw [arguments, hv, has]; rfl, .cons htext htexts⟩
  | ⟨_, some name, v⟩ :: as, hnames, h => by
    simp only [allArguments, List.all_cons, Argument.isCut, Bool.and_eq_true] at h hnames
    obtain ⟨text, hv, htext⟩ := node_spells hindent level v h.1
    obtain ⟨texts, has, htexts⟩ := arguments_spell hindent level as hnames.2 h.2
    have hfeed : '\n' ∉ name.toList := by simpa using hnames.1.2
    exact ⟨_, by rw [arguments, hv, has]; rfl,
      .cons (htext.named (leads_nameLexeme name) (lexemes_argumentName hfeed)) htexts⟩

theorem Print.parameters_spell (hindent : ∀ c ∈ indent.toList, c = ' ' ∨ c = '\t') (level : Int) :
    (ps : List Parameter) → ps.all Parameter.isCut → allParameters Node.isCut ps →
    ∃ texts, parameters indent level ps = .ok texts ∧ SpellsEach texts (spellParameters ps)
  | [], _, _ => ⟨_, rfl, .nil⟩
  | ⟨_, name, none⟩ :: ps, hnames, h => by
    simp only [List.all_cons, Parameter.isCut, Bool.and_eq_true] at hnames
    obtain ⟨texts, hps, htexts⟩ := parameters_spell hindent level ps hnames.2 h
    exact ⟨_, by rw [parameters, hps]; rfl,
      .cons ⟨fun _ => Lexeme.lexemes_member (Lexeme.isCut_of_isMemberText hnames.1.1),
        fun _ => ⟨_, _, rfl, leads_member name⟩⟩ htexts⟩
  | ⟨_, name, some d⟩ :: ps, hnames, h => by
    simp only [allParameters, List.all_cons, Parameter.isCut, Bool.and_eq_true] at h hnames
    obtain ⟨text, hd, htext⟩ := node_spells hindent level d h.1
    obtain ⟨texts, hps, htexts⟩ := parameters_spell hindent level ps hnames.2 h.2
    have hcut := Lexeme.isCut_of_isMemberText hnames.1.1
    exact ⟨_, by rw [parameters, hd, hps]; rfl,
      .cons (htext.named (leads_member name) fun _ => Lexeme.lexemes_member hcut) htexts⟩

end

variable (hindent : ∀ c ∈ indent.toList, c = ' ' ∨ c = '\t')
include hindent

theorem Program.lexemes_print_of_isCut {p : Program} (h : p.all Node.isCut) :
    ∃ text, p.print indent = .ok text ∧ lexemes text.toList = rows (spellNodes p.body) := by
  obtain ⟨texts, hbody, htexts⟩ := nodes_spell hindent 0 p.body h
  refine ⟨_, by rw [print, hbody]; rfl, ?_⟩
  obtain ⟨hrows, -⟩ := htexts.rows (List.forall_mem_nil _) [] (by simp)
  simpa [String.toList_join, rowText, List.flatMap_map, lexemes_nil] using hrows

theorem Program.lexemes_print {p : Program} (h : p.all Node.isSpelled) :
    ∃ text, p.print indent = .ok text ∧ lexemes text.toList = rows (spellNodes p.body) :=
  lexemes_print_of_isCut hindent (allNodes_isCut h)

end

end Deadwood
