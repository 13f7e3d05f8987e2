import Deadwood.Proofs.Clashes
import Deadwood.Proofs.PrintedScreen

/-! Names of arguments in printed programs. A name in quotes is taken from its literal as it stands there, but printed
with escapes, and a reserved word is printed without quotes; all other names come back. -/
namespace Deadwood
open Print

mutual

/-- The names of the arguments in a node, in the order of the text, and `none` for those without. -/
def Node.argumentNames : Node → List (Option String)
  | .unary _ _ x | .member _ x _ => x.argumentNames
  | .binary _ _ l r | .assign _ _ l r => l.argumentNames ++ r.argumentNames
  | .call _ f args => f.argumentNames ++ namesOfArguments args
  | .index _ t xs _ => t.argumentNames ++ namesOfNodes xs
  | .block b | .repeatLoop _ b => b.argumentNames
  | .cond _ c t none => c.argumentNames ++ t.argumentNames
  | .cond _ c t (some e) => c.argumentNames ++ t.argumentNames ++ e.argumentNames
  | .whileLoop _ c b | .forLoop _ _ c b => c.argumentNames ++ b.argumentNames
  | .function _ ps b => namesOfParameters ps ++ b.argumentNames
  | .jump _ _ (some x) => x.argumentNames
  | _ => []

def Block.argumentNames : Block → List (Option String)
  | ⟨_, ss⟩ => namesOfNodes ss

def namesOfNodes : List Node → List (Option String)
  | [] => []
  | n :: ns => n.argumentNames ++ namesOfNodes ns

def namesOfArguments : List Argument → List (Option String)
  | [] => []
  | ⟨_, name, v⟩ :: as => name :: v.argumentNames ++ namesOfArguments as

/-- The names in the defaults of parameters. -/
def namesOfParameters : List Parameter → List (Option String)
  | [] => []
  | ⟨_, _, none⟩ :: ps => namesOfParameters ps
  | ⟨_, _, some d⟩ :: ps => d.argumentNames ++ namesOfParameters ps

end

def Program.argumentNames (p : Program) : List (Option String) := namesOfNodes p.body

mutual

theorem Node.argumentNames_bare : (n : Node) → n.bare.argumentNames = n.argumentNames
  | .number .. | .string .. | .boolean .. | .null _ | .identifier _ | .jump _ _ none => rfl
  | .unary _ _ x | .member _ x _ | .jump _ _ (some x) => x.argumentNames_bare
  | .binary _ _ l r | .assign _ _ l r => by
    simp only [Node.bare, Node.argumentNames, l.argumentNames_bare, r.argumentNames_bare]
  | .call _ f args => by
    simp only [Node.bare, Node.argumentNames, f.argumentNames_bare, namesOfArguments_bare args]
  | .index _ t xs _ => by simp only [Node.bare, Node.argumentNames, t.argumentNames_bare, namesOfNodes_bare xs]
  | .block b | .repeatLoop _ b => b.argumentNames_bare
  | .cond _ c t none => by simp only [Node.bare, Node.argumentNames, c.argumentNames_bare, t.argumentNames_bare]
  | .cond _ c t (some e) => by
    simp only [Node.bare, Node.argumentNames, c.argumentNames_bare, t.argumentNames_bare, e.argumentNames_bare]
  | .whileLoop _ c b | .forLoop _ _ c b => by
    simp only [Node.bare, Node.argumentNames, c.argumentNames_bare, b.argumentNames_bare]
  | .function _ ps b => by
    simp only [Node.bare, Node.argumentNames, namesOfParameters_bare ps, b.argumentNames_bare]

theorem Block.argumentNames_bare : (b : Block) → b.bare.argumentNames = b.argumentNames
  | ⟨_, ss⟩ => namesOfNodes_bare ss

theorem namesOfNodes_bare : (ns : List Node) → namesOfNodes (bareNodes ns) = namesOfNodes ns
  | [] => rfl
  | n :: ns => by simp only [bareNodes, namesOfNodes, n.argumentNames_bare, namesOfNodes_bare ns]

theorem namesOfArguments_bare : (as : List Argument) → namesOfArguments (bareArguments as) = namesOfArguments as
  | [] => rfl
  | ⟨_, _, v⟩ :: as => by
    simp only [bareArguments, Argument.bare, namesOfArguments, v.argumentNames_bare, namesOfArguments_bare as]

theorem namesOfParameters_bare : (ps : List Parameter) → namesOfParameters (bareParameters ps) = namesOfParameters ps
  | [] => rfl
  | ⟨_, _, none⟩ :: ps => namesOfParameters_bare ps
  | ⟨_, _, some d⟩ :: ps => by
    simp only [bareParameters, Parameter.bare, namesOfParameters, d.argumentNames_bare, namesOfParameters_bare ps]

end

mutual

theorem Node.argumentNames_reread : (n : Node) →
    n.reread.argumentNames = n.argumentNames.map (Option.map rereadName)
  | .number s v i => by
    rw [Node.reread, Number.reread]
    split
    · rfl
    · split <;> rfl
  | .string .. | .boolean .. | .null _ | .identifier _ | .jump _ _ none => rfl
  | .unary _ _ x | .member _ x _ | .jump _ _ (some x) => x.argumentNames_reread
  | .binary _ _ l r | .assign _ _ l r => by
    simp only [Node.reread, Node.argumentNames, l.argumentNames_reread, r.argumentNames_reread, List.map_append]
  | .call _ f args => by
    simp only [Node.reread, Node.argumentNames, f.argumentNames_reread, namesOfArguments_reread args, List.map_append]
  | .index _ t xs _ => by
    simp only [Node.reread, Node.argumentNames, t.argumentNames_reread, namesOfNodes_reread xs, List.map_append]
  | .block b | .repeatLoop _ b => b.argumentNames_reread
  | .cond _ c t none => by
    simp only [Node.reread, Node.argumentNames, c.argumentNames_reread, t.argumentNames_reread, List.map_append]
  | .cond _ c t (some e) => by
    simp only [Node.reread, Node.argumentNames, c.argumentNames_reread, t.argumentNames_reread,
      e.argumentNames_reread, List.map_append]
  | .whileLoop _ c b | .forLoop _ _ c b => by
    simp only [Node.reread, Node.argumentNames, c.argumentNames_reread, b.argumentNames_reread, List.map_append]
  | .function _ ps b => by
    simp only [Node.reread, Node.argumentNames, namesOfParameters_reread ps, b.argumentNames_reread, List.map_append]

theorem Block.argumentNames_reread : (b : Block) →
    b.reread.argumentNames = b.argumentNames.map (Option.map rereadName)
  | ⟨_, ss⟩ => namesOfNodes_reread ss

theorem namesOfNodes_reread : (ns : List Node) →
    namesOfNodes (rereadNodes ns) = (namesOfNodes ns).map (Option.map rereadName)
  | [] => rfl
  | n :: ns => by
    simp only [rereadNodes, namesOfNodes, n.argumentNames_reread, namesOfNodes_reread ns, List.map_append]

theorem namesOfArguments_reread : (as : List Argument) →
    namesOfArguments (rereadArguments as) = (namesOfArguments as).map (Option.map rereadName)
  | [] => rfl
  | ⟨_, _, v⟩ :: as => by
    simp only [rereadArguments, namesOfArguments, v.argumentNames_reread, namesOfArguments_reread as, List.map_cons,
      List.map_append, List.cons_append]

theorem namesOfParameters_reread : (ps : List Parameter) →
    namesOfParameters (rereadParameters ps) = (namesOfParameters ps).map (Option.map rereadName)
  | [] => rfl
  | ⟨_, _, none⟩ :: ps => namesOfParameters_reread ps
  | ⟨_, _, some d⟩ :: ps => by
    simp only [rereadParameters, namesOfParameters, d.argumentNames_reread, namesOfParameters_reread ps,
      List.map_append]

end

/-! Names that come back. -/

theorem Text.length_le_encode (cs : List Char) : cs.length ≤ (encode (cs.map .char)).length := by
  induction cs with
  | nil => exact Nat.le_refl _
  | cons c cs ih =>
    rw [List.map_cons, encode_cons, Point.escaped, List.length_append, List.length_cons]
    have hpos : 1 ≤ (escaped c).length := by
      obtain ⟨d, -, heq⟩ | ⟨heq, -⟩ := escaped_cases c <;> simp [heq]
    omega

theorem Text.encode_eq_self_iff {cs : List Char} :
    encode (cs.map .char) = cs ↔ ∀ c ∈ cs, c ∉ ['\\', '"', '\n', '\t'] := by
  induction cs with
  | nil => simp [encode]
  | cons c cs ih =>
    rw [List.map_cons, encode_cons, Point.escaped, List.forall_mem_cons, ← ih]
    obtain ⟨d, hd, heq⟩ | ⟨heq, hslash, hquote, hfeed, htab⟩ := escaped_cases c
    · have hletters : ∀ p ∈ escapeLetters, p.1 ∈ ['\\', '"', '\n', '\t'] := by decide
      refine iff_of_false (fun hself => ?_) fun hall => hall.1 (hletters (c, d) hd)
      have hlength := congrArg List.length hself
      have hle := length_le_encode cs
      rw [heq, List.length_append, List.length_cons, List.length_cons, List.length_cons] at hlength
      simp only [List.length_nil] at hlength
      omega
    · simp [heq, hslash, hquote, hfeed, htab]

/-- A name that is no reserved word, and either a plain name or a text without characters that are escaped. -/
def Print.keepsName (s : String) : Bool :=
  (Keyword.ofText? s).isNone &&
    (Lexeme.isName s.toList || s.toList.all fun c => !(['\\', '"', '\n', '\t'].contains c))

theorem Print.rereadName_eq_self_iff {s : String} :
    rereadName s = s ↔ Lexeme.isName s.toList || s.toList.all fun c => !(['\\', '"', '\n', '\t'].contains c) := by
  rw [rereadName]
  split
  · next hname => simp [hname]
  · next hname =>
    have hencode : String.ofList (Text.encode (Text.points s)) = s ↔ Text.encode (Text.points s) = s.toList := by
      rw [← String.toList_inj, String.toList_ofList]
    rw [hencode, Text.points, Text.encode_eq_self_iff]
    simp [hname]

theorem Print.keepsName_iff {s : String} : keepsName s ↔ Keyword.ofText? s = none ∧ rereadName s = s := by
  rw [keepsName, Bool.and_eq_true, Option.isNone_iff_eq_none, rereadName_eq_self_iff]

mutual

theorem Node.all_sparesNames : (n : Node) →
    n.all Node.sparesNames = n.argumentNames.all sparesWord
  | .number .. | .string .. | .boolean .. | .null _ | .identifier _ | .jump _ _ none => rfl
  | .unary _ _ x | .member _ x _ | .jump _ _ (some x) => x.all_sparesNames
  | .binary _ _ l r | .assign _ _ l r => by
    simp only [Node.all, Node.argumentNames, Node.sparesNames, Bool.true_and, List.all_append, l.all_sparesNames,
      r.all_sparesNames]
  | .call _ f args => by
    simp only [Node.all, Node.argumentNames, Node.sparesNames, List.all_append, f.all_sparesNames,
      ← allArguments_sparesNames args]
    ac_rfl
  | .index _ t xs _ => by
    simp only [Node.all, Node.argumentNames, Node.sparesNames, Bool.true_and, List.all_append, t.all_sparesNames,
      allNodes_sparesNames xs]
  | .block b | .repeatLoop _ b => b.all_sparesNames
  | .cond _ c t none => by
    simp only [Node.all, Node.argumentNames, Node.sparesNames, Bool.true_and, List.all_append, c.all_sparesNames,
      t.all_sparesNames]
  | .cond _ c t (some e) => by
    simp only [Node.all, Node.argumentNames, Node.sparesNames, Bool.true_and, List.all_append, c.all_sparesNames,
      t.all_sparesNames, e.all_sparesNames]
  | .whileLoop _ c b | .forLoop _ _ c b => by
    simp only [Node.all, Node.argumentNames, Node.sparesNames, Bool.true_and, List.all_append, c.all_sparesNames,
      b.all_sparesNames]
  | .function _ ps b => by
    simp only [Node.all, Node.argumentNames, Node.sparesNames, Bool.true_and, List.all_append,
      allParameters_sparesNames ps, b.all_sparesNames]

theorem Block.all_sparesNames : (b : Block) →
    b.all Node.sparesNames = b.argumentNames.all sparesWord
  | ⟨_, ss⟩ => allNodes_sparesNames ss

theorem allNodes_sparesNames : (ns : List Node) →
    allNodes Node.sparesNames ns = (namesOfNodes ns).all sparesWord
  | [] => rfl
  | n :: ns => by simp only [allNodes, namesOfNodes, List.all_append, n.all_sparesNames, allNodes_sparesNames ns]

theorem allArguments_sparesNames : (as : List Argument) →
    (as.all (sparesWord ·.name) && allArguments Node.sparesNames as) =
      (namesOfArguments as).all sparesWord
  | [] => rfl
  | ⟨_, _, v⟩ :: as => by
    simp only [allArguments, namesOfArguments, List.cons_append, List.all_cons, List.all_append, ← v.all_sparesNames,
      ← allArguments_sparesNames as]
    ac_rfl

theorem allParameters_sparesNames : (ps : List Parameter) →
    allParameters Node.sparesNames ps =
      (namesOfParameters ps).all sparesWord
  | [] => rfl
  | ⟨_, _, none⟩ :: ps => allParameters_sparesNames ps
  | ⟨_, _, some d⟩ :: ps => by
    simp only [allParameters, namesOfParameters, List.all_append, d.all_sparesNames, allParameters_sparesNames ps]

end

theorem Program.sparesNames_iff {p : Program} :
    p.all Node.sparesNames ↔ ∀ s, some s ∈ p.argumentNames → Keyword.ofText? s = none := by
  rw [Program.all, allNodes_sparesNames, List.all_eq_true]
  constructor
  · intro h s hs
    simpa [sparesWord] using h (some s) hs
  · intro h name? hname
    cases name? with
    | none => rfl
    | some s => simp [sparesWord, h s hname]

theorem Program.map_rereadName_eq_iff {p : Program} :
    p.argumentNames.map (Option.map rereadName) = p.argumentNames ↔
      ∀ s, some s ∈ p.argumentNames → rereadName s = s := by
  have hid : p.argumentNames.map (Option.map rereadName) = p.argumentNames ↔
      ∀ name? ∈ p.argumentNames, name?.map rereadName = name? := by
    simpa using List.map_inj_left (l := p.argumentNames) (f := Option.map rereadName) (g := id)
  rw [hid]
  constructor
  · exact fun h s hs => Option.some.inj (h (some s) hs)
  · intro h name? hname
    cases name? with
    | none => rfl
    | some s => exact congrArg some (h s hname)

/-- A parsed program in which everything is in its place is printed as a text that is read with the same names of
arguments, exactly if it passes the screen and no name is a reserved word or holds characters that are escaped. -/
theorem parse_print_names_iff [Text.CharNames] {source file : String} {p : Program}
    (h : Program.parse source file = .ok p)
    (hplaced : p.all Node.isPlaced) {indent : String} (hindent : ∀ c ∈ indent.toList, c = ' ' ∨ c = '\t')
    (name : String) :
    ∃ text, p.print indent = .ok text ∧
      ((∃ q, Program.parse text name = .ok q ∧ q.argumentNames = p.argumentNames) ↔
        Screen.check text name = .ok () ∧ ∀ s, some s ∈ p.argumentNames → keepsName s) := by
  have hcut := Program.isCut_of_parse h
  obtain ⟨text, hprint, hlexemes⟩ := Program.lexemes_print_of_isCut hindent hcut
  have hread (hnames : p.all Node.sparesNames) (hscreen : Screen.find text.toList = none) :
      ∃ q, Program.parse text name = .ok q ∧ q.argumentNames = p.argumentNames.map (Option.map rereadName) := by
    have hderives := derives_rows_of_sparesNames hcut hnames hplaced
    rw [← hlexemes] at hderives
    obtain ⟨q, hq, hbody⟩ := Program.parse_iff_derives.2 ⟨hscreen, hderives⟩
    refine ⟨q, hq, ?_⟩
    rw [Program.argumentNames, ← namesOfNodes_bare, hbody, namesOfNodes_bare, namesOfNodes_reread]
    rfl
  refine ⟨text, hprint, ?_⟩
  simp only [Screen.check_eq_ok_iff, keepsName_iff]
  constructor
  · rintro ⟨q, hq, hsame⟩
    obtain ⟨hscreen, hderives⟩ := Program.parse_iff_derives.1 ⟨q, hq, rfl⟩
    rw [hlexemes] at hderives
    have hnames := sparesNames_of_derives hcut hderives
    obtain ⟨q', hq', hreread⟩ := hread hnames hscreen
    obtain rfl : q' = q := Except.ok.inj (hq'.symm.trans hq)
    have hkept := Program.map_rereadName_eq_iff.1 (hreread.symm.trans hsame)
    exact ⟨hscreen, fun s hs => ⟨Program.sparesNames_iff.1 hnames s hs, hkept s hs⟩⟩
  · rintro ⟨hscreen, hkeeps⟩
    obtain ⟨q, hq, hreread⟩ := hread (Program.sparesNames_iff.2 fun s hs => (hkeeps s hs).1) hscreen
    exact ⟨q, hq, hreread.trans (Program.map_rereadName_eq_iff.2 fun s hs => (hkeeps s hs).2)⟩

/-- Blanks, marks and letters of any script in names, written in either kind of quotes. -/
theorem parse_print_quoted_names :
    let source := "f('a b' = 1, \"c#d\" = g(.e = \"\\\"\", 'é;' = x)[h(\"\" = 2)], in. = \"if\")"
    ∃ p text q, Program.parse source "a" = .ok p ∧ p.print "\t " = .ok text ∧ Program.parse text "b" = .ok q ∧
      p.argumentNames = [some "a b", some "c#d", some ".e", some "é;", some "", some "in."] ∧
      q.argumentNames = p.argumentNames := by
  intro source
  have hchecks : (Program.parse source "a").toOption.any fun p =>
      p.all Node.isPlaced && (p.print "\t ").toOption.any (fun text => (Screen.find text.toList).isNone) &&
        p.argumentNames == [some "a b", some "c#d", some ".e", some "é;", some "", some "in."] := by decide +kernel
  simp only [Option.any_eq_true, Bool.and_eq_true, Option.isNone_iff_eq_none, beq_iff_eq] at hchecks
  obtain ⟨p, hparse, ⟨hplaced, text, hprint, hscreen⟩, hnames⟩ := hchecks
  have hindent : ∀ c ∈ "\t ".toList, c = ' ' ∨ c = '\t' := by simp
  obtain ⟨text', hprint', hread⟩ := parse_print_names_iff (eq_ok_of_toOption hparse) hplaced hindent "b"
  obtain rfl : text' = text := Except.ok.inj (hprint'.symm.trans (eq_ok_of_toOption hprint))
  have hkeeps : ∀ s, some s ∈ p.argumentNames → keepsName s := by
    have hall : ∀ name? ∈ [some "a b", some "c#d", some ".e", some "é;", some "", some "in."],
        name?.all keepsName := by decide +kernel
    exact fun s hs => hall (some s) (hnames ▸ hs)
  obtain ⟨q, hq, hsame⟩ := hread.2 ⟨Screen.check_eq_ok_iff.2 hscreen, hkeeps⟩
  exact ⟨p, text', q, eq_ok_of_toOption hparse, hprint', hq, hnames, hsame⟩

/-- A source is parsed, and what is printed of it is not read with the same names of arguments. -/
def Program.LosesNames [Text.CharNames] (source : String) : Prop :=
  ∃ p text, Program.parse source "a" = .ok p ∧ p.print "  " = .ok text ∧
    ¬∃ q, Program.parse text "a" = .ok q ∧ q.argumentNames = p.argumentNames

theorem Program.losesNames_of_parse [Text.CharNames] {source : String}
    (h : (Program.parse source "a").toOption.any fun p => (p.print "  ").toOption.any fun text =>
      !(Program.parse text "a").toOption.any fun q => q.argumentNames == p.argumentNames) : LosesNames source := by
  simp only [Option.any_eq_true] at h
  obtain ⟨p, hparse, text, hprint, hnames⟩ := h
  refine ⟨p, text, eq_ok_of_toOption hparse, eq_ok_of_toOption hprint, ?_⟩
  rintro ⟨q, hq, hsame⟩
  simp [hq, Except.toOption, hsame] at hnames

/-- A reserved word is printed without the quotes it needs, and quotes and backslashes with escapes that are not read
back. -/
theorem parse_print_changed_names :
    Program.LosesNames "f(\"if\" = 1)" ∧ Program.LosesNames "f('say \"hi\"' = 1)" ∧
      Program.LosesNames "f(\"a\\b\" = 1)" := by
  refine ⟨?_, ?_, ?_⟩ <;> exact Program.losesNames_of_parse (by decide +kernel)

end Deadwood
