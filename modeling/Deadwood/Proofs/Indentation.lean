import Deadwood.Proofs.Labels
import Deadwood.Proofs.MaskedLines
import Deadwood.Proofs.PrintedNumber

/-! Indentation goes by position alone. A tree that is printed at a deeper level has the lines that it had, and all but
the first start with more copies of the indentation. -/
namespace Deadwood
open Text Print

/-- The names and the operators of a label. -/
def Label.words : Label → List String
  | .identifier id => [id.name]
  | .unary _ op => [op.text]
  | .binary _ op => [op.text]
  | .argument _ name => name.toList
  | .member _ name => [name]
  | .assign _ op => [op.text]
  | .parameter _ name => [name]
  | _ => []

/-- No name and no operator of these labels holds a line feed. -/
def Unbroken (ls : List Label) : Prop := ∀ l ∈ ls, ∀ w ∈ l.words, '\n' ∉ w.toList

instance (ls : List Label) : Decidable (Unbroken ls) :=
  inferInstanceAs (Decidable (∀ l ∈ ls, ∀ w ∈ l.words, '\n' ∉ w.toList))

def Tree.labels : Tree → List Label
  | .program p => p.labels
  | .node n => n.labels
  | .argument a => labelsArguments [a]
  | .parameter p => labelsParameters [p]

theorem unbroken_cons {l : Label} {ls : List Label} :
    Unbroken (l :: ls) ↔ (∀ w ∈ l.words, '\n' ∉ w.toList) ∧ Unbroken ls := List.forall_mem_cons

theorem unbroken_append {ls ms : List Label} : Unbroken (ls ++ ms) ↔ Unbroken ls ∧ Unbroken ms := List.forall_mem_append

namespace Text

def copies (count : Nat) (s : String) : List Char := (List.replicate count s.toList).flatten

/-- A text with `filler` behind each of its line feeds. -/
def fillLines (filler cs : List Char) : List Char :=
  cs.flatMap fun c => if c = '\n' then c :: filler else [c]

/-- A text with `count` copies of `indent` behind each of its line feeds. -/
def deepen (indent : String) (count : Nat) (text : String) : String :=
  String.ofList (fillLines (copies count indent) text.toList)

theorem fillLines_append (filler a b : List Char) :
    fillLines filler (a ++ b) = fillLines filler a ++ fillLines filler b :=
  List.flatMap_append

theorem fillLines_of_notMem (filler : List Char) {cs : List Char} (h : '\n' ∉ cs) : fillLines filler cs = cs := by
  induction cs with
  | nil => rfl
  | cons c cs ih =>
    rw [List.mem_cons, not_or] at h
    obtain ⟨hc, hcs⟩ := h
    rw [fillLines, List.flatMap_cons, if_neg (Ne.symm hc)]
    exact congrArg (c :: ·) (ih hcs)

theorem fillLines_feed (filler cs : List Char) :
    fillLines filler ('\n' :: cs) = '\n' :: (filler ++ fillLines filler cs) := rfl

section
variable {indent : String} {count : Nat}

theorem toList_deepen (text : String) :
    (deepen indent count text).toList = fillLines (copies count indent) text.toList :=
  String.toList_ofList

theorem deepen_append (a b : String) :
    deepen indent count (a ++ b) = deepen indent count a ++ deepen indent count b := by
  apply String.toList_injective
  simp only [toList_deepen, String.toList_append, fillLines_append]

theorem deepen_of_notMem {s : String} (h : '\n' ∉ s.toList) : deepen indent count s = s := by
  apply String.toList_injective
  rw [toList_deepen, fillLines_of_notMem _ h]

theorem deepen_join (texts : List String) :
    deepen indent count (String.join texts) = String.join (texts.map (deepen indent count)) := by
  apply String.toList_injective
  simp [toList_deepen, String.toList_join, fillLines, List.flatMap_assoc, List.flatMap_map]

theorem deepen_intercalate {sep : String} (hsep : '\n' ∉ sep.toList) (texts : List String) :
    deepen indent count (sep.intercalate texts) = sep.intercalate (texts.map (deepen indent count)) := by
  induction texts with
  | nil => rfl
  | cons text texts ih =>
    cases texts with
    | nil => simp
    | cons next texts =>
      rw [String.intercalate_cons_cons, deepen_append, deepen_append, ih, deepen_of_notMem hsep]
      exact String.intercalate_cons_cons.symm

/-- What is filled in behind a row stands in front of the next one. -/
theorem fillLines_rowText {pad : List Char} (hpad : '\n' ∉ pad) (texts : List String) :
    copies count indent ++ fillLines (copies count indent) (rowText pad texts) =
      rowText (copies count indent ++ pad) (texts.map (deepen indent count)) ++ copies count indent := by
  induction texts with
  | nil => exact List.append_nil _
  | cons text texts ih =>
    have hcons (pad : List Char) (text : String) (texts : List String) :
        rowText pad (text :: texts) = pad ++ (text.toList ++ '\n' :: rowText pad texts) := by simp [rowText]
    rw [hcons, fillLines_append, fillLines_append, fillLines_feed, ih, fillLines_of_notMem _ hpad, ← toList_deepen,
      List.map_cons, hcons]
    simp only [List.append_assoc, List.cons_append]

end
end Text

/-! Texts on one line. -/

theorem feed_notMem_of_isDigit {cs : List Char} (h : ∀ c ∈ cs, c.isDigit) : '\n' ∉ cs := by
  intro hfeed
  cases h '\n' hfeed

theorem isDigit_significant (n : Nat) : ∀ c ∈ Double.significant n, c.isDigit := by
  intro c hc
  unfold Double.significant at hc
  split at hc
  · rw [List.mem_singleton.1 hc]
    rfl
  · rw [List.mem_reverse] at hc
    exact isDigit_toDigits n c (List.mem_reverse.1 (List.dropWhile_subset _ hc))

theorem feed_notMem_render (l : Double.Layout) (d : Decimal) : '\n' ∉ l.render d := by
  have hds := feed_notMem_of_isDigit (isDigit_significant d.digits)
  have hzeros (n : Nat) := feed_notMem_of_isDigit (isDigit_zeros n)
  have hexponent (n : Nat) := feed_notMem_of_isDigit (isDigit_toDigits n)
  unfold Double.Layout.render
  dsimp only
  generalize Double.significant d.digits = ds at hds ⊢
  generalize (if d.digits == 0 then (0 : Int) else d.exponent + (Nat.toDigits 10 d.digits).length - 1) = top
  have htake (n : Nat) : '\n' ∉ ds.take n := fun h => hds (List.mem_of_mem_take h)
  have hdrop (n : Nat) : '\n' ∉ '.' :: ds.drop n := by
    rw [List.mem_cons, not_or]
    exact ⟨by decide, fun h => hds (List.mem_of_mem_drop h)⟩
  split
  · split
    · simp [hds, hzeros]
    · split
      · simp [hds, hzeros]
      · rw [List.mem_append, not_or]
        exact ⟨htake _, hdrop _⟩
  · have hfraction : '\n' ∉ if ds.length == 1 then [] else '.' :: ds.drop 1 := by
      split
      · exact List.not_mem_nil
      · exact hdrop 1
    have hsign : '\n' ∉ ['e', if top < 0 then '-' else '+'] := by split <;> decide
    simp only [List.mem_append, htake, hfraction, hsign, hzeros, hexponent, or_self, not_false_eq_true]

theorem feed_notMem_text (x : Double) : '\n' ∉ x.text.toList := by
  have hsign : '\n' ∉ (if x.negative then "-" else "").toList := by split <;> simp
  cases x with
  | infinite s => simpa [Double.text] using hsign
  | finite s sig shift =>
    simp only [Double.text, String.toList_append, String.toList_ofList, List.mem_append, not_or]
    exact ⟨hsign, feed_notMem_render _ _⟩

theorem feed_notMem_int (z : Int) : '\n' ∉ (toString z).toList := by
  rw [Number.toList_toString_int, List.mem_append, not_or]
  refine ⟨?_, feed_notMem_of_isDigit (isDigit_toDigits z.natAbs)⟩
  split <;> simp

theorem feed_notMem_literal (ps : List Point) : '\n' ∉ (literal ps).toList := by
  rw [toList_literal]
  simpa using not_mem_encode (.inl rfl) ps

namespace Print

theorem feed_notMem_number {v : Number} {isInteger : Bool} {text : String} (h : number v isInteger = .ok text) :
    '\n' ∉ text.toList := by
  unfold number at h
  split at h
  · split at h
    · cases h
      rw [String.toList_append, List.mem_append, not_or]
      exact ⟨feed_notMem_int _, by decide⟩
    · cases h
  · split at h
    · cases h
      exact feed_notMem_int _
    · split at h
      · cases h
        exact feed_notMem_int _
      · cases h
        exact feed_notMem_text _

theorem feed_notMem_argumentName {s : String} (h : '\n' ∉ s.toList) : '\n' ∉ (argumentName s).toList := by
  unfold argumentName
  split
  · exact h
  · exact feed_notMem_literal (points s)

section
variable {indent : String} {j : Int} (k : Nat)

theorem toList_pad_add (hj : 0 ≤ j) : (pad indent (j + k)).toList = copies k indent ++ (pad indent j).toList := by
  have hlevel : (j + k).toNat = k + j.toNat := by omega
  rw [pad, hlevel, ← List.replicate_append_replicate, String.toList_join, List.flatMap_append]
  simp only [copies, pad, String.toList_join, List.flatMap_def, List.map_replicate]

theorem feed_notMem_pad (hindent : '\n' ∉ indent.toList) (level : Int) : '\n' ∉ (pad indent level).toList :=
  fun hfeed => hindent (mem_of_mem_pad hfeed)

theorem deepen_braced (hindent : '\n' ∉ indent.toList) (hj : 0 ≤ j) (texts : List String) :
    deepen indent k (braced indent j texts) = braced indent (j + k) (texts.map (deepen indent k)) := by
  by_cases hempty : texts = []
  · subst hempty
    exact deepen_of_notMem (s := "\x7b\x7d") (by decide)
  · have hopen : fillLines (copies k indent) ['\x7b'] = ['\x7b'] := fillLines_of_notMem _ (by decide)
    have hclose : fillLines (copies k indent) ((pad indent j).toList ++ ['\x7d']) = (pad indent j).toList ++ ['\x7d'] :=
      fillLines_of_notMem _ (by simp [feed_notMem_pad hindent])
    apply String.toList_injective
    rw [toList_deepen, toList_braced _ _ _ hempty, toList_braced _ _ _ (by simpa using hempty), add_right_comm,
      toList_pad_add k hj, toList_pad_add k (Int.add_nonneg hj Int.one_nonneg)]
    -- the filler behind the opening brace is that of the first row, and the one behind the last row that of the brace
    rw [← List.singleton_append, fillLines_append, hopen, fillLines_feed, fillLines_append, hclose, ← List.append_assoc,
      fillLines_rowText (feed_notMem_pad hindent (j + 1))]
    simp only [List.singleton_append, List.append_assoc]

theorem deepen_wrap (n : Node) (strength : Nat) (strict : Bool) (text : String) :
    deepen indent k (wrap n strength strict text) = wrap n strength strict (deepen indent k text) := by
  unfold wrap
  split
  · simp (disch := decide) only [deepen_append, deepen_of_notMem]
  · rfl

theorem deepen_infixed {op : BinaryOp} (hop : '\n' ∉ op.text.toList) (l r : String) :
    deepen indent k (infixed op l r) = infixed op (deepen indent k l) (deepen indent k r) := by
  unfold infixed
  split
  · simp (disch := decide) only [deepen_append, deepen_of_notMem]
  · simp (disch := decide) only [deepen_append, deepen_of_notMem, deepen_of_notMem hop]

theorem deepen_ok {s : String} (h : '\n' ∉ s.toList) :
    deepen indent k <$> (.ok s : Except PrintError String) = .ok s :=
  congrArg Except.ok (deepen_of_notMem h)

theorem deepen_number (v : Number) (isInteger : Bool) :
    deepen indent k <$> number v isInteger = number v isInteger := by
  cases hprint : number v isInteger with
  | error e => rfl
  | ok text => exact deepen_ok k (feed_notMem_number hprint)

end

section
variable {indent : String} (k : Nat)

mutual

/-- A text is put together from those of the parts by texts on one line and by braces, and deepening goes through both.
The level is free, as it grows in every body. -/
theorem node_deeper (hindent : '\n' ∉ indent.toList) {j : Int} (hj : 0 ≤ j) : (n : Node) → Unbroken n.labels →
    node indent (j + k) n = deepen indent k <$> node indent j n
  | .number _ v i, _ => (deepen_number k v i).symm
  | .string _ ps, _ => (deepen_ok k (feed_notMem_literal ps)).symm
  | .boolean _ true, _ => (deepen_ok k (s := "TRUE") (by decide)).symm
  | .boolean _ false, _ => (deepen_ok k (s := "FALSE") (by decide)).symm
  | .null _, _ => (deepen_ok k (s := "NULL") (by decide)).symm
  | .identifier id, h => by
    simp only [Node.labels, unbroken_cons, Label.words, List.forall_mem_singleton] at h
    exact (deepen_ok k h.1).symm
  | .unary _ op x, h => by
    simp only [Node.labels, unbroken_cons, Label.words, List.forall_mem_singleton] at h
    simp only [node, node_deeper hindent hj x h.2, map_bind, bind_map_left, map_pure, deepen_append, deepen_wrap,
      deepen_of_notMem h.1]
  | .binary _ op l r, h => by
    simp only [Node.labels, unbroken_cons, unbroken_append, Label.words, List.forall_mem_singleton] at h
    simp only [node, node_deeper hindent hj l h.2.1, node_deeper hindent hj r h.2.2, map_bind, bind_map_left,
      map_pure, deepen_wrap, deepen_infixed k h.1]
  | .call _ f args, h => by
    simp only [Node.labels, unbroken_cons, unbroken_append] at h
    simp (disch := decide) only [node, node_deeper hindent hj f h.2.1, arguments_deeper hindent hj args h.2.2,
      map_bind, bind_map_left, map_pure, deepen_append, deepen_wrap, deepen_intercalate, deepen_of_notMem]
  | .index _ t xs double, h => by
    simp only [Node.labels, unbroken_cons, unbroken_append] at h
    cases double <;>
      simp (disch := decide) only [node, node_deeper hindent hj t h.2.1, nodes_deeper hindent hj xs h.2.2, map_bind,
        bind_map_left, map_pure, deepen_append, deepen_wrap, deepen_intercalate, deepen_of_notMem, if_true, if_false,
        Bool.false_eq_true]
  | .member _ t name, h => by
    simp only [Node.labels, unbroken_cons, Label.words, List.forall_mem_singleton] at h
    simp (disch := decide) only [node, node_deeper hindent hj t h.2, map_bind, bind_map_left, map_pure, deepen_append,
      deepen_wrap, deepen_of_notMem h.1, deepen_of_notMem]
  | .block b, h => block_deeper hindent hj b h
  | .assign _ op t v, h => by
    simp only [Node.labels, unbroken_cons, unbroken_append, Label.words, List.forall_mem_singleton] at h
    simp (disch := decide) only [node, node_deeper hindent hj t h.2.1, node_deeper hindent hj v h.2.2, map_bind,
      bind_map_left, map_pure, deepen_append, deepen_of_notMem h.1, deepen_of_notMem]
  | .cond _ c t none, h => by
    simp only [Node.labels, unbroken_cons, unbroken_append] at h
    simp (disch := decide) only [node, node_deeper hindent hj c h.2.1, block_deeper hindent hj t h.2.2, map_bind,
      bind_map_left, map_pure, deepen_append, deepen_of_notMem]
  | .cond _ c t (some e), h => by
    simp only [Node.labels, unbroken_cons, unbroken_append] at h
    simp (disch := decide) only [node, node_deeper hindent hj c h.2.1, block_deeper hindent hj t h.2.2.1,
      alternative_deeper hindent hj e h.2.2.2, map_bind, bind_map_left, map_pure, deepen_append, deepen_of_notMem]
  | .whileLoop _ c b, h => by
    simp only [Node.labels, unbroken_cons, unbroken_append] at h
    simp (disch := decide) only [node, node_deeper hindent hj c h.2.1, block_deeper hindent hj b h.2.2, map_bind,
      bind_map_left, map_pure, deepen_append, deepen_of_notMem]
  | .repeatLoop _ b, h => by
    simp only [Node.labels, unbroken_cons] at h
    simp (disch := decide) only [node, block_deeper hindent hj b h.2, map_bind, bind_map_left, map_pure, deepen_append,
      deepen_of_notMem]
  | .forLoop _ v x b, h => by
    simp only [Node.labels, unbroken_cons, unbroken_append, Label.words, List.forall_mem_singleton] at h
    simp (disch := decide) only [node, node_deeper hindent hj x h.2.2.1, block_deeper hindent hj b h.2.2.2, map_bind,
      bind_map_left, map_pure, deepen_append, deepen_of_notMem h.2.1, deepen_of_notMem]
  | .function _ ps b, h => by
    simp only [Node.labels, unbroken_cons, unbroken_append] at h
    simp (disch := decide) only [node, parameters_deeper hindent hj ps h.2.1, block_deeper hindent hj b h.2.2,
      map_bind, bind_map_left, map_pure, deepen_append, deepen_intercalate, deepen_of_notMem]
  | .jump _ .ret none, _ => (deepen_ok k (s := "return()") (by decide)).symm
  | .jump _ .ret (some x), h => by
    simp only [Node.labels, unbroken_cons] at h
    simp (disch := decide) only [node, node_deeper hindent hj x h.2, map_bind, bind_map_left, map_pure, deepen_append,
      deepen_of_notMem]
  | .jump _ .brk _, _ => (deepen_ok k (s := "break") (by decide)).symm
  | .jump _ .nxt _, _ => (deepen_ok k (s := "next") (by decide)).symm

theorem block_deeper (hindent : '\n' ∉ indent.toList) {j : Int} (hj : 0 ≤ j) : (b : Block) → Unbroken b.labels →
    block indent (j + k) b = deepen indent k <$> block indent j b
  | ⟨_, ss⟩, h => by
    have hinner := nodes_deeper hindent (Int.add_nonneg hj Int.one_nonneg) ss h
    simp only [block, add_right_comm j k 1, hinner, map_bind, bind_map_left, map_pure, deepen_braced k hindent hj]

theorem alternative_deeper (hindent : '\n' ∉ indent.toList) {j : Int} (hj : 0 ≤ j) : (b : Block) → Unbroken b.labels →
    alternative indent (j + k) b = deepen indent k <$> alternative indent j b
  | ⟨_, ss⟩, h => by
    unfold alternative
    split
    · -- the `if` that continues a chain is at the level of the chain
      simp only [nodes_deeper hindent hj ss h, map_bind, bind_map_left, map_pure, deepen_join]
    · have hinner := nodes_deeper hindent (Int.add_nonneg hj Int.one_nonneg) ss h
      simp only [add_right_comm j k 1, hinner, map_bind, bind_map_left, map_pure, deepen_braced k hindent hj]

theorem nodes_deeper (hindent : '\n' ∉ indent.toList) {j : Int} (hj : 0 ≤ j) : (ns : List Node) →
    Unbroken (labelsNodes ns) → nodes indent (j + k) ns = List.map (deepen indent k) <$> nodes indent j ns
  | [], _ => rfl
  | n :: ns, h => by
    simp only [labelsNodes, unbroken_append] at h
    simp only [nodes, node_deeper hindent hj n h.1, nodes_deeper hindent hj ns h.2, map_bind, bind_map_left, map_pure,
      List.map_cons]

theorem arguments_deeper (hindent : '\n' ∉ indent.toList) {j : Int} (hj : 0 ≤ j) : (as : List Argument) →
    Unbroken (labelsArguments as) → arguments indent (j + k) as = List.map (deepen indent k) <$> arguments indent j as
  | [], _ => rfl
  | ⟨_, none, v⟩ :: as, h => by
    simp only [labelsArguments, unbroken_cons, unbroken_append] at h
    simp only [arguments, node_deeper hindent hj v h.2.1, arguments_deeper hindent hj as h.2.2, map_bind,
      bind_map_left, map_pure, List.map_cons]
  | ⟨_, some name, v⟩ :: as, h => by
    simp only [labelsArguments, unbroken_cons, unbroken_append, Label.words, Option.toList_some,
      List.forall_mem_singleton] at h
    simp (disch := decide) only [arguments, node_deeper hindent hj v h.2.1, arguments_deeper hindent hj as h.2.2,
      map_bind, bind_map_left, map_pure, List.map_cons, deepen_append,
      deepen_of_notMem (feed_notMem_argumentName h.1), deepen_of_notMem]

theorem parameters_deeper (hindent : '\n' ∉ indent.toList) {j : Int} (hj : 0 ≤ j) : (ps : List Parameter) →
    Unbroken (labelsParameters ps) →
    parameters indent (j + k) ps = List.map (deepen indent k) <$> parameters indent j ps
  | [], _ => rfl
  | ⟨_, name, none⟩ :: ps, h => by
    simp only [labelsParameters, unbroken_cons, Label.words, List.forall_mem_singleton] at h
    simp only [parameters, parameters_deeper hindent hj ps h.2, map_bind, bind_map_left, map_pure, List.map_cons,
      deepen_of_notMem h.1]
  | ⟨_, name, some d⟩ :: ps, h => by
    simp only [labelsParameters, unbroken_cons, unbroken_append, Label.words, List.forall_mem_singleton] at h
    simp (disch := decide) only [parameters, node_deeper hindent hj d h.2.1, parameters_deeper hindent hj ps h.2.2,
      map_bind, bind_map_left, map_pure, List.map_cons, deepen_append, deepen_of_notMem h.1, deepen_of_notMem]

end
end
end Print

/-- A tree that is no program, printed `k` levels deeper, has the same text with `k` more copies of the indentation
behind each line feed. If it cannot be printed at one level, it cannot at the other, and for the same reason. -/
theorem print_deeper {t : Tree} (ht : ∀ p, t ≠ .program p) (hwords : Unbroken t.labels) {indent : String}
    (hindent : '\n' ∉ indent.toList) (j k : Nat) :
    t.print indent (j + k) = deepen indent k <$> t.print indent j := by
  cases t with
  | program p => exact absurd rfl (ht p)
  | node n => exact node_deeper k hindent (Int.natCast_nonneg j) n hwords
  | argument | parameter => rfl

theorem print_deeper_chain :
    let s : Span := ⟨1, 1, 1, 1, none⟩
    let callee : Node := .function s [⟨s, "x", some (.block ⟨s, [.string s "a\nb"]⟩)⟩] ⟨s, []⟩
    let next : Node := .cond s (.identifier ⟨s, "b"⟩) ⟨s, [.repeatLoop s ⟨s, [.jump s .brk none]⟩]⟩ none
    let t : Tree := .node (.cond s (.call s callee [⟨s, some "y z", .null s⟩]) ⟨s, []⟩ (some ⟨s, [next]⟩))
    let text := "if ((function(x = \x7b\n\t\t\"a\\nb\"\n\t\x7d) \x7b\x7d)(\"y z\" = NULL)) \x7b\x7d else " ++
      "if (b) \x7b\n\t\trepeat \x7b\n\t\t\tbreak\n\t\t\x7d\n\t\x7d"
    let deeper := "if ((function(x = \x7b\n\t\t\t\t\"a\\nb\"\n\t\t\t\x7d) \x7b\x7d)(\"y z\" = NULL)) \x7b\x7d else " ++
      "if (b) \x7b\n\t\t\t\trepeat \x7b\n\t\t\t\t\tbreak\n\t\t\t\t\x7d\n\t\t\t\x7d"
    (∀ p, t ≠ .program p) ∧ Unbroken t.labels ∧ '\n' ∉ "\t".toList ∧ t.print "\t" 1 = .ok text ∧
      t.print "\t" 3 = .ok deeper := by
  intro s callee next t text deeper
  have hprogram : ∀ p, t ≠ .program p := nofun
  have hwords : Unbroken t.labels := by decide
  have hindent : '\n' ∉ "\t".toList := by decide
  have hprint : t.print "\t" 1 = .ok text := by decide +kernel
  have hdeeper : t.print "\t" 3 = deepen "\t" 2 <$> t.print "\t" 1 := print_deeper hprogram hwords hindent 1 2
  have htext : deepen "\t" 2 text = deeper := by decide +kernel
  rw [hprint, Except.map_ok, htext] at hdeeper
  exact ⟨hprogram, hwords, hindent, hprint, hdeeper⟩

end Deadwood
