import Deadwood.Pipeline
import Deadwood.Proofs.Derived
import Deadwood.Proofs.Lexing
import Deadwood.Proofs.Soundness
import Deadwood.Proofs.Validation

/-! Trees that can be printed. Integer literals are whole and in range, and operators are those
of the language. Reading gives such trees, the passes keep them so, and printing never fails
on one. -/
namespace Deadwood

def Number.inIntegerRange : Number → Bool
  | .int n => n.natAbs ≤ integerMax
  | .real _ => false

/-- A known operator, or a text between percent signs. -/
def BinaryOp.isRegular : BinaryOp → Bool
  | .special s => s.toList.head? == some '%' && s.toList.getLast? == some '%'
  | .unknown _ => false
  | _ => true

def Node.isRegular : Node → Bool
  | .number _ v true => v.inIntegerRange
  | .unary _ op _ => op.precedence?.isSome
  | .binary _ op _ _ => op.isRegular
  | _ => true

theorem BinaryOp.precedence?_of_isRegular {op : BinaryOp} (h : op.isRegular) : op.precedence?.isSome := by
  cases op with
  | arith a => cases a <;> rfl
  | unknown => cases h
  | _ => rfl

theorem Node.isRegular_bare (n : Node) : n.bare.isRegular = n.isRegular := by
  cases n with
  | number s v i => cases i <;> rfl
  | cond s c t e? => cases e? <;> rfl
  | jump s k x? => cases x? <;> rfl
  | _ => rfl

/-! What reading gives. -/

theorem BinaryOp.isRegular_ofText {s : String} (hfirst : s.toList.head? = some '%')
    (hlast : s.toList.getLast? = some '%') : (ofText s).isRegular := by
  unfold ofText
  split <;> simp_all [isRegular]

theorem Lexeme.getLast?_of_percentTail {r : List Char} {n : Nat} (h : percentTail r = some n) :
    (r.take n).getLast? = some '%' := by
  induction r generalizing n with
  | nil => cases h
  | cons c r ih =>
    simp only [percentTail] at h
    split at h
    · next hc =>
      cases h
      simpa using hc
    · split at h
      · cases h
      · obtain ⟨m, hm, rfl⟩ := Option.map_eq_some_iff.1 h
        rw [List.take_succ_cons, List.getLast?_cons, ih hm, Option.getD_some]

/-- The lexemes a text is cut into: their operators are regular, and `=` is a lexeme of its own. -/
def Lexeme.isRegular : Lexeme → Bool
  | .op o => o.isRegular
  | .assign o => o != .equals
  | _ => true

theorem Lexeme.isRegular_of_scan {c : Char} {r : List Char} {l : Lexeme} (h : (scan c r).1 = some l) :
    l.isRegular := by
  obtain ⟨n, hscan⟩ := exists_scanned h
  cases hscan with
  | breaks | closeBracket | superArrow | string | stray => rfl
  | mark hmark =>
    have hmarks : ∀ m ∈ marks, m.2.isRegular := by decide
    exact hmarks _ hmark
  | pair hpair =>
    have hpairs : ∀ m ∈ pairs, m.2.2.isRegular := by decide
    exact hpairs _ hpair
  | percent htail =>
    have hlast := getLast?_of_percentTail htail
    exact BinaryOp.isRegular_ofText (by simp) (by simp [List.getLast?_cons, hlast])
  | word hword =>
    have hl := isWordOrNumber_of_scanWordOrNumber hword
    cases l with
    | keyword | name | number | stray => rfl
    | _ => cases hl

theorem Lexeme.isRegular_of_mem {cs : List Char} {l : Lexeme} (h : l ∈ lexemes cs) : l.isRegular := by
  obtain ⟨c, r, -, h⟩ := exists_scan_of_mem h
  exact isRegular_of_scan h

theorem Double.natAbs_truncate? {x : Double} {n : Int} (h : x.truncate? = some n) :
    n.natAbs = x.magnitude / Double.unit := by
  cases x with
  | infinite => cases h
  | finite s sig shift =>
    simp only [truncate?, Option.some.injEq] at h
    rw [← h]
    split
    · rw [Int.natAbs_neg, Int.natAbs_natCast]
    · rw [Int.natAbs_natCast]

theorem Literal.inIntegerRange_of_suffixed? {cs : List Char} {n : Int} (h : suffixed? cs = some n) :
    (Number.int n).inIntegerRange := by
  simp only [suffixed?, Option.bind_eq_bind, Option.bind_eq_some_iff] at h
  obtain ⟨d, -, h⟩ := h
  split at h
  · next hx =>
    simp only [Bool.and_eq_true, Bool.not_eq_true'] at hx
    have hmagnitude : (d.toDouble false).magnitude ≤ integerMax * Double.unit := by
      cases hd : d.toDouble false with
      | infinite => simp [hd, Double.truncate?] at h
      | finite => simpa [hd, Number.exceeds] using hx.2
    simp only [Number.inIntegerRange, Double.natAbs_truncate? h, decide_eq_true_eq]
    exact Nat.div_le_of_le_mul (by rwa [Nat.mul_comm])
  · cases h

theorem Literal.inIntegerRange_of_number {text : String} {v : Number}
    (h : number text = .ok (v, true)) : v.inIntegerRange := by
  have hplain (cs : List Char) : (plain cs).map (·, false) ≠ .ok (v, true) := by
    cases plain cs <;> simp [Except.map]
  simp only [number] at h
  split at h
  · split at h
    · next n hn =>
      cases h
      exact inIntegerRange_of_suffixed? hn
    · exact absurd h (hplain _)
  · exact absurd h (hplain _)

theorem Grammar.respects_isRegular [Text.CharNames] : Respects (fun l => l.isRegular) Node.isRegular where
  bare := Node.isRegular_bare
  arrow h := by simpa [Lexeme.isRegular] using h
  number {_ _ i _} _ h := by
    cases i with
    | true => exact Literal.inIntegerRange_of_number h
    | false => rfl
  string _ _ := rfl
  boolean := rfl
  null := rfl
  identifier _ := rfl
  unary h _ := h
  binary h _ _ _ := h
  called _ _ := by
    unfold called
    split <;> rfl
  index _ _ _ := rfl
  member _ _ := rfl
  block := rfl
  assign _ _ _ := rfl
  cond _ := rfl
  whileLoop _ := rfl
  repeatLoop := rfl
  forLoop _ _ := rfl
  function _ := rfl
  leave _ := rfl

theorem Program.isRegular_of_parse [Text.CharNames] {source file : String} {p : Program}
    (h : parse source file = .ok p) : p.all Node.isRegular := by
  have hbody := Grammar.respects_isRegular.fine_of_derives (derives_of_parse h) fun l => Lexeme.isRegular_of_mem
  exact (allNodes_bare Node.isRegular_bare p.body).symm.trans hbody

/-! What folding keeps. -/

theorem Number.inIntegerRange_iff {v : Number} :
    v.inIntegerRange ↔ ∃ n : Int, v = .int n ∧ n.natAbs ≤ integerMax := by
  cases v <;> simp [inIntegerRange]

theorem Number.mixed_int {f : Int → Int → Int} {g : Double → Double → Option Double} {a b : Int}
    {v : Number} (h : mixed f g (.int a) (.int b) = some v) : ∃ n, v = .int n := by
  simp only [mixed, exactInt] at h
  split at h
  · cases h
  · exact ⟨_, (Option.some.inj h).symm⟩

theorem Number.evaluate_int {op : Arith} (hop : Fold.keepsInteger op) {a b : Int} {v : Number}
    (h : evaluate op (.int a) (.int b) = some v) : ∃ n, v = .int n := by
  cases op with
  | add => exact mixed_int (g := Double.add) h
  | sub => exact mixed_int (g := Double.sub) h
  | mul => exact mixed_int (g := Double.mul) h
  | mod | quot =>
    simp only [evaluate] at h
    split at h
    · cases h
    · exact mixed_int h
  | div | pow => cases hop

theorem Fold.isRegular_arith? {s t u : Span} {op : Arith} {a b : Number} {i j : Bool} {n : Node}
    (ha : (Node.number t a i).isRegular) (hb : (Node.number u b j).isRegular)
    (h : arith? s op a b (i && j) = some n) : n.all Node.isRegular := by
  simp only [arith?, Option.bind_eq_bind, Option.bind_eq_some_iff] at h
  obtain ⟨v, hv, h⟩ := h
  split at h
  · cases h
  · next hexceeds =>
    cases h
    cases hinteger : i && j && keepsInteger op with
    | false => rfl
    | true =>
      simp only [Bool.and_eq_true] at hinteger
      obtain ⟨⟨rfl, rfl⟩, hop⟩ := hinteger
      obtain ⟨a, rfl, -⟩ := Number.inIntegerRange_iff.1 ha
      obtain ⟨b, rfl, -⟩ := Number.inIntegerRange_iff.1 hb
      obtain ⟨n, rfl⟩ := Number.evaluate_int hop hv
      simpa [hop, Number.exceeds, Node.all, Node.isRegular, Number.inIntegerRange] using hexceeds

theorem Fold.all_unary {s : Span} {op : UnaryOp} {x : Node} (hop : op.precedence?.isSome)
    (hx : x.all Node.isRegular) : (unary s op x).all Node.isRegular := by
  unfold unary
  cases h : unary? s op x with
  | none => simp [Node.all, Node.isRegular, hop, hx]
  | some n =>
    unfold unary? at h
    split at h
    · cases h
      rfl
    · next v i =>
      cases h
      cases i with
      | false => rfl
      | true =>
        obtain ⟨n, rfl, hn⟩ := Number.inIntegerRange_iff.1 hx
        exact Number.inIntegerRange_iff.2 ⟨-n, rfl, by simpa using hn⟩
    · next v i =>
      cases h
      cases i with
      | false => rfl
      | true => exact hx
    · cases h

theorem Fold.all_binary {s : Span} {op : BinaryOp} {l r : Node} (hop : op.isRegular)
    (hl : l.all Node.isRegular) (hr : r.all Node.isRegular) : (binary s op l r).all Node.isRegular := by
  unfold binary
  cases h : binary? s op l r with
  | none => simp [Node.all, Node.isRegular, hop, hl, hr]
  | some n =>
    unfold binary? at h
    split at h
    case h_5 => exact isRegular_arith? hl hr h
    all_goals cases h <;> rfl

mutual

theorem Node.isRegular_fold : (n : Node) → n.all Node.isRegular → n.fold.all Node.isRegular
  | .number s v i, h => h
  | .string s v, h => h
  | .boolean s v, h => h
  | .null s, h => h
  | .identifier id, h => h
  | .unary s op x, h => by
    simp only [Node.all, Bool.and_eq_true] at h
    exact Fold.all_unary h.1 (Node.isRegular_fold x h.2)
  | .binary s op l r, h => by
    simp only [Node.all, Bool.and_eq_true] at h
    exact Fold.all_binary h.1.1 (Node.isRegular_fold l h.1.2) (Node.isRegular_fold r h.2)
  | .call s f args, h => by
    simp only [Node.all, Bool.and_eq_true] at h
    simp [Node.fold, Node.all, Node.isRegular, Node.isRegular_fold f h.1.2, isRegular_foldArguments args h.2]
  | .index s t xs d, h => by
    simp only [Node.all, Bool.and_eq_true] at h
    simp [Node.fold, Node.all, Node.isRegular, Node.isRegular_fold t h.1.2, isRegular_foldNodes xs h.2]
  | .member s t name, h => by
    simp only [Node.all, Bool.and_eq_true] at h
    simp [Node.fold, Node.all, Node.isRegular, Node.isRegular_fold t h.2]
  | .block b, h => by
    simp only [Node.all, Bool.and_eq_true] at h
    simp [Node.fold, Node.all, Node.isRegular, Block.isRegular_fold b h.2]
  | .assign s op t v, h => by
    simp only [Node.all, Bool.and_eq_true] at h
    simp [Node.fold, Node.all, Node.isRegular, Node.isRegular_fold t h.1.2, Node.isRegular_fold v h.2]
  | .cond s c t none, h => by
    simp only [Node.all, Bool.and_eq_true] at h
    simp [Node.fold, Node.all, Node.isRegular, Node.isRegular_fold c h.1.2, Block.isRegular_fold t h.2]
  | .cond s c t (some e), h => by
    simp only [Node.all, Bool.and_eq_true] at h
    simp [Node.fold, Node.all, Node.isRegular, Node.isRegular_fold c h.1.1.2, Block.isRegular_fold t h.1.2,
      Block.isRegular_fold e h.2]
  | .whileLoop s c b, h => by
    simp only [Node.all, Bool.and_eq_true] at h
    simp [Node.fold, Node.all, Node.isRegular, Node.isRegular_fold c h.1.2, Block.isRegular_fold b h.2]
  | .repeatLoop s b, h => by
    simp only [Node.all, Bool.and_eq_true] at h
    simp [Node.fold, Node.all, Node.isRegular, Block.isRegular_fold b h.2]
  | .forLoop s v x b, h => by
    simp only [Node.all, Bool.and_eq_true] at h
    simp [Node.fold, Node.all, Node.isRegular, Node.isRegular_fold x h.1.2, Block.isRegular_fold b h.2]
  | .function s ps b, h => by
    simp only [Node.all, Bool.and_eq_true] at h
    simp [Node.fold, Node.all, Node.isRegular, isRegular_foldParameters ps h.1.2, Block.isRegular_fold b h.2]
  | .jump s k none, h => h
  | .jump s k (some x), h => by
    simp only [Node.all, Bool.and_eq_true] at h
    simp [Node.fold, Node.all, Node.isRegular, Node.isRegular_fold x h.2]

theorem Block.isRegular_fold : (b : Block) → b.all Node.isRegular → b.fold.all Node.isRegular
  | ⟨_, ss⟩, h => isRegular_foldNodes ss h

theorem isRegular_foldNodes : (ns : List Node) → allNodes Node.isRegular ns →
    allNodes Node.isRegular (foldNodes ns)
  | [], _ => rfl
  | n :: ns, h => by
    simp only [allNodes, Bool.and_eq_true] at h
    simp [foldNodes, allNodes, Node.isRegular_fold n h.1, isRegular_foldNodes ns h.2]

theorem isRegular_foldArguments : (as : List Argument) → allArguments Node.isRegular as →
    allArguments Node.isRegular (foldArguments as)
  | [], _ => rfl
  | ⟨_, _, v⟩ :: as, h => by
    simp only [allArguments, Bool.and_eq_true] at h
    simp [foldArguments, Argument.fold, allArguments, Node.isRegular_fold v h.1,
      isRegular_foldArguments as h.2]

theorem isRegular_foldParameters : (ps : List Parameter) → allParameters Node.isRegular ps →
    allParameters Node.isRegular (foldParameters ps)
  | [], _ => rfl
  | ⟨_, _, none⟩ :: ps, h => by
    simp only [allParameters] at h
    simp [foldParameters, Parameter.fold, allParameters, isRegular_foldParameters ps h]
  | ⟨_, _, some d⟩ :: ps, h => by
    simp only [allParameters, Bool.and_eq_true] at h
    simp [foldParameters, Parameter.fold, allParameters, Node.isRegular_fold d h.1,
      isRegular_foldParameters ps h.2]

end

/-! What pruning keeps. -/

theorem Pruned.allNodes_statements {p : Node → Bool} {x : Pruned} (h : x.node.all p) :
    allNodes p x.statements := by
  cases x with
  | single n => simpa [allNodes] using h
  | splice b =>
    obtain ⟨_, ss⟩ := b
    simp only [node_splice, Node.all, Bool.and_eq_true] at h
    exact h.2

theorem allNodes_appendToJump {p : Node → Bool} {ss rest : List Node} (hss : allNodes p ss)
    (hrest : allNodes p rest) : allNodes p (appendToJump ss rest) := by
  induction ss with
  | nil => exact hrest
  | cons n ss ih =>
    simp only [allNodes, Bool.and_eq_true] at hss
    simp only [appendToJump]
    split
    · simp [allNodes, hss.1]
    · simp [allNodes, hss.1, ih hss.2]

mutual

theorem Node.isRegular_prune : (n : Node) → n.all Node.isRegular → n.prune.node.all Node.isRegular
  | .number s v i, h => h
  | .string s v, h => h
  | .boolean s v, h => h
  | .null s, h => h
  | .identifier id, h => h
  | .unary s op x, h => by
    simp only [Node.all, Bool.and_eq_true] at h
    simpa [Node.prune, Node.all, Node.isRegular, Node.isRegular_prune x h.2] using h.1
  | .binary s op l r, h => by
    simp only [Node.all, Bool.and_eq_true] at h
    simpa [Node.prune, Node.all, Node.isRegular, Node.isRegular_prune l h.1.2, Node.isRegular_prune r h.2]
      using h.1.1
  | .call s f args, h => by
    simp only [Node.all, Bool.and_eq_true] at h
    simp [Node.prune, Node.all, Node.isRegular, Node.isRegular_prune f h.1.2,
      isRegular_pruneArguments args h.2]
  | .index s t xs d, h => by
    simp only [Node.all, Bool.and_eq_true] at h
    simp [Node.prune, Node.all, Node.isRegular, Node.isRegular_prune t h.1.2, isRegular_pruneItems xs h.2]
  | .member s t name, h => by
    simp only [Node.all, Bool.and_eq_true] at h
    simp [Node.prune, Node.all, Node.isRegular, Node.isRegular_prune t h.2]
  | .block b, h => by
    simp only [Node.all, Bool.and_eq_true] at h
    simp [Node.prune, Node.all, Node.isRegular, Block.isRegular_prune b h.2]
  | .assign s op t v, h => by
    simp only [Node.all, Bool.and_eq_true] at h
    simp [Node.prune, Node.all, Node.isRegular, Node.isRegular_prune t h.1.2, Node.isRegular_prune v h.2]
  | .cond s c t none, h => by
    simp only [Node.all, Bool.and_eq_true] at h
    have ht := Block.isRegular_prune t h.2
    simp only [Node.prune]
    split <;> simp [Node.all, Node.isRegular, Block.all, allNodes, h.1.2, ht]
  | .cond s c t (some e), h => by
    simp only [Node.all, Bool.and_eq_true] at h
    have ht := Block.isRegular_prune t h.1.2
    have he := Block.isRegular_prune e h.2
    simp only [Node.prune]
    split <;> simp [Node.all, Node.isRegular, h.1.1.2, ht, he]
  | .whileLoop s c b, h => by
    simp only [Node.all, Bool.and_eq_true] at h
    have hb := Block.isRegular_prune b h.2
    simp only [Node.prune]
    split <;> simp [Node.all, Node.isRegular, Block.all, allNodes, h.1.2, hb]
  | .repeatLoop s b, h => by
    simp only [Node.all, Bool.and_eq_true] at h
    simp [Node.prune, Node.all, Node.isRegular, Block.isRegular_prune b h.2]
  | .forLoop s v x b, h => by
    simp only [Node.all, Bool.and_eq_true] at h
    simp [Node.prune, Node.all, Node.isRegular, Node.isRegular_prune x h.1.2, Block.isRegular_prune b h.2]
  | .function s ps b, h => by
    simp only [Node.all, Bool.and_eq_true] at h
    simp [Node.prune, Node.all, Node.isRegular, h.1.2, Block.isRegular_prune b h.2]
  | .jump s k x, h => h

theorem Block.isRegular_prune : (b : Block) → b.all Node.isRegular → b.prune.all Node.isRegular
  | ⟨_, ss⟩, h => isRegular_pruneNodes ss h

theorem isRegular_pruneNodes : (ss : List Node) → allNodes Node.isRegular ss →
    allNodes Node.isRegular (pruneNodes ss)
  | [], _ => rfl
  | n :: ns, h => by
    simp only [allNodes, Bool.and_eq_true] at h
    exact allNodes_appendToJump (Pruned.allNodes_statements (Node.isRegular_prune n h.1))
      (isRegular_pruneNodes ns h.2)

theorem isRegular_pruneItems : (xs : List Node) → allNodes Node.isRegular xs →
    allNodes Node.isRegular (pruneItems xs)
  | [], _ => rfl
  | n :: ns, h => by
    simp only [allNodes, Bool.and_eq_true] at h
    simp [pruneItems, allNodes, Node.isRegular_prune n h.1, isRegular_pruneItems ns h.2]

theorem isRegular_pruneArguments : (as : List Argument) → allArguments Node.isRegular as →
    allArguments Node.isRegular (pruneArguments as)
  | [], _ => rfl
  | ⟨_, _, v⟩ :: as, h => by
    simp only [allArguments, Bool.and_eq_true] at h
    simp [pruneArguments, allArguments, Node.isRegular_prune v h.1, isRegular_pruneArguments as h.2]

end

/-! Printing. -/

theorem UnaryOp.precedence_ok {op : UnaryOp} (h : op.precedence?.isSome) : ∃ k, op.precedence = .ok k := by
  obtain ⟨k, hk⟩ := Option.isSome_iff_exists.1 h
  exact ⟨k, by simp [precedence, hk]⟩

theorem BinaryOp.precedence_ok {op : BinaryOp} (h : op.isRegular) : ∃ k, op.precedence = .ok k := by
  obtain ⟨k, hk⟩ := Option.isSome_iff_exists.1 (precedence?_of_isRegular h)
  exact ⟨k, by simp [precedence, hk]⟩

theorem Print.number_ok (v : Number) : ∃ text, number v false = .ok text := by
  cases v with
  | int n => exact ⟨_, rfl⟩
  | real x =>
    simp only [number, Bool.false_eq_true, if_false]
    split <;> exact ⟨_, rfl⟩

mutual

theorem Print.node_ok (indent : String) (level : Int) : (n : Node) → n.all Node.isRegular →
    ∃ text, node indent level n = .ok text
  | .number s v false, _ => number_ok v
  | .number s v true, h => by
    obtain ⟨n, rfl, -⟩ := Number.inIntegerRange_iff.1 h
    exact ⟨_, rfl⟩
  | .string s v, _ | .boolean s v, _ | .null s, _ | .identifier id, _ => ⟨_, rfl⟩
  | .unary s op x, h => by
    simp only [Node.all, Bool.and_eq_true] at h
    obtain ⟨k, hk⟩ := UnaryOp.precedence_ok h.1
    obtain ⟨text, hx⟩ := node_ok indent level x h.2
    exact ⟨_, by rw [node, hk, hx]; rfl⟩
  | .binary s op l r, h => by
    simp only [Node.all, Bool.and_eq_true] at h
    obtain ⟨k, hk⟩ := BinaryOp.precedence_ok h.1.1
    obtain ⟨left, hl⟩ := node_ok indent level l h.1.2
    obtain ⟨right, hr⟩ := node_ok indent level r h.2
    exact ⟨_, by rw [node, hk, hl, hr]; rfl⟩
  | .call s f args, h => by
    simp only [Node.all, Bool.and_eq_true] at h
    obtain ⟨callee, hf⟩ := node_ok indent level f h.1.2
    obtain ⟨texts, hargs⟩ := arguments_ok indent level args h.2
    exact ⟨_, by rw [node, hf, hargs]; rfl⟩
  | .index s t xs d, h => by
    simp only [Node.all, Bool.and_eq_true] at h
    obtain ⟨target, ht⟩ := node_ok indent level t h.1.2
    obtain ⟨texts, hxs⟩ := nodes_ok indent level xs h.2
    exact ⟨_, by rw [node, ht, hxs]; rfl⟩
  | .member s t name, h => by
    simp only [Node.all, Bool.and_eq_true] at h
    obtain ⟨target, ht⟩ := node_ok indent level t h.2
    exact ⟨_, by rw [node, ht]; rfl⟩
  | .block b, h => by
    simp only [Node.all, Bool.and_eq_true] at h
    exact block_ok indent level b h.2
  | .assign s op t v, h => by
    simp only [Node.all, Bool.and_eq_true] at h
    obtain ⟨target, ht⟩ := node_ok indent level t h.1.2
    obtain ⟨value, hv⟩ := node_ok indent level v h.2
    exact ⟨_, by rw [node, ht, hv]; rfl⟩
  | .cond s c t none, h => by
    simp only [Node.all, Bool.and_eq_true] at h
    obtain ⟨condition, hc⟩ := node_ok indent level c h.1.2
    obtain ⟨yes, ht⟩ := block_ok indent level t h.2
    exact ⟨_, by rw [node, hc, ht]; rfl⟩
  | .cond s c t (some e), h => by
    simp only [Node.all, Bool.and_eq_true] at h
    obtain ⟨condition, hc⟩ := node_ok indent level c h.1.1.2
    obtain ⟨yes, ht⟩ := block_ok indent level t h.1.2
    obtain ⟨no, he⟩ := alternative_ok indent level e h.2
    exact ⟨_, by rw [node, hc, ht, he]; rfl⟩
  | .whileLoop s c b, h => by
    simp only [Node.all, Bool.and_eq_true] at h
    obtain ⟨condition, hc⟩ := node_ok indent level c h.1.2
    obtain ⟨body, hb⟩ := block_ok indent level b h.2
    exact ⟨_, by rw [node, hc, hb]; rfl⟩
  | .repeatLoop s b, h => by
    simp only [Node.all, Bool.and_eq_true] at h
    obtain ⟨body, hb⟩ := block_ok indent level b h.2
    exact ⟨_, by rw [node, hb]; rfl⟩
  | .forLoop s v x b, h => by
    simp only [Node.all, Bool.and_eq_true] at h
    obtain ⟨iterable, hx⟩ := node_ok indent level x h.1.2
    obtain ⟨body, hb⟩ := block_ok indent level b h.2
    exact ⟨_, by rw [node, hx, hb]; rfl⟩
  | .function s ps b, h => by
    simp only [Node.all, Bool.and_eq_true] at h
    obtain ⟨texts, hps⟩ := parameters_ok indent level ps h.1.2
    obtain ⟨body, hb⟩ := block_ok indent level b h.2
    exact ⟨_, by rw [node, hps, hb]; rfl⟩
  | .jump s .ret none, _ => ⟨_, rfl⟩
  | .jump s .ret (some x), h => by
    simp only [Node.all, Bool.and_eq_true] at h
    obtain ⟨payload, hx⟩ := node_ok indent level x h.2
    exact ⟨_, by rw [node, hx]; rfl⟩
  | .jump s .brk x?, _ | .jump s .nxt x?, _ => ⟨_, rfl⟩

theorem Print.block_ok (indent : String) (level : Int) : (b : Block) → b.all Node.isRegular →
    ∃ text, block indent level b = .ok text
  | ⟨_, ss⟩, h => by
    obtain ⟨texts, hss⟩ := nodes_ok indent (level + 1) ss h
    exact ⟨_, by rw [block, hss]; rfl⟩

theorem Print.alternative_ok (indent : String) (level : Int) : (b : Block) → b.all Node.isRegular →
    ∃ text, alternative indent level b = .ok text
  | ⟨_, ss⟩, h => by
    rw [alternative]
    split
    · obtain ⟨texts, hss⟩ := nodes_ok indent level ss h
      exact ⟨_, by rw [hss]; rfl⟩
    · obtain ⟨texts, hss⟩ := nodes_ok indent (level + 1) ss h
      exact ⟨_, by rw [hss]; rfl⟩

theorem Print.nodes_ok (indent : String) (level : Int) : (ns : List Node) → allNodes Node.isRegular ns →
    ∃ texts, nodes indent level ns = .ok texts
  | [], _ => ⟨_, rfl⟩
  | n :: ns, h => by
    simp only [allNodes, Bool.and_eq_true] at h
    obtain ⟨text, hn⟩ := node_ok indent level n h.1
    obtain ⟨texts, hns⟩ := nodes_ok indent level ns h.2
    exact ⟨_, by rw [nodes, hn, hns]; rfl⟩

theorem Print.arguments_ok (indent : String) (level : Int) : (as : List Argument) →
    allArguments Node.isRegular as → ∃ texts, arguments indent level as = .ok texts
  | [], _ => ⟨_, rfl⟩
  | ⟨_, none, v⟩ :: as, h | ⟨_, some _, v⟩ :: as, h => by
    simp only [allArguments, Bool.and_eq_true] at h
    obtain ⟨text, hv⟩ := node_ok indent level v h.1
    obtain ⟨texts, has⟩ := arguments_ok indent level as h.2
    exact ⟨_, by rw [arguments, hv, has]; rfl⟩

theorem Print.parameters_ok (indent : String) (level : Int) : (ps : List Parameter) →
    allParameters Node.isRegular ps → ∃ texts, parameters indent level ps = .ok texts
  | [], _ => ⟨_, rfl⟩
  | ⟨_, _, none⟩ :: ps, h => by
    obtain ⟨texts, hps⟩ := parameters_ok indent level ps h
    exact ⟨_, by rw [parameters, hps]; rfl⟩
  | ⟨_, _, some d⟩ :: ps, h => by
    simp only [allParameters, Bool.and_eq_true] at h
    obtain ⟨text, hd⟩ := node_ok indent level d h.1
    obtain ⟨texts, hps⟩ := parameters_ok indent level ps h.2
    exact ⟨_, by rw [parameters, hd, hps]; rfl⟩

end

namespace Program

theorem isRegular_apply {p : Program} (h : p.all Node.isRegular) (pass : Pass) :
    (pass.apply p).all Node.isRegular := by
  cases pass with
  | constantFolding => exact isRegular_foldNodes p.body h
  | deadCode => exact isRegular_pruneNodes p.body h

theorem isRegular_applyAll {p : Program} (h : p.all Node.isRegular) (passes : List Pass) :
    (Pass.applyAll passes p).all Node.isRegular := by
  induction passes generalizing p with
  | nil => exact h
  | cons pass passes ih => exact ih (isRegular_apply h pass)

theorem print_ok {p : Program} (h : p.all Node.isRegular) (indent : String) :
    ∃ text, p.print indent = .ok text := by
  obtain ⟨lines, hlines⟩ := Print.nodes_ok indent 0 p.body h
  exact ⟨_, by rw [print, hlines]; rfl⟩

end Program

end Deadwood
