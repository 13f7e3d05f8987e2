import Deadwood.Proofs.Follow

/-! What the grammar derives is read. A phrase is read up to its rest when the rest cannot
continue it, by one lemma for each rule of the grammar. -/
namespace Deadwood
namespace Grammar

/-! The reader of each phrase. -/

def layer [Text.CharNames] (self : Bool → Reader Part) : Nat → Reader Part
  | 1 => disjunction self
  | 2 => leftGrouped andOp (negated self)
  | 3 => negated self
  | 4 => comparison self
  | 5 => sum self
  | 6 => leftGrouped productOp (leftGrouped specialOp (leftGrouped rangeOp (signed self)))
  | 7 => leftGrouped specialOp (leftGrouped rangeOp (signed self))
  | 8 => leftGrouped rangeOp (signed self)
  | 9 => signed self
  | 11 => operand self
  | _ => atom self

/-- What follows an operand of a layer. -/
def tailOf [Text.CharNames] (self : Bool → Reader Part) (k fuel : Nat) (x : Part) : Reader Part :=
  if k = 11 then postfixed self fuel x else leftFrom (operatorAt k) (layer self (k + 1)) fuel x

/-- Leading operators are counted by fuel, which any bound on the lexemes will do for. -/
def LayerReads [Text.CharNames] (self : Bool → Reader Part) (k : Nat) (c : Cursor) (rest : List Lexeme) (v : Node) :
    Prop :=
  match k with
  | 3 => ∀ fuel, c.lexemes.length < fuel →
    Reads (leading notOp (fun _ => comparison self) fuel) c rest (·.node.bare = v)
  | 9 => ∀ fuel, c.lexemes.length < fuel →
    Reads (leading signOp (once powOp (operand self)) fuel) c rest (·.node.bare = v)
  | 10 => ∀ fuel, c.lexemes.length ≤ fuel →
    Reads (once powOp (operand self) (leading signOp (once powOp (operand self)) fuel)) c rest (·.node.bare = v)
  | k => Reads (layer self k) c rest (·.node.bare = v)

theorem LayerReads.plain [Text.CharNames] (h : LayerReads self k c rest v) (hk : k ≠ 10) :
    Reads (layer self k) c rest (·.node.bare = v) := by
  unfold LayerReads at h
  split at h
  · exact .remaining (h _ (Nat.lt_succ_self _))
  · exact .remaining (h _ (Nat.lt_succ_self _))
  · exact absurd rfl hk
  · exact h

theorem LayerReads.of_plain [Text.CharNames] (h : Reads (layer self k) c rest (·.node.bare = v))
    (hk : k ≠ 3 ∧ k ≠ 9 ∧ k ≠ 10) : LayerReads self k c rest v := by
  unfold LayerReads
  split
  · exact absurd rfl hk.1
  · exact absurd rfl hk.2.1
  · exact absurd rfl hk.2.2
  · exact h

theorem layer_of_groupsLeft [Text.CharNames] (self : Bool → Reader Part) (hk : groupsLeft k) :
    layer self k = (do
      let x ← layer self (k + 1)
      tailOf self k (← remaining) x) := by
  obtain ⟨hor, hand, -, hsum, hproduct, hspecial, hrange, -⟩ := operator_tables
  have hk : k = 1 ∨ k = 2 ∨ k = 5 ∨ k = 6 ∨ k = 7 ∨ k = 8 ∨ k = 11 := by simpa [groupsLeft] using hk
  obtain rfl | rfl | rfl | rfl | rfl | rfl | rfl := hk
  · simp [layer, tailOf, disjunction, leftGrouped, ← hor]
  · simp [layer, tailOf, leftGrouped, ← hand]
  · simp [layer, tailOf, sum, leftGrouped, ← hsum]
  · simp [layer, tailOf, leftGrouped, ← hproduct]
  · simp [layer, tailOf, leftGrouped, ← hspecial]
  · simp [layer, tailOf, leftGrouped, ← hrange]
  · simp [layer, tailOf, operand]

abbrev Item.Raw : Item → Type
  | .argument => Argument
  | .parameter => Parameter
  | .index => Part

def bareItem : (i : Item) → i.Raw → i.Value
  | .argument => Argument.bare
  | .parameter => Parameter.bare
  | .index => fun x => x.node.bare

def itemOf (self : Bool → Reader Part) : (i : Item) → Reader i.Raw
  | .argument => argument self
  | .parameter => parameter self
  | .index => self false

/-- The mark that closes a list. -/
def closesList : Lexeme → Bool
  | .closeParen | .closeBracket _ => true
  | _ => false

/-- A phrase is read when its rest cannot continue it, with depth and fuel for its lexemes. -/
def Complete [Text.CharNames] : (p : Phrase) → List Lexeme → p.Value → List Lexeme → Prop
  | .statements, ts, ss, rest => (∀ l, rest.head? = some l → l = .closeBrace) →
    ∀ depth fuel c, c.lexemes = ts → ts.length < depth → ts.length ≤ fuel →
      Reads (sequence (expression depth true) fuel) c rest (bareNodes · = ss)
  | .expression b, ts, x, rest => Follows rest → ∀ depth c, c.lexemes = ts → ts.length < depth →
    Reads (expression depth b) c rest (·.node.bare = x)
  | .layer k, ts, x, rest => Stops k rest → ∀ depth c, c.lexemes = ts → ts.length ≤ depth →
    LayerReads (expression depth) k c rest x
  | .tail k l, ts, x, rest => Stops k rest → ∀ depth fuel c (y : Part), y.node.bare = l → c.lexemes = ts →
    ts.length ≤ depth → ts.length ≤ fuel → Reads (tailOf (expression depth) k fuel y) c rest (·.node.bare = x)
  | .opening, ts, o, rest => rest.head? ≠ some .newline → ∀ depth c, c.lexemes = ts → ts.length ≤ depth →
    Reads (link (expression depth)) c rest fun r => ∃ start o', r = .inl (start, o') ∧ o'.bare = o
  | .run, ts, r, rest => Ended rest → ∀ depth fuel c os, c.lexemes = ts → ts.length ≤ depth →
    ts.length ≤ fuel → Reads (run (expression depth) fuel os) c rest fun r' =>
      ∃ more : Run, r' = ⟨os ++ more.openings, more.leaf⟩ ∧ more.bare = r
  | .alternatives k, ts, as, rest => Follows rest → ∀ depth fuel c, c.lexemes = ts → ts.length ≤ depth →
    ts.length ≤ fuel → Reads (alternatives (expression depth) fuel k) c rest (·.map Alternative.bare = as)
  | .item i, ts, x, rest => Follows rest → ∀ depth c, c.lexemes = ts → ts.length < depth →
    Reads (itemOf (expression depth) i) c rest (bareItem i · = x)
  | .list i, ts, xs, rest => ∀ g l mid close rest', rest = gap g (l :: mid) → closesList l →
    (∀ d : Cursor, d.lexemes = l :: mid → Reads close d rest' fun _ => True) →
    ∀ depth fuel c, c.lexemes = ts → ts.length < depth → ts.length ≤ fuel →
      Reads (items (itemOf (expression depth) i) close fuel) c rest' (·.1.map (bareItem i) = xs)
  | .enclosed i, ts, xs, rest => ∀ depth c, c.lexemes = ts → ts.length < depth →
    Reads (parenList (itemOf (expression depth) i)) c rest (·.1.map (bareItem i) = xs)

namespace Complete

/-! Operands. -/

theorem number [Text.CharNames] (hs : Literal.number s = .ok (v, i)) :
    Complete (.layer 12) (.number s :: ts) (.number .blank v i) ts := by
  intro _ depth c hc _
  change Reads (atom _) c _ _
  refine .peek ?_
  rw [hc]
  refine .bind (.take hc) fun t d _ hd => ?_
  rw [hs]
  exact .valued hd fun _ => rfl

theorem string [Text.CharNames] (hs : Literal.string s = .ok v) :
    Complete (.layer 12) (.string s :: ts) (.string .blank v) ts := by
  intro _ depth c hc _
  change Reads (atom _) c _ _
  refine .peek ?_
  rw [hc]
  refine .bind (.take hc) fun t d _ hd => ?_
  rw [hs]
  exact .valued hd fun _ => rfl

theorem constant [Text.CharNames] (hk : constant? k = some x) : Complete (.layer 12) (.keyword k :: ts) x ts := by
  intro _ depth c hc _
  change Reads (atom _) c _ _
  refine .peek ?_
  rw [hc]
  cases k with
  | trueWord | falseWord | nullWord =>
    cases hk
    exact .bind (.take hc) fun t d _ hd => .leafOf hd fun _ => rfl
  | _ => cases hk

theorem name [Text.CharNames] : Complete (.layer 12) (.name s :: ts) (.identifier ⟨.blank, s⟩) ts := by
  intro _ depth c hc _
  change Reads (atom _) c _ _
  refine .peek ?_
  rw [hc]
  exact .bind (.take hc) fun t d _ hd => .leafOf hd fun _ => rfl

theorem paren [Text.CharNames] (hx : Derives (.expression false) ts x (gap g₂ (.closeParen :: rest)))
    (ih : Complete (.expression false) ts x (gap g₂ (.closeParen :: rest))) :
    Complete (.layer 12) (.openParen :: gap g ts) x rest := by
  intro _ depth c hc hdepth
  change Reads (atom _) c _ _
  refine .peek ?_
  rw [hc]
  have hlength := length_le_gap g ts
  refine .bind (.take hc) fun t d _ hd => ?_
  refine .bind (.skipBreak hd (hx.advances.head_ne rfl)) fun _ d _ hd => ?_
  refine .bind (ih (follows_gap rfl nofun nofun) depth d hd (by grind)) fun y d hy hd => ?_
  refine .bind (.skipBreak hd nofun) fun _ d _ hd => ?_
  exact .bind (.expect hd) fun u d _ hd => .pure hd hy

theorem block [Text.CharNames] (ih : Complete .statements ts ss (.closeBrace :: rest)) :
    Complete (.layer 12) (.openBrace :: ts) (.block ⟨.blank, ss⟩) rest := by
  intro _ depth c hc hdepth
  change Reads (atom _) c _ _
  refine .peek ?_
  rw [hc]
  refine .bind (.expect hc) fun t d _ hd => .remaining ?_
  refine .bind (ih (by simp) depth _ d hd (by grind) (by grind)) fun ss d hss hd => ?_
  exact .bind (.expect hd) fun u d _ hd => .span (.pure hd (by rw [Node.bare, Block.bare, hss]))

/-! Items. -/

theorem positional [Text.CharNames] (hx : Derives (.expression false) ts x rest)
    (ih : Complete (.expression false) ts x rest) : Complete (.item .argument) ts ⟨.blank, none, x⟩ rest := by
  intro hrest depth c hc hdepth
  have hname : argumentName? c.tokens = none := by
    cases hname : argumentName? c.tokens with
    | none => rfl
    | some text =>
      -- the `=` would be left over, and an item does not end at one
      obtain ⟨t, u, tokens, htokens, hu, -⟩ := argumentName?_eq_some hname
      have hequals := hx.stopsAtEquals _ _ (by rw [← hc, Cursor.lexemes, htokens, List.map_cons, List.map_cons, hu])
      have hends := hrest.1 .equals (by rw [hequals, List.head?_cons])
      cases hends
  change Reads (argument _) c _ _
  refine .get ?_
  rw [hname]
  refine .bind (ih hrest depth c hc hdepth) fun y d hy hd => .span (.pure hd ?_)
  rw [bareItem, Argument.bare, hy]

theorem named [Text.CharNames] (hl : argumentText? l = some text) (hx : Derives (.expression false) ts x rest)
    (ih : Complete (.expression false) ts x rest) :
    Complete (.item .argument) (l :: .equals :: gap g ts) ⟨.blank, some text, x⟩ rest := by
  intro hrest depth c hc hdepth
  have hlength := length_le_gap g ts
  change Reads (argument _) c _ _
  refine .get ?_
  rw [argumentName?_eq hc, hl]
  refine .bind (.take hc) fun t d _ hd => .bind (.take hd) fun _ d _ hd => ?_
  refine .bind (.skipBreak hd (hx.advances.head_ne rfl)) fun _ d _ hd => ?_
  refine .bind (ih hrest depth d hd (by grind)) fun y d hy hd => .span (.pure hd ?_)
  rw [bareItem, Argument.bare, hy]

theorem plain [Text.CharNames] (hl : l.name? = some text) :
    Complete (.item .parameter) (l :: ts) ⟨.blank, text, none⟩ ts := by
  intro hrest depth c hc _
  have hequals : ts.head? ≠ some .equals := fun h => by cases hrest.1 _ h
  change Reads (parameter _) c _ _
  refine .bind (.name hc hl) fun r d hr hd => ?_
  refine .bind (.accept_false hd hequals) fun b d hb hd => ?_
  rw [hb]
  exact .span (.pure hd (by rw [bareItem, Parameter.bare, hr]))

theorem defaulted [Text.CharNames] (hl : l.name? = some text) (hx : Derives (.expression false) ts x rest)
    (ih : Complete (.expression false) ts x rest) :
    Complete (.item .parameter) (l :: .equals :: gap g ts) ⟨.blank, text, some x⟩ rest := by
  intro hrest depth c hc hdepth
  have hlength := length_le_gap g ts
  change Reads (parameter _) c _ _
  refine .bind (.name hc hl) fun r d hr hd => ?_
  refine .bind (.accept_true hd) fun b d hb hd => ?_
  rw [hb]
  refine .bind (.skipBreak hd (hx.advances.head_ne rfl)) fun _ d _ hd => ?_
  refine .bind (ih hrest depth d hd (by grind)) fun y d hy hd => .span (.pure hd ?_)
  rw [bareItem, Parameter.bare, hr, hy]

theorem single [Text.CharNames] (hx : Derives (.item i) ts x rest) (ih : Complete (.item i) ts x rest) :
    Complete (.list i) ts [x] rest := by
  rintro g l mid close rest' rfl hl hclose depth fuel c hc hdepth hfuel
  have hlength := hx.advances.length_lt
  obtain ⟨fuel, rfl⟩ : ∃ n, fuel = n + 1 := ⟨fuel - 1, by omega⟩
  have hends : ends l ∧ l ≠ .keyword .elseWord ∧ l ≠ .newline ∧ l ≠ .comma := by
    cases l <;> simp_all [closesList, ends]
  refine .bind (ih (follows_gap hends.1 hends.2.1 hends.2.2.1) depth c hc hdepth) fun y d hy hd => ?_
  refine .bind (.skipBreak hd (by simpa using hends.2.2.1)) fun _ d _ hd => ?_
  refine .bind (.accept_false hd (by simpa using hends.2.2.2)) fun b d hb hd => ?_
  rw [hb]
  exact .bind (hclose d hd) fun t d _ hd => .pure hd (by simp [hy])

theorem comma [Text.CharNames] (hx : Derives (.item i) ts x (gap g (.comma :: gap g₂ mid)))
    (hxs : Derives (.list i) mid xs rest)
    (ihx : Complete (.item i) ts x (gap g (.comma :: gap g₂ mid))) (ihxs : Complete (.list i) mid xs rest) :
    Complete (.list i) ts (x :: xs) rest := by
  rintro g' l mid' close rest' hrest hl hclose depth fuel c hc hdepth hfuel
  have hlength : mid.length + 1 ≤ ts.length := by
    have := hx.suffix.length_le
    have := length_le_gap g (.comma :: gap g₂ mid)
    have := length_le_gap g₂ mid
    grind
  obtain ⟨fuel, rfl⟩ : ∃ n, fuel = n + 1 := ⟨fuel - 1, by omega⟩
  refine .bind (ihx (follows_gap rfl nofun nofun) depth c hc hdepth) fun y d hy hd => ?_
  refine .bind (.skipBreak hd nofun) fun _ d _ hd => ?_
  refine .bind (.accept_true hd) fun b d hb hd => ?_
  rw [hb]
  refine .bind (.skipBreak hd (hxs.advances.head_ne rfl)) fun _ d _ hd => ?_
  refine .bind (ihxs g' l mid' close rest' hrest hl hclose depth fuel d hd (by omega) (by omega))
    fun ys d hys hd => .pure hd ?_
  rw [List.map_cons, hy, hys]

theorem empty [Text.CharNames] : Complete (.enclosed i) (gap g (gap h (.closeParen :: rest))) [] rest := by
  intro depth c hc _
  -- the breaks before the mark are taken from the left, so a lone second one is taken as the first
  obtain ⟨g, h, hc, hgap⟩ : ∃ g h, c.lexemes = gap g (gap h (.closeParen :: rest)) ∧ (h = true → g = true) := by
    cases g with
    | true => exact ⟨true, h, hc, fun _ => rfl⟩
    | false => exact ⟨h, false, hc, nofun⟩
  cases h with
  | false =>
    refine .bind (.skipBreak hc nofun) fun _ d _ hd => .peek ?_
    rw [hd]
    exact .bind (.take hd) fun t d _ hd => .pure hd rfl
  | true =>
    rw [hgap rfl] at hc
    refine .bind (.bind (.accept_true hc) fun _ d _ hd => .pure (P := fun _ => True) hd trivial)
      fun _ d _ hd => .peek ?_
    rw [hd]
    refine .bind (.bind (.accept_true hd) fun _ d _ hd => .pure (P := fun _ => True) hd trivial)
      fun _ d _ hd => ?_
    exact .bind (.expect hd) fun t d _ hd => .pure hd rfl

theorem filled [Text.CharNames] (hxs : Derives (.list i) ts xs (gap g₂ (.closeParen :: rest)))
    (ih : Complete (.list i) ts xs (gap g₂ (.closeParen :: rest))) :
    Complete (.enclosed i) (gap g ts) xs rest := by
  intro depth c hc hdepth
  have hlength := length_le_gap g ts
  refine .bind (.skipBreak hc (hxs.advances.head_ne rfl)) fun _ d _ hd => .peek ?_
  rw [hd]
  have hitems : Reads (listed (itemOf (expression depth) i) (expect .closeParen)) d rest
      (·.1.map (bareItem i) = xs) :=
    .remaining (ih _ _ _ _ _ rfl rfl (fun _ => .expect) depth _ d hd (by omega) (by grind))
  split
  · next h => exact absurd h (hxs.advances.head_ne rfl)
  · next h => exact absurd h (hxs.advances.head_ne rfl)
  · exact hitems

/-! Operators. -/

theorem tighter [Text.CharNames] (hk : passes k) (hx : Derives (.layer (k + 1)) ts x rest)
    (ih : Complete (.layer (k + 1)) ts x rest) : Complete (.layer k) ts x rest := by
  intro hrest depth c hc hdepth
  have ih := fun c hc => ih (hrest.mono (Nat.le_succ k)) depth c hc hdepth
  obtain ⟨m, r, rfl, hm, -⟩ := hx.advances
  have hk : k = 3 ∨ k = 4 ∨ k = 9 ∨ k = 10 := by simpa [passes] using hk
  obtain rfl | rfl | rfl | rfl := hk
  · intro fuel hfuel
    obtain ⟨fuel, rfl⟩ : ∃ n, fuel = n + 1 := ⟨fuel - 1, by omega⟩
    refine .leading_none hc ?_ ih
    rintro l ⟨⟩
    cases m <;> simp_all [begins, notOp]
  · refine .once_none (ih c hc) fun l hl => ?_
    rw [operator_tables.2.2.1]
    exact hrest.operatorAt hl
  · intro fuel hfuel
    obtain ⟨fuel, rfl⟩ : ∃ n, fuel = n + 1 := ⟨fuel - 1, by omega⟩
    refine .leading_none hc ?_ fun d hd => ih d hd fuel (by grind)
    rintro l ⟨⟩
    cases m <;> simp_all [begins, signOp]
  · intro fuel hfuel
    refine .once_none (ih c hc) fun l hl => ?_
    rw [operator_tables.2.2.2.2.2.2.2]
    exact hrest.operatorAt hl

theorem grouped [Text.CharNames] (hk : groupsLeft k) (hl : Derives (.layer (k + 1)) ts l mid)
    (hx : Derives (.tail k l) mid x rest)
    (ihl : Complete (.layer (k + 1)) ts l mid) (ihx : Complete (.tail k l) mid x rest) :
    Complete (.layer k) ts x rest := by
  intro hrest depth c hc hdepth
  have hk' : k ≠ 3 ∧ k ≠ 9 ∧ k ≠ 10 := by
    refine ⟨?_, ?_, ?_⟩ <;> rintro rfl <;> cases hk
  refine .of_plain ?_ hk'
  rw [layer_of_groupsLeft _ hk]
  have hlength := hl.advances.length_lt
  refine .bind ((ihl (hx.stops_tail hrest) depth c hc hdepth).plain (by omega)) fun y d hy hd => .remaining ?_
  exact ihx hrest depth _ d y hy hd (by omega) (by grind)

theorem related [Text.CharNames] (hl : Derives (.layer 5) ts l (.op (.rel o) :: gap g mid))
    (hr : Derives (.layer 5) mid r rest)
    (ihl : Complete (.layer 5) ts l (.op (.rel o) :: gap g mid)) (ihr : Complete (.layer 5) mid r rest) :
    Complete (.layer 4) ts (.binary .blank (.rel o) l r) rest := by
  intro hrest depth c hc hdepth
  have hlength := hl.advances.length_lt
  have hlength' := length_le_gap g mid
  exact .once_some (ihl (stops_cons (by simp [strength, BinaryOp.precedence?])) depth c hc hdepth) rfl
    (hr.advances.head_ne rfl) fun d hd => ihr (hrest.mono (by omega)) depth d hd (by grind)

theorem power [Text.CharNames] (hl : Derives (.layer 11) ts l (.op (.arith .pow) :: gap g mid))
    (hr : Derives (.layer 9) mid r rest)
    (ihl : Complete (.layer 11) ts l (.op (.arith .pow) :: gap g mid)) (ihr : Complete (.layer 9) mid r rest) :
    Complete (.layer 10) ts (.binary .blank (.arith .pow) l r) rest := by
  intro hrest depth c hc hdepth fuel hfuel
  have hlength := hl.advances.length_lt
  have hlength' := length_le_gap g mid
  refine .once_some (ihl (stops_cons (by simp [strength, BinaryOp.precedence?])) depth c hc hdepth) rfl
    (hr.advances.head_ne rfl) fun d hd => ihr hrest.signed depth d hd (by grind) fuel (by grind)

theorem negated [Text.CharNames] (ih : Complete (.layer 3) ts x rest) :
    Complete (.layer 3) (.not :: ts) (.unary .blank .not x) rest := by
  intro hrest depth c hc hdepth fuel hfuel
  obtain ⟨fuel, rfl⟩ : ∃ n, fuel = n + 1 := ⟨fuel - 1, by omega⟩
  exact .leading_some hc rfl fun d hd => ih hrest depth d hd (by grind) fuel (by grind)

theorem signed [Text.CharNames] (hl : signOp l = some o) (ih : Complete (.layer 9) ts x rest) :
    Complete (.layer 9) (l :: ts) (.unary .blank o x) rest := by
  intro hrest depth c hc hdepth fuel hfuel
  obtain ⟨fuel, rfl⟩ : ∃ n, fuel = n + 1 := ⟨fuel - 1, by omega⟩
  exact .leading_some hc hl fun d hd => ih hrest depth d hd (by grind) fuel (by grind)

theorem stop [Text.CharNames] : Complete (.tail k l) ts l ts := by
  intro hrest depth fuel c y hy hc _ _
  unfold tailOf
  cases fuel with
  | zero => split <;> exact .pure hc hy
  | succ fuel =>
    split
    · next hk =>
      subst hk
      refine .peek ?_
      rw [hc]
      split
      case h_5 => exact .pure hc hy
      all_goals
        next h =>
          have := hrest _ h
          simp [strength] at this
    · refine .bind (.select_none hc fun l hl => hrest.operatorAt hl) fun r d hr hd => ?_
      rw [hr]
      exact .pure hd hy

theorem operator [Text.CharNames] (ho : o.precedence? = some k) (hr : Derives (.layer (k + 1)) ts r mid)
    (hx : Derives (.tail k (.binary .blank o l r)) mid x rest) (ihr : Complete (.layer (k + 1)) ts r mid)
    (ihx : Complete (.tail k (.binary .blank o l r)) mid x rest) :
    Complete (.tail k l) (.op o :: gap g ts) x rest := by
  intro hrest depth fuel c y hy hc hdepth hfuel
  obtain ⟨fuel, rfl⟩ : ∃ n, fuel = n + 1 := ⟨fuel - 1, by grind⟩
  have hk : k ≠ 11 ∧ k ≠ 9 := by
    cases o with
    | arith a => cases a <;> cases ho <;> decide
    | _ => cases ho <;> decide
  have hlength := hr.advances.length_lt
  have hlength' := length_le_gap g ts
  unfold tailOf
  rw [if_neg hk.1]
  refine .bind (.select_some hc (operatorAt_eq_some.2 ⟨rfl, ho⟩)) fun s d hs hd => ?_
  obtain ⟨t, rfl⟩ := hs
  refine .bind (.skipBreak hd (hr.advances.head_ne rfl)) fun _ d _ hd => ?_
  refine .bind ((ihr (hx.stops_tail hrest) depth d hd (by grind)).plain (by omega)) fun z d hz hd => ?_
  refine .bind (.binary hd) fun w d hw hd => ?_
  have htail := ihx hrest depth fuel d w (by rw [hw, hy, hz]) hd (by grind) (by grind)
  rwa [tailOf, if_neg hk.1] at htail

/-! Calls, indexing and member access. -/

theorem call [Text.CharNames] (hargs : Derives (.enclosed .argument) ts args mid)
    (ihargs : Complete (.enclosed .argument) ts args mid)
    (ihx : Complete (.tail 11 (called l args .blank)) mid x rest) :
    Complete (.tail 11 l) (.openParen :: ts) x rest := by
  intro hrest depth fuel c y hy hc hdepth hfuel
  obtain ⟨fuel, rfl⟩ : ∃ n, fuel = n + 1 := ⟨fuel - 1, by grind⟩
  have hlength := hargs.suffix.length_le
  change Reads (postfixed _ _ _) c _ _
  refine .peek ?_
  rw [hc]
  refine .bind (.take hc) fun _ d _ hd => .bind (ihargs depth d hd (by grind)) fun r d hr hd => .span ?_
  refine ihx hrest depth fuel d _ ?_ hd (by grind) (by grind)
  rw [called_bare, hy, bareArguments_eq_map]
  exact congrArg (called l · .blank) hr

/-- What stands between the brackets of an index, one pair or two. -/
theorem reads_indices [Text.CharNames] (ih : Complete (.list .index) ts xs (gap g (l :: mid))) (hl : closesList l)
    (hclose : ∀ d : Cursor, d.lexemes = l :: mid → Reads close d rest fun _ => True)
    (hc : c.lexemes = ts) (hdepth : ts.length < depth) :
    Reads (listed (expression depth false) close) c rest fun r => bareNodes (r.1.map (·.node)) = xs := by
  refine .remaining ?_
  refine (ih _ _ _ _ _ rfl hl hclose depth _ c hc hdepth (by grind)).mono fun r hr => ?_
  rw [bareNodes_eq_map, List.map_map]
  exact hr

theorem brackets [Text.CharNames] (hxs : Derives (.list .index) ts xs (gap g₂ (.closeBracket p :: mid)))
    (ihxs : Complete (.list .index) ts xs (gap g₂ (.closeBracket p :: mid)))
    (ihx : Complete (.tail 11 (.index .blank l xs false)) mid x rest) :
    Complete (.tail 11 l) (.openBracket :: gap g ts) x rest := by
  intro hrest depth fuel c y hy hc hdepth hfuel
  obtain ⟨fuel, rfl⟩ : ∃ n, fuel = n + 1 := ⟨fuel - 1, by grind⟩
  have hlength := hxs.suffix.length_le
  have hlength' := length_le_gap g ts
  have hlength'' := length_le_gap g₂ (.closeBracket p :: mid)
  change Reads (postfixed _ _ _) c _ _
  refine .peek ?_
  rw [hc]
  refine .bind (.take hc) fun _ d _ hd => .bind (.skipBreak hd (hxs.advances.head_ne rfl)) fun _ d _ hd => ?_
  refine .bind (reads_indices ihxs rfl (fun _ => .closeBracket) hd (by grind)) fun r d hr hd => .span ?_
  exact ihx hrest depth fuel d _ (by rw [Node.bare, hy, hr]) hd (by grind) (by grind)

theorem doubleBrackets [Text.CharNames]
    (hxs : Derives (.list .index) ts xs (gap g₂ (.closeBracket true :: .closeBracket p :: mid)))
    (ihxs : Complete (.list .index) ts xs (gap g₂ (.closeBracket true :: .closeBracket p :: mid)))
    (ihx : Complete (.tail 11 (.index .blank l xs true)) mid x rest) :
    Complete (.tail 11 l) (.openDouble :: gap g ts) x rest := by
  intro hrest depth fuel c y hy hc hdepth hfuel
  obtain ⟨fuel, rfl⟩ : ∃ n, fuel = n + 1 := ⟨fuel - 1, by grind⟩
  have hlength := hxs.suffix.length_le
  have hlength' := length_le_gap g ts
  have hlength'' := length_le_gap g₂ (.closeBracket true :: .closeBracket p :: mid)
  change Reads (postfixed _ _ _) c _ _
  refine .peek ?_
  rw [hc]
  refine .bind (.take hc) fun _ d _ hd => .bind (.skipBreak hd (hxs.advances.head_ne rfl)) fun _ d _ hd => ?_
  refine .bind (reads_indices ihxs rfl (fun _ => .closeDouble) hd (by grind)) fun r d hr hd => .span ?_
  exact ihx hrest depth fuel d _ (by rw [Node.bare, hy, hr]) hd (by grind) (by grind)

theorem member [Text.CharNames] (hm : m.name? = some text)
    (ih : Complete (.tail 11 (.member .blank l text)) ts x rest) :
    Complete (.tail 11 l) (.dollar :: m :: ts) x rest := by
  intro hrest depth fuel c y hy hc hdepth hfuel
  obtain ⟨fuel, rfl⟩ : ∃ n, fuel = n + 1 := ⟨fuel - 1, by grind⟩
  change Reads (postfixed _ _ _) c _ _
  refine .peek ?_
  rw [hc]
  refine .bind (.take hc) fun _ d _ hd => .bind (.name hd hm) fun r d hr hd => .span ?_
  refine ih hrest depth fuel d _ ?_ hd (by grind) (by grind)
  rw [Node.bare, hy, hr]

/-! Openings. -/

theorem reads_condition [Text.CharNames] (hx : Derives (.expression false) ts x (gap g₂ (.closeParen :: gap g₃ rest)))
    (ih : Complete (.expression false) ts x (gap g₂ (.closeParen :: gap g₃ rest)))
    (hrest : rest.head? ≠ some .newline) (hc : c.lexemes = .openParen :: gap g ts)
    (hdepth : ts.length < depth) : Reads (condition (expression depth)) c rest (·.bare = x) := by
  refine .bind (.expect hc) fun _ d _ hd => .bind (.skipBreak hd (hx.advances.head_ne rfl)) fun _ d _ hd => ?_
  refine .bind (ih (follows_gap rfl nofun nofun) depth d hd hdepth) fun y d hy hd => ?_
  refine .bind (.skipBreak hd nofun) fun _ d _ hd => .bind (.expect hd) fun _ d _ hd => ?_
  exact .bind (.skipBreak hd hrest) fun _ d _ hd => .pure hd hy

theorem reads_header [Text.CharNames] (hk : header self k = some m) (hc : c.lexemes = .keyword k :: ts)
    (hm : ∀ d : Cursor, d.lexemes = ts → Reads m d rest (·.bare = o)) :
    Reads (link self) c rest fun r => ∃ start o', r = .inl (start, o') ∧ o'.bare = o := by
  refine .peek ?_
  rw [hc]
  have hread : Reads (α := Position × Opening ⊕ Part) (do
      let t ← take
      return .inl (t.start, ← m)) c rest fun r => ∃ start o', r = .inl (start, o') ∧ o'.bare = o :=
    .bind (.take hc) fun t d _ hd => .bind (hm d hd) fun o' d ho hd => .pure hd ⟨t.start, o', rfl, ho⟩
  cases k with
  | ifWord | whileWord | repeatWord | forWord | functionWord =>
    cases hk
    exact hread
  | _ => cases hk

theorem cond [Text.CharNames] (hx : Derives (.expression false) ts x (gap g₂ (.closeParen :: gap g₃ rest)))
    (ih : Complete (.expression false) ts x (gap g₂ (.closeParen :: gap g₃ rest))) :
    Complete .opening (.keyword .ifWord :: .openParen :: gap g ts) (.cond x) rest := by
  intro hrest depth c hc hdepth
  have hlength := length_le_gap g ts
  refine reads_header rfl hc fun d hd => ?_
  exact .bind (reads_condition hx ih hrest hd (by grind)) fun y d hy hd => .pure hd (by rw [Opening.bare, hy])

theorem whileLoop [Text.CharNames] (hx : Derives (.expression false) ts x (gap g₂ (.closeParen :: gap g₃ rest)))
    (ih : Complete (.expression false) ts x (gap g₂ (.closeParen :: gap g₃ rest))) :
    Complete .opening (.keyword .whileWord :: .openParen :: gap g ts) (.whileLoop x) rest := by
  intro hrest depth c hc hdepth
  have hlength := length_le_gap g ts
  refine reads_header rfl hc fun d hd => ?_
  exact .bind (reads_condition hx ih hrest hd (by grind)) fun y d hy hd => .pure hd (by rw [Opening.bare, hy])

theorem repeatLoop [Text.CharNames] : Complete .opening (.keyword .repeatWord :: gap g rest) .repeatLoop rest := by
  intro hrest depth c hc _
  exact reads_header rfl hc fun d hd => .bind (.skipBreak hd hrest) fun _ d _ hd => .pure hd rfl

theorem forLoop [Text.CharNames] (hl : l.name? = some text)
    (ih : Complete (.expression false) ts x (gap g₂ (.closeParen :: gap g₃ rest))) :
    Complete .opening (.keyword .forWord :: .openParen :: gap g (l :: .keyword .inWord :: ts))
      (.forLoop ⟨.blank, text⟩ x) rest := by
  intro hrest depth c hc hdepth
  have hlength := length_le_gap g (l :: .keyword .inWord :: ts)
  have hnewline : l ≠ .newline := by
    rintro rfl
    cases hl
  refine reads_header rfl hc fun d hd => ?_
  refine .bind (.expect hd) fun _ d _ hd => .bind (.skipBreak hd (by simpa using hnewline)) fun _ d _ hd => ?_
  refine .bind (.name hd hl) fun s d hs hd => .bind (.expect hd) fun _ d _ hd => ?_
  refine .bind (ih (follows_gap rfl nofun nofun) depth d hd (by grind)) fun y d hy hd => ?_
  refine .bind (.skipBreak hd nofun) fun _ d _ hd => .bind (.expect hd) fun _ d _ hd => ?_
  refine .bind (.skipBreak hd hrest) fun _ d _ hd => .span (.pure hd ?_)
  rw [Opening.bare, hy, hs]

theorem function [Text.CharNames] (ih : Complete (.enclosed .parameter) ts ps (gap g rest)) :
    Complete .opening (.keyword .functionWord :: .openParen :: ts) (.function ps) rest := by
  intro hrest depth c hc hdepth
  refine reads_header rfl hc fun d hd => ?_
  refine .bind (.expect hd) fun _ d _ hd => .bind (ih depth d hd (by grind)) fun r d hr hd => ?_
  refine .bind (.skipBreak hd hrest) fun _ d _ hd => .pure hd ?_
  rw [Opening.bare, bareParameters_eq_map]
  exact congrArg Opening.function hr

/-- What begins with an operand is no control expression. -/
theorem startsControl_of_begins (h : begins 1 l) : startsControl (some l) = false := by
  cases l with
  | keyword k => cases k <;> first | rfl | cases h
  | _ => rfl

theorem reads_link [Text.CharNames] (hx : Derives (.layer 1) ts x mid) (hc : c.lexemes = ts)
    (h : Reads (do
      let x ← disjunction self
      match ← select assignOp with
      | some (op, _) =>
        skipBreak
        return .inl (x.start, .assign op x.node)
      | none => return .inr x) c rest Q) : Reads (link self) c rest Q := by
  obtain ⟨l, r, rfl, hl, -⟩ := hx.advances
  refine .peek ?_
  rw [hc]
  cases l with
  | keyword k => cases k <;> first | exact h | cases hl
  | _ => exact h

theorem assign [Text.CharNames] (hx : Derives (.layer 1) ts x (.assign op :: gap g rest))
    (ih : Complete (.layer 1) ts x (.assign op :: gap g rest)) :
    Complete .opening ts (.assign op x) rest := by
  intro hrest depth c hc hdepth
  refine reads_link hx hc ?_
  refine .bind ((ih (stops_cons (by simp [strength])) depth c hc hdepth).plain (by omega)) fun y d hy hd => ?_
  refine .bind (.select_some hd rfl) fun r d hr hd => ?_
  obtain ⟨t, rfl⟩ := hr
  refine .bind (.skipBreak hd hrest) fun _ d _ hd => .pure hd ⟨y.start, _, rfl, ?_⟩
  rw [Opening.bare, hy]

/-! Chains. -/

theorem leaf [Text.CharNames] (hx : Derives (.layer 1) ts x rest) (ih : Complete (.layer 1) ts x rest) :
    Complete .run ts (ending x) rest := by
  intro hrest depth fuel c os hc hdepth hfuel
  have hlength := hx.advances.length_lt
  obtain ⟨fuel, rfl⟩ : ∃ n, fuel = n + 1 := ⟨fuel - 1, by omega⟩
  have hassign (l : Lexeme) (hl : rest.head? = some l) : assignOp l = none := by
    have hends := hrest l hl
    cases l <;> first | rfl | cases hends
  have hlink : Reads (link (expression depth)) c rest fun r => ∃ y : Part, r = .inr y ∧ y.node.bare = x := by
    refine reads_link hx hc ?_
    refine .bind ((ih hrest.stops depth c hc hdepth).plain (by omega)) fun y d hy hd => ?_
    refine .bind (.select_none hd hassign) fun r d hr hd => ?_
    rw [hr]
    exact .pure hd ⟨y, rfl, hy⟩
  refine .bind hlink fun r d hr hd => ?_
  obtain ⟨y, rfl, hy⟩ := hr
  refine .pure hd ⟨⟨[], y⟩, by simp, ?_⟩
  simp [Run.bare, Part.bare, ending, hy]

theorem leave [Text.CharNames] (hk : leaves? k = some j) :
    Complete .run (.keyword k :: ts) (ending (.jump .blank j none)) ts := by
  intro hrest depth fuel c os hc hdepth hfuel
  obtain ⟨fuel, rfl⟩ : ∃ n, fuel = n + 1 := ⟨fuel - 1, by grind⟩
  have hlink : Reads (link (expression depth)) c ts fun r =>
      ∃ y : Part, r = .inr y ∧ y.node.bare = .jump .blank j none := by
    refine .peek ?_
    rw [hc]
    cases k with
    | breakWord | nextWord =>
      cases hk
      exact .bind (.take hc) fun t d _ hd => .bind (.leafOf hd fun _ => rfl) fun y d hy hd =>
        .pure hd ⟨y, rfl, hy⟩
    | _ => cases hk
  refine .bind hlink fun r d hr hd => ?_
  obtain ⟨y, rfl, hy⟩ := hr
  refine .pure hd ⟨⟨[], y⟩, by simp, ?_⟩
  simp [Run.bare, Part.bare, ending, hy]

theorem opened [Text.CharNames] (ho : Derives .opening ts o mid) (hr : Derives .run mid r rest)
    (iho : Complete .opening ts o mid) (ihr : Complete .run mid r rest) :
    Complete .run ts (after o r) rest := by
  intro hrest depth fuel c os hc hdepth hfuel
  have hlength := ho.advances.length_lt
  obtain ⟨fuel, rfl⟩ : ∃ n, fuel = n + 1 := ⟨fuel - 1, by omega⟩
  refine .bind (iho (hr.advances.head_ne rfl) depth c hc hdepth) fun l d hl hd => ?_
  obtain ⟨start, o', rfl, rfl⟩ := hl
  refine (ihr hrest depth fuel d _ hd (by omega) (by omega)).mono fun r' hr' => ?_
  obtain ⟨more, rfl, rfl⟩ := hr'
  exact ⟨more.opened start o', by simp [Run.opened], rfl⟩

theorem noElse [Text.CharNames] : Complete (.alternatives k) ts [] ts := by
  intro hrest depth fuel c hc _ _
  cases fuel with
  | zero => exact .pure hc rfl
  | succ fuel =>
    cases k with
    | zero => exact .pure hc rfl
    | succ k =>
      refine .get ?_
      rw [elseNext_eq_none hc hrest.2]
      exact .pure hc rfl

theorem orElse [Text.CharNames] (hr : Derives .run ts r mid) (has : Derives (.alternatives (k + r.conds)) mid as rest)
    (ihr : Complete .run ts r mid) (ihas : Complete (.alternatives (k + r.conds)) mid as rest) :
    Complete (.alternatives (k + 1)) (gap g (.keyword .elseWord :: gap g₂ ts)) (⟨g, g₂, r⟩ :: as) rest := by
  intro hrest depth fuel c hc hdepth hfuel
  have hlength := hr.advances.length_lt
  have hlength' := length_le_gap g (.keyword .elseWord :: gap g₂ ts)
  have hlength'' := length_le_gap g₂ ts
  obtain ⟨fuel, rfl⟩ : ∃ n, fuel = n + 1 := ⟨fuel - 1, by grind⟩
  refine .get ?_
  rw [elseNext_eq hc]
  refine .bind (.skipBreak hc nofun) fun _ d _ hd => .bind (.take hd) fun _ d _ hd => ?_
  have hafter : Reads (accept .newline) d ts (· = g₂) := by
    cases g₂ with
    | true => exact .accept_true hd
    | false => exact .accept_false hd (hr.advances.head_ne rfl)
  refine .bind hafter fun b d hb hd => .remaining ?_
  refine .bind (ihr (has.ended_alternatives hrest) depth _ d [] hd (by grind) (by grind)) fun r' d hr' hd => ?_
  obtain ⟨more, rfl, rfl⟩ := hr'
  rw [Run.conds_bare] at ihas
  refine .bind (ihas hrest depth fuel d hd (by grind) (by grind)) fun as' d has' hd => .pure hd ?_
  rw [List.map_cons, has', hb]
  rfl

/-- A chain is read once its openings and its first run are. -/
theorem reads_chain [Text.CharNames] (hr : Derives .run ts r mid) (has : Derives (.alternatives k) mid as rest)
    (ihr : Complete .run ts r mid) (ihas : Complete (.alternatives k) mid as rest) (hrest : Follows rest)
    (hk : os.countP (·.2.isCond) + r.conds = k) (hc : c.lexemes = ts) (hdepth : ts.length ≤ depth) :
    Reads (chain (expression depth) os) c rest fun x => ∃ more : Run, more.bare = r ∧
      x.node.bare = built (Run.bare ⟨os ++ more.openings, more.leaf⟩) as := by
  have hlength := hr.advances.length_lt
  refine .remaining ?_
  refine .bind (ihr (has.ended_alternatives hrest) depth _ c os hc hdepth (by grind)) fun r' d hr' hd => ?_
  obtain ⟨more, rfl, rfl⟩ := hr'
  have hk : Run.conds ⟨os ++ more.openings, more.leaf⟩ = k := by
    rw [Run.conds_bare] at hk
    rw [← hk, Run.conds, List.countP_append, Run.conds]
  refine .remaining ?_
  rw [hk]
  refine .bind (ihas hrest depth _ d hd (by omega) (by grind)) fun as' d has' hd => .get (.pure hd ?_)
  refine ⟨more, rfl, ?_⟩
  rw [← has', built, Chain.build_bare]

/-! Expressions and statements. -/

theorem operation [Text.CharNames] (hx : Derives (.layer 1) ts x rest) (ih : Complete (.layer 1) ts x rest) :
    Complete (.expression b) ts x rest := by
  intro hrest depth c hc hdepth
  obtain ⟨depth, rfl⟩ : ∃ n, depth = n + 1 := ⟨depth - 1, by omega⟩
  obtain ⟨l, r, rfl, hl, -⟩ := hx.advances
  refine .peek ?_
  rw [hc, List.head?_cons, startsControl_of_begins hl]
  refine .bind ((ih hrest.1.stops depth c hc (by omega)).plain (by omega)) fun y d hy hd => .peek ?_
  rw [hd]
  split
  · next h => cases hrest.1 _ h
  · next h => cases hrest.1 _ h
  · exact .pure hd hy

theorem control [Text.CharNames] (hts : startsControl ts.head?) (hr : Derives .run ts r mid)
    (has : Derives (.alternatives r.conds) mid as rest) (ihr : Complete .run ts r mid)
    (ihas : Complete (.alternatives r.conds) mid as rest) : Complete (.expression b) ts (built r as) rest := by
  intro hrest depth c hc hdepth
  obtain ⟨depth, rfl⟩ : ∃ n, depth = n + 1 := ⟨depth - 1, by omega⟩
  refine .peek ?_
  rw [hc, hts]
  refine (reads_chain hr has ihr ihas hrest (by simp) hc (by omega)).mono fun x hx => ?_
  obtain ⟨more, rfl, hx⟩ := hx
  exact hx

theorem assigned [Text.CharNames] (ht : Derives (.layer 1) ts t (.assign op :: gap g mid))
    (hr : Derives .run mid r mid₂) (has : Derives (.alternatives r.conds) mid₂ as rest)
    (iht : Complete (.layer 1) ts t (.assign op :: gap g mid)) (ihr : Complete .run mid r mid₂)
    (ihas : Complete (.alternatives r.conds) mid₂ as rest) :
    Complete (.expression b) ts (built (after (.assign op t) r) as) rest := by
  intro hrest depth c hc hdepth
  obtain ⟨depth, rfl⟩ : ∃ n, depth = n + 1 := ⟨depth - 1, by omega⟩
  have hlength := ht.advances.length_lt
  have hlength' := length_le_gap g mid
  obtain ⟨l, r, rfl, hl, -⟩ := ht.advances
  refine .peek ?_
  rw [hc, List.head?_cons, startsControl_of_begins hl]
  refine .bind ((iht (stops_cons (by simp [strength])) depth c hc (by omega)).plain (by omega))
    fun y d hy hd => .peek ?_
  rw [hd]
  refine .bind (.take hd) fun _ d _ hd => .bind (.skipBreak hd (hr.advances.head_ne rfl)) fun _ d _ hd => ?_
  refine (reads_chain hr has ihr ihas hrest (by simp [Opening.isCond]) hd (by grind)).mono fun x hx => ?_
  obtain ⟨more, rfl, hx⟩ := hx
  rw [hx, ← hy]
  rfl

theorem equals [Text.CharNames] (ht : Derives (.layer 1) ts t (.equals :: gap g mid))
    (hv : Derives (.expression false) mid v rest)
    (iht : Complete (.layer 1) ts t (.equals :: gap g mid)) (ihv : Complete (.expression false) mid v rest) :
    Complete (.expression true) ts (.assign .blank .equals t v) rest := by
  intro hrest depth c hc hdepth
  obtain ⟨depth, rfl⟩ : ∃ n, depth = n + 1 := ⟨depth - 1, by omega⟩
  have hlength := ht.advances.length_lt
  have hlength' := length_le_gap g mid
  obtain ⟨l, r, rfl, hl, -⟩ := ht.advances
  refine .peek ?_
  rw [hc, List.head?_cons, startsControl_of_begins hl]
  refine .bind ((iht (stops_cons (by simp [strength])) depth c hc (by omega)).plain (by omega))
    fun y d hy hd => .peek ?_
  rw [hd]
  refine .bind (.take hd) fun _ d _ hd => .bind (.skipBreak hd (hv.advances.head_ne rfl)) fun _ d _ hd => ?_
  refine .bind (ihv hrest depth d hd (by grind)) fun w d hw hd => .span (.pure hd ?_)
  rw [Node.bare, hy, hw]

theorem done [Text.CharNames] : Complete .statements ts [] ts := by
  intro hrest depth fuel c hc _ _
  cases fuel with
  | zero => exact .pure hc rfl
  | succ fuel =>
    refine .bind (.skipSeparators hc fun l hl => by rw [hrest l hl]; rfl)
      fun _ d _ hd => .peek ?_
    rw [hd]
    split
    · exact .pure hd rfl
    · exact .pure hd rfl
    · next l hne hl => exact absurd (hrest l hl) hne

theorem separator [Text.CharNames] (hl : separates l) (ih : Complete .statements ts ss rest) :
    Complete .statements (l :: ts) ss rest := by
  intro hrest depth fuel c hc hdepth hfuel
  obtain ⟨fuel, rfl⟩ : ∃ n, fuel = n + 1 := ⟨fuel - 1, by grind⟩
  obtain ⟨_ | ⟨t, tokens⟩, misread, file⟩ := c
  · cases hc
  · obtain ⟨rfl, rfl⟩ := List.cons.inj hc
    have ht : isSeparator t := by cases h : t.lexeme <;> simp_all [separates, isSeparator]
    have hskip : skipSeparators ⟨t :: tokens, misread, file⟩ = skipSeparators ⟨tokens, misread, file⟩ :=
      congrArg (fun r => Except.ok ((), (⟨r, misread, file⟩ : Cursor))) (List.dropWhile_cons_of_pos ht)
    exact (ih hrest depth (fuel + 1) ⟨tokens, misread, file⟩ rfl (by grind) (by grind)).of_skip hskip rfl

theorem begins_of_separates (hl : separates l) : begins 0 l = false := by
  cases l <;> first | rfl | cases hl

theorem head_ne_else [Text.CharNames] (h : Derives .statements ts ss rest)
    (hrest : ∀ l, rest.head? = some l → l = .closeBrace) : ts.head? ≠ some (.keyword .elseWord) := by
  cases h with
  | done => exact fun h => nomatch hrest _ h
  | separator hl => exact fun h => by cases h; cases hl
  | last hs | next hs => exact hs.advances.head_ne rfl

/-- No `else` stands behind the mark that ends a statement. -/
theorem follows_separator [Text.CharNames] (hl : separates l) (h : Derives .statements (l :: ts) ss rest)
    (hrest : ∀ l, rest.head? = some l → l = .closeBrace) : Follows (l :: ts) := by
  have hts : ts.head? ≠ some (.keyword .elseWord) := by
    cases h with
    | done => cases hrest _ rfl; cases hl
    | separator _ hss => exact head_ne_else hss hrest
    | last hs | next hs => exact absurd rfl (hs.advances.head_ne (begins_of_separates hl))
  refine ⟨ended_cons (by cases l <;> first | rfl | cases hl), ?_⟩
  cases ts with
  | nil => cases l <;> first | rfl | cases hl
  | cons m ts =>
    cases l with
    | newline => simp_all [elseAhead]
    | semicolon => rfl
    | _ => cases hl

/-- The first statement of a sequence is read before what follows it is looked at. -/
theorem reads_statement [Text.CharNames] (hs : Derives (.expression true) ts s rest)
    (ih : Complete (.expression true) ts s rest)
    (hrest : Follows rest) (hc : c.lexemes = ts) (hdepth : ts.length < depth)
    (hnext : ∀ (x : Part) (d : Cursor), x.node.bare = s → d.lexemes = rest → Reads (do
      match ← peek with
      | some .newline | some .semicolon => return x.node :: (← sequence (expression depth true) fuel)
      | _ => return [x.node]) d rest' Q) :
    Reads (sequence (expression depth true) (fuel + 1)) c rest' Q := by
  obtain ⟨m, r, rfl, hm, -⟩ := hs.advances
  have hseparates : separates m = false := by
    cases h : separates m with
    | false => rfl
    | true => rw [begins_of_separates h] at hm; cases hm
  refine .bind (.skipSeparators hc ?_) fun _ d _ hd => .peek ?_
  · rintro l ⟨⟩
    rw [hseparates]
    rfl
  · rw [hd]
    split
    · next h => cases h
    · next h => cases h; cases hm
    · exact .bind (ih hrest depth d hd hdepth) fun x d hx hd => hnext x d hx hd

theorem last [Text.CharNames] (hs : Derives (.expression true) ts s rest) (ih : Complete (.expression true) ts s rest) :
    Complete .statements ts [s] rest := by
  intro hrest depth fuel c hc hdepth hfuel
  have hlength := hs.advances.length_lt
  obtain ⟨fuel, rfl⟩ : ∃ n, fuel = n + 1 := ⟨fuel - 1, by omega⟩
  have hfollows : Follows rest := by
    match rest with
    | [] => exact ⟨nofun, rfl⟩
    | l :: r => cases hrest l rfl; exact ⟨ended_cons rfl, rfl⟩
  refine reads_statement hs ih hfollows hc hdepth fun x d hx hd => .peek ?_
  rw [hd]
  split
  · next h => cases hrest _ h
  · next h => cases hrest _ h
  · exact .pure hd (by rw [bareNodes, hx, bareNodes])

theorem next [Text.CharNames] (hs : Derives (.expression true) ts s (l :: mid)) (hl : separates l)
    (hss : Derives .statements (l :: mid) ss rest) (ihs : Complete (.expression true) ts s (l :: mid))
    (ihss : Complete .statements (l :: mid) ss rest) : Complete .statements ts (s :: ss) rest := by
  intro hrest depth fuel c hc hdepth hfuel
  have hlength := hs.advances.length_lt
  obtain ⟨fuel, rfl⟩ : ∃ n, fuel = n + 1 := ⟨fuel - 1, by omega⟩
  refine reads_statement hs ihs (follows_separator hl hss hrest) hc hdepth fun x d hx hd => .peek ?_
  rw [hd]
  have hread : Reads (do return x.node :: (← sequence (expression depth true) fuel)) d rest
      (bareNodes · = s :: ss) :=
    .bind (ihss hrest depth fuel d hd (by omega) (by omega)) fun xs d hxs hd =>
      .pure hd (by rw [bareNodes, hx, hxs])
  cases l with
  | newline | semicolon => exact hread
  | _ => cases hl

end Complete

theorem Derives.complete [Text.CharNames] (h : Derives p ts v rest) : Complete p ts v rest := by
  induction h with
  | done => exact .done
  | separator hl hss ih => exact .separator hl ih
  | last hs ih => exact .last hs ih
  | next hs hl hss ihs ihss => exact .next hs hl hss ihs ihss
  | operation hx ih => exact .operation hx ih
  | control hts hr has ihr ihas => exact .control hts hr has ihr ihas
  | assigned ht hr has iht ihr ihas => exact .assigned ht hr has iht ihr ihas
  | equals ht hv iht ihv => exact .equals ht hv iht ihv
  | leaf hx ih => exact .leaf hx ih
  | leave hk => exact .leave hk
  | opened ho hr iho ihr => exact .opened ho hr iho ihr
  | noElse => exact .noElse
  | orElse hr has ihr ihas => exact .orElse hr has ihr ihas
  | cond hc ih => exact .cond hc ih
  | whileLoop hc ih => exact .whileLoop hc ih
  | repeatLoop => exact .repeatLoop
  | forLoop hl hx ih => exact .forLoop hl ih
  | function hps ih => exact .function ih
  | assign ht ih => exact .assign ht ih
  | positional hx ih => exact .positional hx ih
  | named hl hx ih => exact .named hl hx ih
  | plain hl => exact .plain hl
  | defaulted hl hx ih => exact .defaulted hl hx ih
  | index hx ih => exact ih
  | single hx ih => exact .single hx ih
  | comma hx hxs ihx ihxs => exact .comma hx hxs ihx ihxs
  | empty => exact .empty
  | filled hxs ih => exact .filled hxs ih
  | tighter hk hx ih => exact .tighter hk hx ih
  | grouped hk hl hx ihl ihx => exact .grouped hk hl hx ihl ihx
  | related hl hr ihl ihr => exact .related hl hr ihl ihr
  | power hl hr ihl ihr => exact .power hl hr ihl ihr
  | negated hx ih => exact .negated ih
  | signed hl hx ih => exact .signed hl ih
  | stop => exact .stop
  | operator ho hr hx ihr ihx => exact .operator ho hr hx ihr ihx
  | call hargs hx ihargs ihx => exact .call hargs ihargs ihx
  | brackets hxs hx ihxs ihx => exact .brackets hxs ihxs ihx
  | doubleBrackets hxs hx ihxs ihx => exact .doubleBrackets hxs ihxs ihx
  | member hm hx ih => exact .member hm ih
  | number hs => exact .number hs
  | string hs => exact .string hs
  | constant hk => exact .constant hk
  | name => exact .name
  | paren hx ih => exact .paren hx ih
  | block hss ih => exact .block ih

/-- A script that the grammar derives is read, and none of its literals is misread. -/
theorem read_of_derives [Text.CharNames] (file : String) {tokens : List Token}
    (h : Derives .statements (tokens.map (·.lexeme)) ss []) :
    ∃ ss' d, read file tokens = .ok (ss', d) ∧ bareNodes ss' = ss ∧ d.misread = none := by
  have hread : Reads script ⟨tokens, none, file⟩ [] (bareNodes · = ss) := by
    refine .remaining ?_
    refine .bind (h.complete nofun _ _ _ rfl (Nat.lt_succ_self _) (Nat.le_succ _)) fun ss' d hss' hd => ?_
    refine .remaining ?_
    rw [hd]
    exact .pure hd hss'
  obtain ⟨ss', d, hread, hss', -, hmisread⟩ := hread
  exact ⟨ss', d, hread, hss', hmisread⟩

end Grammar

/-- A text is a script exactly if it passes the screen and the grammar derives its lexemes. -/
theorem Program.parse_iff_derives [Text.CharNames] {source file : String} {ss : List Node} :
    (∃ p, parse source file = .ok p ∧ bareNodes p.body = ss) ↔
      Screen.find source.toList = none ∧ Grammar.Derives .statements (lexemes source.toList) ss [] := by
  constructor
  · rintro ⟨p, hp, rfl⟩
    refine ⟨?_, derives_of_parse hp⟩
    cases hfind : Screen.find source.toList with
    | none => rfl
    | some found => simp [parse, Screen.check, hfind] at hp
  · rintro ⟨hfind, hderives⟩
    obtain ⟨body, d, hread, hbody, hmisread⟩ := Grammar.read_of_derives file hderives
    refine ⟨⟨extent file (Token.cut source.toList), file, body⟩, ?_, hbody⟩
    simp only [parse, Screen.check, hfind, ofTokens, hread, hmisread]

theorem Program.isOk_parse_iff [Text.CharNames] {source file : String} : (parse source file).isOk ↔
    Screen.find source.toList = none ∧ ∃ ss, Grammar.Derives .statements (lexemes source.toList) ss [] := by
  constructor
  · intro h
    cases hp : parse source file with
    | error e => rw [hp] at h; cases h
    | ok p =>
      obtain ⟨hfind, hderives⟩ := parse_iff_derives.1 ⟨p, hp, rfl⟩
      exact ⟨hfind, _, hderives⟩
  · rintro ⟨hfind, ss, hderives⟩
    obtain ⟨p, hp, -⟩ : ∃ p, parse source file = .ok p ∧ _ := parse_iff_derives.2 ⟨hfind, hderives⟩
    rw [hp]
    rfl

/-- The grammar derives one list of statements for a script. -/
theorem Program.eq_of_derives [Text.CharNames] {source file : String} {p : Program} (h : parse source file = .ok p)
    (hss : Grammar.Derives .statements (lexemes source.toList) ss []) : ss = bareNodes p.body := by
  obtain ⟨hfind, -⟩ := parse_iff_derives.1 ⟨p, h, rfl⟩
  obtain ⟨q, hq, rfl⟩ : ∃ q, parse source file = .ok q ∧ _ := parse_iff_derives.2 ⟨hfind, hss⟩
  cases h.symm.trans hq
  rfl

theorem Program.file_of_parse [Text.CharNames] {source file : String} {p : Program} (h : parse source file = .ok p) :
    p.file = file := by
  unfold parse ofTokens at h
  repeat' split at h
  all_goals cases h
  rfl

/-- What a text is read as, up to places. -/
theorem Program.parse_bare_iff [Text.CharNames] {source file : String} {q : Program} :
    (parse source file).toOption.map bare = some q ↔ Screen.find source.toList = none ∧
      ∃ ss, Grammar.Derives .statements (lexemes source.toList) ss [] ∧ q = ⟨.blank, file, ss⟩ := by
  constructor
  · intro h
    cases hp : parse source file with
    | error e => simp [hp, Except.toOption] at h
    | ok p =>
      obtain ⟨hfind, hderives⟩ := parse_iff_derives.1 ⟨p, hp, rfl⟩
      refine ⟨hfind, _, hderives, ?_⟩
      rw [hp] at h
      rw [← file_of_parse hp]
      exact (Option.some.inj h).symm
  · rintro ⟨hfind, ss, hderives, rfl⟩
    obtain ⟨p, hp, rfl⟩ : ∃ p, parse source file = .ok p ∧ bareNodes p.body = ss :=
      parse_iff_derives.2 ⟨hfind, hderives⟩
    rw [hp, ← file_of_parse hp]
    rfl

/-- Texts that the screen does not tell apart and that have the same lexemes are read alike. -/
theorem Program.parse_congr [Text.CharNames] {source source' : String}
    (hfind : Screen.find source.toList = Screen.find source'.toList)
    (hlexemes : lexemes source.toList = lexemes source'.toList) (file : String) :
    (parse source file).toOption.map bare = (parse source' file).toOption.map bare := by
  refine Option.ext fun q => ?_
  rw [parse_bare_iff, parse_bare_iff, hfind, hlexemes]

end Deadwood
