import Deadwood.Proofs.Bare
import Deadwood.Proofs.Pruning
import Mathlib.Data.List.Forall2

/-! The two ways to share out the `else`s of a chain. A chain is nested from the outside in, so its
outermost `if` chooses first. The other way is from the inside out: an `else` goes to the nearest `if`
that has none, and an `if` gets the first `else` that those inside it leave over. The two make the
same tree exactly if the last `else` finds no more than one `if` that has none. -/
namespace Deadwood
namespace Chain

/-- Which of the `else`s an `if` owns, with those before it and those behind it, where so many `if`s
are nested inside. -/
abbrev Owner := Nat → List Alternative → Option (List Alternative × Alternative × List Alternative)

/-- The first `else` that is left when the `if`s inside have taken theirs. -/
def leftOver : Owner
  | _, [] => none
  | 0, a :: as => some ([], a, as)
  | opened + 1, a :: as => (leftOver (opened + a.run.conds) as).map fun o => (a :: o.1, o.2)

/-- A chain whose `if`s are given their `else`s by `owner`. -/
def nestBy (owner : Owner) (file : String) : Nat → Run → List Alternative → Part
  | 0, r, _ => r.leaf
  | fuel + 1, r, as =>
    match r.openings with
    | [] => r.leaf
    | (start, o) :: os =>
      let inner : Run := ⟨os, r.leaf⟩
      match o, owner inner.conds as with
      | .cond c, some (before, a, after) =>
        let yes := nestBy owner file fuel inner before
        let no := nestBy owner file fuel a.run after
        ⟨.cond (.between file start no.stop) c yes.node.asBlock (some no.node.asBlock), start, no.stop⟩
      | o, _ =>
        let body := nestBy owner file fuel inner as
        ⟨o.close (.between file start body.stop) body.node, start, body.stop⟩

/-- A chain in which each `else` goes to the nearest `if`. -/
def nearest (file : String) (r : Run) (as : List Alternative) : Part := nestBy leftOver file (depth r as) r as

/-- Whether the last `else` finds one `if` alone that has none, `opened` of them to start with. -/
def settled : Nat → List Alternative → Bool
  | _, [] => true
  | opened, [_] => opened == 1
  | opened, a :: b :: as => settled (opened - 1 + a.run.conds) (b :: as)

theorem nestBy_owner? (file : String) (fuel : Nat) (r : Run) (as : List Alternative) :
    nestBy owner? file fuel r as = nest file fuel r as := by
  induction fuel generalizing r as with
  | zero => rfl
  | succ fuel ih =>
    simp only [nestBy, ih]
    exact (nest.eq_2 ..).symm

theorem nestBy_owned {owner : Owner} {r : Run} {as : List Alternative} (h : owner r.conds as = some (before, a, after))
    (file : String) (fuel : Nat) (start : Position) (c : Node) :
    (nestBy owner file (fuel + 1) (r.opened start (.cond c)) as).node =
      .cond (.between file start (nestBy owner file fuel a.run after).stop) c
        (nestBy owner file fuel r before).node.asBlock (some (nestBy owner file fuel a.run after).node.asBlock) := by
  simp only [nestBy, Run.opened, h]

theorem nestBy_unowned {owner : Owner} {o : Opening} {r : Run} {as : List Alternative}
    (h : o.isCond → owner r.conds as = none) (file : String) (fuel : Nat) (start : Position) :
    (nestBy owner file (fuel + 1) (r.opened start o) as).node =
      o.close (.between file start (nestBy owner file fuel r as).stop) (nestBy owner file fuel r as).node := by
  cases o with
  | cond c => simp only [nestBy, Run.opened, h rfl]
  | _ => rfl

/-! What an `if` can own. -/

@[simp] theorem closes_nil (n : Nat) : closes n [] := by cases n <;> rfl

theorem leftOver_eq_none_iff {n : Nat} {as : List Alternative} : leftOver n as = none ↔ closes n as := by
  induction as generalizing n with
  | nil => simp [leftOver]
  | cons a as ih =>
    cases n with
    | zero => simp [leftOver, closes]
    | succ n => simpa [leftOver, closes] using ih

theorem closes_mono {m n : Nat} {as : List Alternative} (h : closes m as) (hmn : m ≤ n) : closes n as := by
  induction as generalizing m n with
  | nil => exact closes_nil n
  | cons a as ih =>
    cases m with
    | zero => cases h
    | succ m =>
      obtain ⟨n, rfl⟩ := Nat.exists_eq_add_of_le' (Nat.lt_of_lt_of_le m.succ_pos hmn)
      exact ih h (by omega)

theorem closes_of_append {n : Nat} {as bs : List Alternative} (h : closes n (as ++ bs)) : closes n as := by
  induction as generalizing n with
  | nil => exact closes_nil n
  | cons a as ih =>
    cases n with
    | zero => cases h
    | succ n => exact ih h

theorem owners_eq_nil {n : Nat} {before : List Alternative} (h : closes n before = false) (as : List Alternative) :
    owners n before as = [] := by
  induction as generalizing before with
  | nil => rfl
  | cons a as ih =>
    have hlater : owners n (before ++ [a]) as = [] :=
      ih (Bool.eq_false_iff.2 fun hclose => Bool.eq_false_iff.1 h (closes_of_append hclose))
    simp [owners, h, hlater]

/-- An `else` that the inner `if`s leave over is the only one that the outer `if` can own: with one
before it, none would be left for it, and with one behind it the inner `if`s are too few. -/
theorem owners_of_leftOver {m n : Nat} {before as : List Alternative}
    (hm : ∀ bs, closes n (before ++ bs) = closes m bs) (h : leftOver m as = some (b, a, after))
    (hclose : closes (m + 1) as) : owners n before as = [(before ++ b, a, after)] := by
  have hbefore : closes n before := by simpa using hm []
  induction as generalizing m before b with
  | nil => cases h
  | cons x as ih =>
    cases m with
    | zero =>
      cases h
      have hlater : owners n (before ++ [a]) after = [] := owners_eq_nil (hm [a]) after
      have hafter : closes a.run.conds after := by simpa [closes] using hclose
      simp [owners, hbefore, hafter, hlater]
    | succ m =>
      obtain ⟨⟨b, a, after⟩, hlater, heq⟩ := Option.map_eq_some_iff.1 h
      cases heq
      have hfew : closes x.run.conds as = false := by
        refine Bool.eq_false_iff.2 fun hfew => ?_
        have hnone := leftOver_eq_none_iff.2 (closes_mono hfew (Nat.le_add_left _ m))
        rw [hlater] at hnone
        cases hnone
      have hm' (bs : List Alternative) : closes n (before ++ [x] ++ bs) = closes (m + x.run.conds) bs := by
        rw [List.append_assoc]
        exact hm (x :: bs)
      have hx : closes n (before ++ [x]) := by simpa using hm' []
      have hclose' : closes (m + x.run.conds + 1) as := by rwa [Nat.add_right_comm]
      rw [owners, hfew, Bool.and_false, if_neg Bool.false_ne_true, ih hm' hlater hclose' hx, List.append_assoc]
      rfl

theorem owner?_of_leftOver {n : Nat} {as : List Alternative} (h : leftOver n as = some o) (hclose : closes (n + 1) as) :
    owner? n as = some o := by
  have howners : owners n [] as = [o] := owners_of_leftOver (fun _ => rfl) h hclose
  have hprefer (p : _ → Bool) : prefer p [o] = [o] := by cases hp : p o <;> simp [prefer, hp]
  rw [owner?, howners, hprefer, hprefer]
  rfl

/-- The outer `if` owns an `else` even where the inner ones leave none over. -/
theorem exists_owner? {n : Nat} {as : List Alternative} (h : closes n as) (has : as ≠ []) :
    ∃ o, owner? n as = some o := by
  have hlast := List.dropLast_concat_getLast has
  rw [← hlast] at h
  have hmem := mem_owners (closes_nil (as.getLast has).run.conds) [] as.dropLast (closes_of_append h)
  have hne : owners n [] as ≠ [] := fun hnil => by
    rw [hlast, hnil] at hmem
    cases hmem
  exact Option.isSome_iff_exists.1 (List.getLast?_isSome.2 (prefer_ne_nil (prefer_ne_nil hne)))

/-! When the last `else` leaves no choice. -/

theorem of_leftOver {n : Nat} {as : List Alternative} (h : leftOver n as = some (before, a, after)) :
    before ++ a :: after = as ∧ closes n before ∧ closes (n + 1) as = closes a.run.conds after := by
  induction as generalizing n before with
  | nil => cases h
  | cons x as ih =>
    cases n with
    | zero =>
      cases h
      exact ⟨rfl, rfl, by rw [closes, Nat.zero_add]⟩
    | succ n =>
      obtain ⟨⟨b, a, after⟩, hlater, heq⟩ := Option.map_eq_some_iff.1 h
      cases heq
      obtain ⟨rfl, hb, hclose⟩ := ih hlater
      refine ⟨rfl, hb, ?_⟩
      rw [closes, Nat.add_right_comm, hclose]

theorem eq_zero_of_leftOver {n : Nat} {as : List Alternative} (h : leftOver n as = some ([], a, after)) : n = 0 := by
  cases as with
  | nil => cases h
  | cons x as =>
    cases n with
    | zero => rfl
    | succ n =>
      obtain ⟨o, -, heq⟩ := Option.map_eq_some_iff.1 h
      cases heq

theorem settled_of_leftOver {n : Nat} {as : List Alternative} (h : leftOver n as = some (before, a, after)) :
    settled n before ∧ settled (n + 1) as = settled a.run.conds after := by
  induction as generalizing n before with
  | nil => cases h
  | cons x as ih =>
    cases n with
    | zero =>
      cases h
      refine ⟨rfl, ?_⟩
      cases after with
      | nil => rfl
      | cons b after => rw [settled, Nat.zero_add]
    | succ n =>
      obtain ⟨⟨b, a, after⟩, hlater, heq⟩ := Option.map_eq_some_iff.1 h
      cases heq
      obtain ⟨hb, hsettled⟩ := ih hlater
      constructor
      · cases b with
        | nil =>
          -- the `else` takes the one `if` there is
          obtain rfl : n = 0 := Nat.eq_zero_of_add_eq_zero_right (eq_zero_of_leftOver hlater)
          rfl
        | cons y b => exact hb
      · cases as with
        | nil => cases hlater
        | cons y as => rw [settled, Nat.add_sub_cancel, Nat.add_right_comm, hsettled]

/-- If the inner `if`s leave no `else` over, the last one could belong to several. -/
theorem not_settled {n : Nat} {as : List Alternative} (h : closes n as) (has : as ≠ []) :
    settled (n + 1) as = false := by
  induction as generalizing n with
  | nil => exact absurd rfl has
  | cons a as ih =>
    cases n with
    | zero => cases h
    | succ n =>
      cases as with
      | nil => rfl
      | cons b as =>
        rw [settled, Nat.add_sub_cancel, Nat.add_right_comm]
        exact ih h (List.cons_ne_nil _ _)

/-! Chains that differ in the trees at their leaves. -/

/-- Runs with `if`s at the same places. -/
structure Similar (r r' : Run) : Prop where
  conds : r.openings.map (·.2.isCond) = r'.openings.map (·.2.isCond)
  leaf : r.leaf.node.isBlock = r'.leaf.node.isBlock

/-- Alternatives with the same line breaks and similar runs. -/
structure SimilarElse (a a' : Alternative) : Prop where
  breakBefore : a.breakBefore = a'.breakBefore
  breakAfter : a.breakAfter = a'.breakAfter
  run : Similar a.run a'.run

theorem Similar.conds_eq (h : Similar r r') : r.conds = r'.conds := by
  have hmap (r : Run) : r.conds = (r.openings.map (·.2.isCond)).countP id := by
    rw [List.countP_map]
    rfl
  rw [hmap, hmap, h.conds]

theorem Similar.length_eq (h : Similar r r') : r.openings.length = r'.openings.length := by
  simpa using congrArg List.length h.conds

theorem depth_eq (hr : Similar r r') (has : List.Forall₂ SimilarElse as as') : depth r as = depth r' as' := by
  have hmap : as.map (·.run.openings.length) = as'.map (·.run.openings.length) := by
    induction has with
    | nil => rfl
    | cons ha _ ih => rw [List.map_cons, List.map_cons, ha.run.length_eq, ih]
  rw [depth, depth, hr.length_eq, hmap]

theorem leftOver_similar (has : List.Forall₂ SimilarElse as as') (n : Nat) :
    leftOver n as = none ∧ leftOver n as' = none ∨
      ∃ before a after before' a' after', leftOver n as = some (before, a, after) ∧
        leftOver n as' = some (before', a', after') ∧ List.Forall₂ SimilarElse before before' ∧ SimilarElse a a' ∧
        List.Forall₂ SimilarElse after after' := by
  induction has generalizing n with
  | nil => exact .inl ⟨rfl, rfl⟩
  | @cons x x' as as' hx has ih =>
    cases n with
    | zero => exact .inr ⟨[], x, as, [], x', as', rfl, rfl, .nil, hx, has⟩
    | succ n =>
      rw [leftOver, leftOver, ← hx.run.conds_eq]
      obtain ⟨h, h'⟩ | ⟨b, a, after, b', a', after', h, h', hb, ha, hafter⟩ := ih (n + x.run.conds)
      · exact .inl ⟨by rw [h]; rfl, by rw [h']; rfl⟩
      · exact .inr ⟨x :: b, a, after, x' :: b', a', after', by rw [h]; rfl, by rw [h']; rfl, .cons hx hb, ha, hafter⟩

end Chain

/-! Equal trees are made of equal trees. -/

theorem Node.exists_of_isBlock {x : Node} (h : x.isBlock) : ∃ b, x = .block b := by
  cases x with
  | block b => exact ⟨b, rfl⟩
  | _ => cases h

theorem Node.asBlock_bare_inj {x y : Node} (h : x.isBlock = y.isBlock) :
    x.asBlock.bare = y.asBlock.bare ↔ x.bare = y.bare := by
  have hwrap {x : Node} (hx : x.isBlock = false) : x.asBlock.bare = ⟨.blank, [x.bare]⟩ := by
    cases x with
    | block b => cases hx
    | _ => rfl
  cases hx : x.isBlock with
  | false => rw [hwrap hx, hwrap (h ▸ hx), Block.mk.injEq, and_iff_right rfl, List.cons.injEq, and_iff_left rfl]
  | true =>
    obtain ⟨b, rfl⟩ := exists_of_isBlock hx
    obtain ⟨b', rfl⟩ := exists_of_isBlock (h ▸ hx)
    rw [Node.bare, Node.bare, Node.block.injEq]
    rfl

theorem Opening.close_bare_inj {o o' : Opening} {x y : Node} (h : x.isBlock = y.isBlock) (s s' : Span) :
    (o.close s x).bare = (o'.close s' y).bare ↔ o.bare = o'.bare ∧ x.bare = y.bare := by
  cases o <;> cases o' <;>
    simp [Opening.close, Opening.bare, Node.bare, Node.asBlock_bare_inj h, and_assoc]

theorem Run.opened_bare_inj {r r' : Run} {o o' : Opening} (start start' : Position) :
    (r.opened start o).bare = (r'.opened start' o').bare ↔ o.bare = o'.bare ∧ r.bare = r'.bare := by
  simp [Run.opened, Run.bare, and_assoc]

namespace Chain

theorem SimilarElse.bare_inj (h : SimilarElse a a') : a.bare = a'.bare ↔ a.run.bare = a'.run.bare := by
  simp [Alternative.bare, h.breakBefore, h.breakAfter]

theorem map_bare_inj {before before' after after' : List Alternative} (h : before.length = before'.length)
    (ha : SimilarElse a a') :
    (before ++ a :: after).map Alternative.bare = (before' ++ a' :: after').map Alternative.bare ↔
      before.map Alternative.bare = before'.map Alternative.bare ∧ a.run.bare = a'.run.bare ∧
        after.map Alternative.bare = after'.map Alternative.bare := by
  rw [List.map_append, List.map_append, List.map_cons, List.map_cons, ← ha.bare_inj, ← List.cons.injEq]
  exact ⟨fun heq => List.append_inj heq (by simpa using h), fun ⟨h₁, h₂⟩ => by rw [h₁, h₂]⟩

theorem isBlock_close (o : Opening) (s : Span) (x : Node) : (o.close s x).isBlock = false := by cases o <;> rfl

theorem Similar.of_opened (h : Similar (r.opened start o) r₂) :
    ∃ start' o' r', r₂ = r'.opened start' o' ∧ o.isCond = o'.isCond ∧ Similar r r' := by
  cases r₂ using Run.openedCases with
  | leaf x' => cases h.conds
  | opened start' o' r' =>
    obtain ⟨ho, hconds⟩ := List.cons.inj h.conds
    exact ⟨start', o', r', rfl, ho, hconds, h.leaf⟩

/-- What the trees of two similar chains have to do with each other, the one nested from the outside
and the other from the inside. -/
structure Compared (x x' : Node) (r r' : Run) (as as' : List Alternative) : Prop where
  isBlock : x.isBlock = x'.isBlock
  same : x.bare = x'.bare ↔
    r.bare = r'.bare ∧ as.map Alternative.bare = as'.map Alternative.bare ∧ settled r.conds as

theorem compared_leaf {x : Part} (hr : Similar ⟨[], x⟩ r') (has : List.Forall₂ SimilarElse as as')
    (hclose : closes (Run.conds ⟨[], x⟩) as) (file : String) (fuel : Nat) :
    Compared (nestBy owner? file fuel ⟨[], x⟩ as).node (nestBy leftOver file fuel r' as').node ⟨[], x⟩ r' as as' := by
  have hleaf (owner) (x : Part) (as : List Alternative) : nestBy owner file fuel ⟨[], x⟩ as = x := by cases fuel <;> rfl
  cases r' using Run.openedCases with
  | opened => cases hr.conds
  | leaf x' =>
    cases has with
    | cons => cases hclose
    | nil =>
      rw [hleaf, hleaf]
      exact ⟨hr.leaf, by simp [Run.bare, Part.bare, settled]⟩

theorem compared_close {o o' : Opening} (h : Compared x x' r r' as as') (start start' : Position)
    (hsettled : settled (r.opened start o).conds as = settled r.conds as) (s s' : Span) :
    Compared (o.close s x) (o'.close s' x') (r.opened start o) (r'.opened start' o') as as' where
  isBlock := by rw [isBlock_close, isBlock_close]
  same := by rw [Opening.close_bare_inj h.isBlock, Run.opened_bare_inj, h.same, hsettled, and_assoc]

theorem compared_cond {c c' : Node} (hyes : Compared x x' r r' before before')
    (hno : Compared y y' a.run a'.run after after') (hlength : before.length = before'.length) (ha : SimilarElse a a')
    (hbefore : settled r.conds before)
    (hsettled : settled (r.conds + 1) (before ++ a :: after) = settled a.run.conds after)
    (start start' : Position) (s s' : Span) :
    Compared (.cond s c x.asBlock (some y.asBlock)) (.cond s' c' x'.asBlock (some y'.asBlock))
      (r.opened start (.cond c)) (r'.opened start' (.cond c')) (before ++ a :: after) (before' ++ a' :: after') where
  isBlock := rfl
  same := by
    have hconds : (r.opened start (.cond c)).conds = r.conds + 1 := conds_opened ..
    rw [Run.opened_bare_inj, map_bare_inj hlength ha, hconds, hsettled]
    simp only [Node.bare, Opening.bare, Node.cond.injEq, Opening.cond.injEq, Option.some.injEq, true_and,
      Node.asBlock_bare_inj hyes.isBlock, Node.asBlock_bare_inj hno.isBlock, hyes.same, hno.same, hbefore, and_true]
    constructor
    · rintro ⟨hc, ⟨hr, hbefore⟩, ha, hafter, hsettled⟩
      exact ⟨⟨hc, hr⟩, ⟨hbefore, ha, hafter⟩, hsettled⟩
    · rintro ⟨⟨hc, hr⟩, ⟨hbefore, ha, hafter⟩, hsettled⟩
      exact ⟨hc, ⟨hr, hbefore⟩, ha, hafter, hsettled⟩

/-- Where only the outer way gives the `if` an `else`, the trees differ. -/
theorem compared_disputed {r r' : Run} {c c' : Node} (hsettled : settled (r.conds + 1) as = false)
    (start start' : Position) (s s' : Span) (x y x' : Block) :
    Compared (.cond s c x (some y)) (.cond s' c' x' none)
      (r.opened start (.cond c)) (r'.opened start' (.cond c')) as as' where
  isBlock := rfl
  same := by
    have hconds : (r.opened start (.cond c)).conds = r.conds + 1 := conds_opened ..
    simp [Node.bare, hconds, hsettled]

-- The induction follows the nesting: one opening at a time, and at an `if` the chain is cut in two.
theorem compared_nest (file : String) (fuel : Nat) {r r' : Run} {as as' : List Alternative} (hr : Similar r r')
    (has : List.Forall₂ SimilarElse as as') (hclose : closes r.conds as) (hfuel : depth r as ≤ fuel) :
    Compared (nestBy owner? file fuel r as).node (nestBy leftOver file fuel r' as').node r r' as as' := by
  induction fuel generalizing r r' as as' with
  | zero =>
    cases r using Run.openedCases with
    | leaf x => exact compared_leaf hr has hclose file 0
    | opened start o r =>
      rw [depth_opened] at hfuel
      omega
  | succ fuel ih =>
    cases r using Run.openedCases with
    | leaf x => exact compared_leaf hr has hclose file (fuel + 1)
    | opened start o r =>
      obtain ⟨start', o', r', rfl, ho, hsimilar⟩ := hr.of_opened
      rw [depth_opened] at hfuel
      cases hcond : o.isCond with
      | false =>
        have hconds : (r.opened start o).conds = r.conds := by rw [conds_opened, hcond, Bool.toNat_false, Nat.add_zero]
        rw [hconds] at hclose
        rw [nestBy_unowned (by simp [hcond]), nestBy_unowned (by simp [← ho, hcond])]
        exact compared_close (ih hsimilar has hclose (by omega)) start start' (by rw [hconds]) _ _
      | true =>
        obtain ⟨c, rfl⟩ : ∃ c, o = .cond c := by cases o <;> simp_all [Opening.isCond]
        obtain ⟨c', rfl⟩ : ∃ c, o' = .cond c := by cases o' <;> simp_all [Opening.isCond]
        rw [conds_opened] at hclose
        obtain ⟨h, h'⟩ | ⟨before, a, after, before', a', after', h, h', hbefore, ha, hafter⟩ :=
          leftOver_similar has r.conds
        · by_cases hne : as = []
          · subst hne
            cases has
            rw [nestBy_unowned fun _ => rfl, nestBy_unowned fun _ => rfl]
            exact compared_close (ih hsimilar .nil (closes_nil _) (by omega)) start start' rfl _ _
          · have hinner := leftOver_eq_none_iff.1 h
            obtain ⟨⟨before, a, after⟩, howner⟩ := exists_owner? hinner hne
            rw [nestBy_owned howner, nestBy_unowned fun _ => hsimilar.conds_eq ▸ h']
            exact compared_disputed (not_settled hinner hne) ..
        · obtain ⟨hsettled, hsettled'⟩ := settled_of_leftOver h
          rw [nestBy_owned (owner?_of_leftOver h hclose), nestBy_owned (hsimilar.conds_eq ▸ h')]
          obtain ⟨rfl, hcloses, hcloses'⟩ := of_leftOver h
          obtain ⟨rfl, -, -⟩ := of_leftOver h'
          rw [depth_append] at hfuel
          exact compared_cond (ih hsimilar hbefore hcloses (by omega)) (ih ha.run hafter (hcloses' ▸ hclose) (by omega))
            hbefore.length_eq ha hsettled hsettled' ..

/-- Similar chains make the same tree in both ways just if they are the same and the last `else`
leaves no choice. -/
theorem compared_nearest (file : String) {r r' : Run} {as as' : List Alternative} (hr : Similar r r')
    (has : List.Forall₂ SimilarElse as as') (hclose : closes r.conds as) :
    Compared (build file r as).node (nearest file r' as').node r r' as as' := by
  rw [build, ← nestBy_owner?, nearest, ← depth_eq hr has]
  exact compared_nest file (depth r as) hr has hclose (Nat.le_refl _)

end Chain
end Deadwood
