import Deadwood.Source.Chain

/-! How a chain is nested: one step of it, and which `else`s an `if` can own. -/
namespace Deadwood

/-- A run with one more opening in front. -/
def Run.opened (r : Run) (start : Position) (o : Opening) : Run := ⟨(start, o) :: r.openings, r.leaf⟩

theorem Run.openedCases {motive : Run → Prop} (r : Run) (leaf : ∀ x, motive ⟨[], x⟩)
    (opened : ∀ start o r, motive (Run.opened r start o)) : motive r := by
  obtain ⟨_ | ⟨⟨start, o⟩, os⟩, x⟩ := r
  · exact leaf x
  · exact opened start o ⟨os, x⟩

namespace Chain

theorem nest_owned {c : Node} {r : Run} {a : Alternative} {as before after : List Alternative}
    (h : owner? r.conds as = some (before, a, after)) (file : String) (fuel : Nat) (start : Position) :
    nest file (fuel + 1) (r.opened start (.cond c)) as =
      ⟨.cond (.between file start (nest file fuel a.run after).stop) c
        (nest file fuel r before).node.asBlock (some (nest file fuel a.run after).node.asBlock),
        start, (nest file fuel a.run after).stop⟩ := by
  simp only [nest, Run.opened, h]

theorem nest_unowned {o : Opening} {r : Run} {as : List Alternative}
    (h : o.isCond → owner? r.conds as = none) (file : String) (fuel : Nat) (start : Position) :
    nest file (fuel + 1) (r.opened start o) as =
      ⟨o.close (.between file start (nest file fuel r as).stop) (nest file fuel r as).node, start,
        (nest file fuel r as).stop⟩ := by
  cases o with
  | cond c => simp only [nest, Run.opened, h rfl]
  | _ => rfl

/-- Either no `else` is given away at an opening, or it is an `if` that owns one. -/
theorem owned_cases (o : Opening) (r : Run) (as : List Alternative) :
    (o.isCond → owner? r.conds as = none) ∨
    ∃ c before a after, o = .cond c ∧ owner? r.conds as = some (before, a, after) := by
  cases o with
  | cond c =>
    cases h : owner? r.conds as with
    | none => exact .inl fun _ => rfl
    | some owner => exact .inr ⟨c, owner.1, owner.2.1, owner.2.2, rfl, rfl⟩
  | _ => exact .inl fun h => by cases h

theorem prefer_map (p : β → Bool) (f : α → β) (xs : List α) :
    prefer p (xs.map f) = (prefer (p ∘ f) xs).map f := by
  simp only [prefer, List.any_map, List.filter_map]
  split <;> rfl

theorem mem_of_mem_prefer {p : α → Bool} {xs : List α} {x : α} (h : x ∈ prefer p xs) : x ∈ xs := by
  unfold prefer at h
  split at h
  · exact (List.mem_filter.1 h).1
  · exact h

/-- The `else` that is given away splits the others, and those on either side find an `if`
of their own. -/
theorem of_mem_owners {conds : Nat} {before as before' after : List Alternative} {a : Alternative}
    (h : (before', a, after) ∈ owners conds before as) :
    before' ++ a :: after = before ++ as ∧ closes conds before' ∧ closes a.run.conds after := by
  induction as generalizing before with
  | nil => simp [owners] at h
  | cons b as ih =>
    have hlater (h : (before', a, after) ∈ owners conds (before ++ [b]) as) :
        before' ++ a :: after = before ++ b :: as ∧ closes conds before' ∧ closes a.run.conds after := by
      simpa using ih h
    simp only [owners] at h
    split at h
    · next hcloses =>
      rcases List.mem_cons.1 h with heq | h
      · cases heq
        exact ⟨rfl, by simpa using hcloses⟩
      · exact hlater h
    · exact hlater h

theorem of_owner? {conds : Nat} {as before after : List Alternative} {a : Alternative}
    (h : owner? conds as = some (before, a, after)) :
    before ++ a :: after = as ∧ closes conds before ∧ closes a.run.conds after :=
  of_mem_owners (mem_of_mem_prefer (mem_of_mem_prefer (List.mem_of_getLast? h)))

theorem mem_owners {k : Nat} {a : Alternative} {after : List Alternative} (hafter : closes a.run.conds after)
    (front before : List Alternative) (hbefore : closes k (front ++ before)) :
    (front ++ before, a, after) ∈ owners k front (before ++ a :: after) := by
  induction before generalizing front with
  | nil =>
    rw [List.append_nil] at hbefore
    simp [owners, hbefore, hafter]
  | cons b before ih =>
    have hlater := ih (front ++ [b]) (by simpa using hbefore)
    rw [List.append_assoc, List.singleton_append] at hlater
    rw [List.cons_append, owners]
    split
    · exact List.mem_cons_of_mem _ hlater
    · exact hlater

theorem prefer_ne_nil {p : α → Bool} {xs : List α} (h : xs ≠ []) : prefer p xs ≠ [] := by
  unfold prefer
  split
  · next hany =>
    obtain ⟨x, hx, hp⟩ := List.any_eq_true.1 hany
    exact List.ne_nil_of_mem (List.mem_filter.2 ⟨hx, hp⟩)
  · exact h

theorem depth_opened (r : Run) (start : Position) (o : Opening) (as : List Alternative) :
    depth (r.opened start o) as = depth r as + 1 := by
  simp only [depth, Run.opened, List.length_cons]
  omega

theorem depth_append (r : Run) (before : List Alternative) (a : Alternative) (after : List Alternative) :
    depth r (before ++ a :: after) = depth r before + depth a.run after := by
  have hsum (as : List Alternative) : (as.map (·.run.openings.length)).foldr (· + ·) 0 =
      (as.map (·.run.openings.length)).sum := rfl
  simp only [depth, hsum]
  rw [List.map_append, List.sum_append, List.map_cons, List.sum_cons]
  omega

theorem conds_opened (r : Run) (start : Position) (o : Opening) :
    (r.opened start o).conds = r.conds + o.isCond.toNat := by
  cases h : o.isCond <;> simp [Run.conds, Run.opened, h]

theorem eq_nil_of_closes {as : List Alternative} (h : closes 0 as) : as = [] := by
  cases as with
  | nil => rfl
  | cons => cases h

/-- What holds of the leaves of a chain and is kept by its openings holds of its tree. -/
theorem nest_closure {P : Node → Prop} {O : Opening → Prop}
    (hclose : ∀ o s n, O o → P n → P (o.close s n))
    (hcond : ∀ c s yes no, O (.cond c) → P yes → P no → P (.cond s c yes.asBlock (some no.asBlock)))
    (file : String) (fuel : Nat) {r : Run} {as : List Alternative}
    (hr : (∀ o ∈ r.openings, O o.2) ∧ P r.leaf.node)
    (has : ∀ a ∈ as, (∀ o ∈ a.run.openings, O o.2) ∧ P a.run.leaf.node) :
    P (nest file fuel r as).node := by
  induction fuel generalizing r as with
  | zero => exact hr.2
  | succ fuel ih =>
    cases r using Run.openedCases with
    | leaf x => exact hr.2
    | opened start o r =>
      have ho : O o := hr.1 (start, o) (by simp [Run.opened])
      have hinner : (∀ o ∈ r.openings, O o.2) ∧ P r.leaf.node :=
        ⟨fun o ho => hr.1 o (by simp [Run.opened, ho]), hr.2⟩
      obtain hfound | ⟨c, before, a, after, rfl, hfound⟩ := owned_cases o r as
      · rw [nest_unowned hfound]
        exact hclose o _ _ ho (ih hinner has)
      · obtain ⟨rfl, -⟩ := of_owner? hfound
        rw [nest_owned hfound]
        refine hcond c _ _ _ ho (ih hinner fun b hb => has b (by simp [hb])) (ih (has a (by simp)) ?_)
        exact fun b hb => has b (by simp [hb])

end Chain
end Deadwood
