import Mathlib.Data.List.Nodup
import Mathlib.Data.List.Sort
import Nabla.Formula.Precedence

/-!
# The construction order

The order in which the operators of a text are built. `comesFirst` is a total order on operators
that stand at different places, `constructionOrder` is the insertion sort by it, and so two lists of
the same operators have one construction order.
-/

namespace Nabla.Formula

/-- Ranks are told apart by their places in the order. -/
theorem Rank.level_injective {rank other : Rank} (h : rank.level = other.level) :
    rank = other := by
  cases rank <;> cases other <;> first | rfl | cases h

namespace Occurrence

/-- An operator comes first by its depth, then by its rank, then by standing to the right. -/
theorem comesFirst_iff {a b : Occurrence} :
    a.comesFirst b = true ↔
      b.precedence.depth < a.precedence.depth ∨
        b.precedence.depth = a.precedence.depth ∧
          (b.precedence.rank.level < a.precedence.rank.level ∨
            b.precedence.rank.level = a.precedence.rank.level ∧ b.index ≤ a.index) := by
  have hrank := @Rank.level_injective a.precedence.rank b.precedence.rank
  unfold comesFirst Precedence.le
  split
  · rename_i heq
    simp [heq]
  · rename_i hne
    have hlevel : a.precedence.depth = b.precedence.depth →
        a.precedence.rank.level ≠ b.precedence.rank.level := fun hdepth heq ↦
      hne (by
        cases hfirst : a.precedence
        cases hsecond : b.precedence
        simp_all)
    simp only [Bool.or_eq_true, Bool.and_eq_true, decide_eq_true_eq, beq_iff_eq]
    omega

/-- Of two operators one may be built before the other. -/
theorem comesFirst_total (a b : Occurrence) : a.comesFirst b = true ∨ b.comesFirst a = true := by
  simp only [comesFirst_iff]
  omega

/-- What may be built before an operator may be built before those that it may be built before. -/
theorem comesFirst_trans {a b c : Occurrence} (hab : a.comesFirst b = true)
    (hbc : b.comesFirst c = true) : a.comesFirst c = true := by
  simp only [comesFirst_iff] at *
  omega

/-- Two operators that come before each other stand at the same place. -/
theorem index_eq_of_comesFirst {a b : Occurrence} (hab : a.comesFirst b = true)
    (hba : b.comesFirst a = true) : a.index = b.index := by
  simp only [comesFirst_iff] at *
  omega

/-- The order of building as a relation. -/
abbrev Before (a b : Occurrence) : Prop := a.comesFirst b = true

instance : Std.Total Before := ⟨comesFirst_total⟩

instance : IsTrans Occurrence Before := ⟨fun _ _ _ ↦ comesFirst_trans⟩

end Occurrence

/-! ### Sorting -/

/-- An operator is put where an insertion sort inserts it. -/
theorem insertOccurrence_eq_orderedInsert (occurrence : Occurrence) (order : List Occurrence) :
    insertOccurrence occurrence order = order.orderedInsert Occurrence.Before occurrence := by
  induction order with
  | nil => rfl
  | cons first rest ih => rw [insertOccurrence, List.orderedInsert_cons, ih]

/-- The construction order is the insertion sort of the operators. -/
theorem constructionOrder_eq_insertionSort (operators : List Occurrence) :
    constructionOrder operators = operators.insertionSort Occurrence.Before := by
  induction operators with
  | nil => rfl
  | cons first rest ih =>
    rw [List.insertionSort_cons, ← ih]
    exact insertOccurrence_eq_orderedInsert first (constructionOrder rest)

/-- The construction order holds the given operators. -/
theorem constructionOrder_perm (operators : List Occurrence) :
    (constructionOrder operators).Perm operators := by
  rw [constructionOrder_eq_insertionSort]
  exact List.perm_insertionSort Occurrence.Before operators

/-- Each operator in the construction order comes before those after it. -/
theorem pairwise_constructionOrder (operators : List Occurrence) :
    (constructionOrder operators).Pairwise fun a b ↦ a.comesFirst b = true := by
  rw [constructionOrder_eq_insertionSort]
  exact List.pairwise_insertionSort Occurrence.Before operators

/-- Operators at different places have one construction order, however they are listed. -/
theorem constructionOrder_eq_of_perm {operators others : List Occurrence}
    (hperm : operators.Perm others) (hindex : (others.map Occurrence.index).Nodup) :
    constructionOrder operators = constructionOrder others := by
  refine List.Perm.eq_of_pairwise (fun a b ha hb hab hba ↦ ?_)
    (pairwise_constructionOrder operators) (pairwise_constructionOrder others)
    ((constructionOrder_perm operators).trans
      (hperm.trans (constructionOrder_perm others).symm))
  have ha : a ∈ others := hperm.mem_iff.1 ((constructionOrder_perm operators).mem_iff.1 ha)
  have hb : b ∈ others := (constructionOrder_perm others).mem_iff.1 hb
  exact List.inj_on_of_nodup_map hindex ha hb (Occurrence.index_eq_of_comesFirst hab hba)

/-! ### Orders of changed and of chosen operators -/

/-- Operators that are changed without a change of what comes first keep their order. -/
theorem constructionOrder_map {f : Occurrence → Occurrence} {operators : List Occurrence}
    (hf : ∀ a ∈ operators, ∀ b ∈ operators, (f a).comesFirst (f b) = a.comesFirst b) :
    constructionOrder (operators.map f) = (constructionOrder operators).map f := by
  rw [constructionOrder_eq_insertionSort, constructionOrder_eq_insertionSort]
  refine (List.map_insertionSort Occurrence.Before Occurrence.Before f operators ?_).symm
  intro a ha b hb
  rw [Occurrence.Before, Occurrence.Before, hf a ha b hb]

/-- An operator that comes before all others is put in front. -/
theorem insertOccurrence_of_forall {occurrence : Occurrence} {order : List Occurrence}
    (h : ∀ other ∈ order, occurrence.comesFirst other = true) :
    insertOccurrence occurrence order = occurrence :: order := by
  cases order with
  | nil => rfl
  | cons first rest => rw [insertOccurrence, if_pos (h first List.mem_cons_self)]

/-- An operator is put at the same place among the chosen ones of sorted operators, or left out. -/
theorem filter_insertOccurrence (chosen : Occurrence → Bool) (occurrence : Occurrence)
    {order : List Occurrence} (h : order.Pairwise fun a b ↦ a.comesFirst b = true) :
    (insertOccurrence occurrence order).filter chosen =
      if chosen occurrence then insertOccurrence occurrence (order.filter chosen)
      else order.filter chosen := by
  induction order with
  | nil => rw [insertOccurrence, List.filter_cons]; rfl
  | cons first rest ih =>
    obtain ⟨hfirst, hrest⟩ := List.pairwise_cons.1 h
    rw [insertOccurrence]
    split
    · -- what comes before the first of all comes before those that are chosen
      rename_i hbefore
      rw [insertOccurrence_of_forall, List.filter_cons]
      intro other hother
      rcases List.mem_cons.1 (List.mem_filter.1 hother).1 with rfl | hmem
      · exact hbefore
      · exact Occurrence.comesFirst_trans hbefore (hfirst other hmem)
    · rename_i hafter
      rw [List.filter_cons, List.filter_cons, ih hrest]
      by_cases hchosen : chosen first = true
      · rw [if_pos hchosen, if_pos hchosen]
        split
        · rw [insertOccurrence, if_neg hafter]
        · rfl
      · rw [if_neg hchosen, if_neg hchosen]

/-- The chosen ones of all operators are built in the order in which they are built alone. -/
theorem filter_constructionOrder (chosen : Occurrence → Bool) (operators : List Occurrence) :
    (constructionOrder operators).filter chosen =
      constructionOrder (operators.filter chosen) := by
  induction operators with
  | nil => rfl
  | cons occurrence rest ih =>
    have hcons : constructionOrder (occurrence :: rest) =
      insertOccurrence occurrence (constructionOrder rest) := rfl
    rw [hcons, filter_insertOccurrence chosen occurrence (pairwise_constructionOrder rest), ih,
      List.filter_cons]
    split <;> rfl

/-- The operator that every other one comes before is the last of a sorted list. -/
theorem exists_eq_append_last {order others : List Occurrence} {last : Occurrence}
    (hsorted : order.Pairwise fun a b ↦ a.comesFirst b = true)
    (hperm : order.Perm (last :: others))
    (hlast : ∀ other ∈ others, other.comesFirst last = true ∧ other.index ≠ last.index) :
    ∃ before, order = before ++ [last] ∧ before.Perm others := by
  obtain ⟨before, after, rfl⟩ := List.append_of_mem (hperm.mem_iff.2 (List.mem_cons_self ..))
  have hothers : (before ++ after).Perm others :=
    List.Perm.cons_inv (List.perm_middle.symm.trans hperm)
  cases after with
  | nil => exact ⟨before, rfl, by simpa using hothers⟩
  | cons next rest =>
    have hnext := hlast next (hothers.mem_iff.1 (by simp))
    have hsecond := (List.pairwise_cons.1 (List.pairwise_append.1 hsorted).2.1).1 next (by simp)
    exact absurd (Occurrence.index_eq_of_comesFirst hnext.1 hsecond) hnext.2

end Nabla.Formula
