/-!
# Splitting a list at its least element

A chain of operators is split at the leftmost of those that bind loosest. `splitLeast` splits a list
at the leftmost of its least elements in any order, and `splitLeast_eq_some` says where that is:
what stands before it is greater, and nothing after it is less.
-/

namespace Nabla.Formula

variable {α : Type} {le : α → α → Bool}

/-- The leftmost of the least elements of a list, and what stands before and after it. -/
def splitLeast (le : α → α → Bool) : List α → Option (List α × α × List α)
  | [] => none
  | first :: rest =>
      match splitLeast le rest with
      | none => some ([], first, [])
      | some (before, least, after) =>
          if le first least then some ([], first, rest) else some (first :: before, least, after)

/-- A list that is not empty can be split. -/
theorem splitLeast_cons_ne_none (first : α) (rest : List α) :
    splitLeast le (first :: rest) ≠ none := by
  unfold splitLeast
  split
  · exact Option.some_ne_none _
  · split <;> exact Option.some_ne_none _

/-- Of a list that is split, the element in the middle is less than those before it, and no greater
than those after it. -/
theorem splitLeast_eq_some (htrans : ∀ a b c, le a b = true → le b c = true → le a c = true)
    (htotal : ∀ a b, le a b = false → le b a = true) {list before after : List α} {least : α}
    (h : splitLeast le list = some (before, least, after)) :
    list = before ++ least :: after ∧ (∀ other ∈ before, le other least = false) ∧
      ∀ other ∈ after, le least other = true := by
  induction list generalizing before least after with
  | nil => cases h
  | cons first rest ih =>
    unfold splitLeast at h
    split at h
    · rename_i hrest
      cases h
      cases rest with
      | nil => exact ⟨rfl, by simp, by simp⟩
      | cons next others => exact absurd hrest (splitLeast_cons_ne_none next others)
    · rename_i front found back hrest
      obtain ⟨rfl, hfront, hback⟩ := ih hrest
      split at h
      · -- the first element is no greater than the least of the others, and so than any of them
        rename_i hfirst
        cases h
        refine ⟨rfl, by simp, fun other hother ↦ ?_⟩
        rcases List.mem_append.1 hother with hother | hother
        · exact htrans _ _ _ hfirst (htotal _ _ (hfront other hother))
        · rcases List.mem_cons.1 hother with rfl | hother
          · exact hfirst
          · exact htrans _ _ _ hfirst (hback other hother)
      · rename_i hfirst
        cases h
        exact ⟨rfl, List.forall_mem_cons.2 ⟨Bool.eq_false_iff.2 hfirst, hfront⟩, hback⟩

end Nabla.Formula
