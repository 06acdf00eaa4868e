import Nabla.Proofs.Formula.LayoutExistence
import Nabla.Proofs.Formula.Relocation

/-!
# Layouts inside parentheses

A layout inside parentheses has the elements it has alone, further to the right and with more
parentheses around them (`Layout.elements?_enclose`). Neither changes what comes first, so the tree
is the same (`Gathered.tree?_enclose`). From this follow the trees of a group, of a call or a
negation of a group, and of an operator between two groups.
-/

namespace Nabla.Formula

/-! ### Enclosed elements -/

/-- An operator with more parentheses around it, moved to the right. -/
def Occurrence.enclose (depth distance : Nat) (occurrence : Occurrence) : Occurrence :=
  { occurrence with
    index := occurrence.index + distance
    precedence := { occurrence.precedence with depth := occurrence.precedence.depth + depth } }

/-- An element with more parentheses around it, moved to the right. -/
def Element.enclose (depth distance : Nat) : Element → Element
  | leaf index operand => leaf (index + distance) operand
  | operator occurrence => operator (occurrence.enclose depth distance)

/-- Indices that are moved by one distance keep their order. -/
theorem strictMono_add_right (distance : Nat) : StrictMono (· + distance) :=
  fun _ _ hlt ↦ Nat.add_lt_add_right hlt distance

section Enclose

variable (depth distance : Nat)

/-- An operator that is enclosed is moved and deeper. -/
theorem Occurrence.enclose_ofDepth (index : Nat) (op : Operator) (inner : Nat) :
    (ofDepth index op inner).enclose depth distance =
      ofDepth (index + distance) op (inner + depth) := rfl

/-- Of two operators that are enclosed together the same one comes first. -/
theorem Occurrence.comesFirst_enclose (a b : Occurrence) :
    (a.enclose depth distance).comesFirst (b.enclose depth distance) = a.comesFirst b := by
  rw [Bool.eq_iff_iff, comesFirst_iff, comesFirst_iff]
  simp only [enclose]
  omega

/-- An element that is enclosed is moved. -/
theorem Element.index_enclose (element : Element) :
    (element.enclose depth distance).index = element.index + distance := by
  cases element <;> rfl

/-- Leaves that are enclosed are moved. -/
theorem leaves_enclose (elements : List Element) :
    leaves (elements.map (Element.enclose depth distance)) =
      relocateEntries (· + distance) (leaves elements) := by
  induction elements with
  | nil => rfl
  | cons element rest ih =>
    cases element with
    | leaf index operand => exact congrArg ((index + distance, operand) :: ·) ih
    | operator occurrence => exact ih

/-- The operators of enclosed elements are the enclosed operators. -/
theorem occurrences_enclose (elements : List Element) :
    occurrences (elements.map (Element.enclose depth distance)) =
      (occurrences elements).map (Occurrence.enclose depth distance) := by
  induction elements with
  | nil => rfl
  | cons element rest ih =>
    cases element with
    | leaf index operand => exact ih
    | operator occurrence => exact congrArg (occurrence.enclose depth distance :: ·) ih

/-- The operators of a sequence inside parentheses have these around them. -/
theorem le_depth_of_mem_enclose {elements : List Element} {occurrence : Occurrence}
    (h : occurrence ∈ occurrences (elements.map (Element.enclose depth distance))) :
    depth ≤ occurrence.precedence.depth := by
  rw [occurrences_enclose] at h
  obtain ⟨inner, -, rfl⟩ := List.mem_map.1 h
  exact Nat.le_add_left depth inner.precedence.depth

/-- Elements that are enclosed together keep their order. -/
theorem Increasing.enclose {elements : List Element} (h : Increasing elements) :
    Increasing (elements.map (Element.enclose depth distance)) := by
  refine List.pairwise_map.2 (h.imp ?_)
  intro first second hlt
  rw [Element.index_enclose, Element.index_enclose]
  exact Nat.add_lt_add_right hlt distance

/-- Elements that are enclosed together lie in the moved range. -/
theorem Spread.enclose {start stop : Nat} {elements : List Element}
    (h : Spread start stop elements) :
    Spread (start + distance) (stop + distance)
      (elements.map (Element.enclose depth distance)) := by
  refine ⟨h.increasing.enclose depth distance, fun element helement ↦ ?_⟩
  obtain ⟨other, hother, rfl⟩ := List.mem_map.1 helement
  have := h.bounds other hother
  rw [Element.index_enclose]
  omega

/-- Operators inside parentheses that are built from moved operands. -/
theorem OperandPool.buildAll?_enclose (pool : OperandPool) (order : List Occurrence) :
    (pool.relocate (strictMono_add_right distance)).buildAll?
        (order.map (Occurrence.enclose depth distance)) =
      (pool.buildAll? order).map (·.relocate (strictMono_add_right distance)) := by
  unfold buildAll?
  induction order generalizing pool with
  | nil => rfl
  | cons occurrence rest ih =>
    -- a step looks at the index and the operator only, not at the depth
    have hstep : (pool.relocate (strictMono_add_right distance)).build?
          (occurrence.enclose depth distance) =
        (pool.build? occurrence).map (·.relocate (strictMono_add_right distance)) :=
      pool.build?_relocate (strictMono_add_right distance) occurrence
    rw [List.map_cons, List.foldlM_cons, List.foldlM_cons, hstep]
    cases pool.build? occurrence with
    | none => rfl
    | some built => exact ih built

/-- The only operand of a pool that is moved is the same. -/
theorem OperandPool.single?_relocate {place : Nat → Nat} (pool : OperandPool)
    (hplace : StrictMono place) : (pool.relocate hplace).single? = pool.single? := by
  unfold single?
  rw [show (pool.relocate hplace).entries = relocateEntries place pool.entries from rfl]
  rcases pool.entries with _ | ⟨_, _ | _⟩ <;> rfl

/-- A sequence inside parentheses has the tree that it has alone. -/
theorem Gathered.tree?_enclose {elements : List Element} (h : Increasing elements) :
    (ofElements (elements.map (Element.enclose depth distance))).tree? =
      (ofElements elements).tree? := by
  have hpool : (ofElements (elements.map (Element.enclose depth distance))).pool =
      (ofElements elements).pool.relocate (strictMono_add_right distance) := by
    rw [← ofList_leaves (h.enclose depth distance), leaves_enclose,
      OperandPool.ofList_relocateEntries (strictMono_add_right distance), ofList_leaves h]
  rw [tree?, tree?, hpool, operators_ofElements, operators_ofElements, occurrences_enclose,
    constructionOrder_map fun a _ b _ ↦ Occurrence.comesFirst_enclose depth distance a b,
    OperandPool.buildAll?_enclose]
  cases (ofElements elements).pool.buildAll? (constructionOrder (occurrences elements)) with
  | none => rfl
  | some built => exact built.single?_relocate (strictMono_add_right distance)

end Enclose

/-! ### Enclosed layouts -/

/-- A layout inside further parentheses and further to the right. -/
theorem Layout.elements?_enclose (layout : Layout) (depth distance inner index : Nat) :
    layout.elements? (inner + depth) (index + distance) =
      (layout.elements? inner index).map (List.map (Element.enclose depth distance)) := by
  induction layout generalizing depth inner index with
  | nil => rfl
  | value negations kind operand reads rest ih =>
    rw [elements?, elements?,
      show index + distance + negations + 1 = index + negations + 1 + distance by omega, ih,
      Option.map_map, Option.map_map]
    rfl
  | operator op rest ih =>
    rw [elements?, elements?, show index + distance + 1 = index + 1 + distance by omega, ih,
      Option.map_map, Option.map_map]
    rfl
  | group contents rest ihcontents ih =>
    rw [elements?, elements?, show inner + depth + 1 = inner + 1 + depth by omega,
      show index + distance + 1 = index + 1 + distance by omega, ihcontents,
      show index + distance + 2 + contents.width = index + 2 + contents.width + distance by omega,
      ih]
    cases contents.elements? (inner + 1) (index + 1) with
    | none => rfl
    | some elements =>
      cases rest.elements? inner (index + 2 + contents.width) with
      | none => rfl
      | some others => simp
  | owned negations opener contents rest ihcontents ih =>
    -- the contents of a leaf are moved, but nothing is around them
    have hcontents := ihcontents 0 0 (index + negations + 2)
    rw [elements?, elements?,
      show index + distance + negations + 2 = index + negations + 2 + distance by omega, hcontents,
      show index + distance + negations + 3 + contents.width =
        index + negations + 3 + contents.width + distance by omega, ih]
    cases helements : contents.elements? 0 (index + negations + 2) with
    | none => rfl
    | some elements =>
      have hincreasing := (Layout.spread helements).increasing
      simp only [Option.map_some, Option.bind_some,
        Gathered.tree?_enclose 0 distance hincreasing]
      cases (Gathered.ofElements elements).tree? with
      | none => rfl
      | some argument =>
        cases rest.elements? inner (index + negations + 3 + contents.width) <;> rfl

/-! ### Trees of layouts -/

namespace Layout

/-- The tree of a layout. -/
def tree? (layout : Layout) : Option Expr :=
  (layout.elements? 0 0).bind fun elements ↦ (Gathered.ofElements elements).tree?

/-- A layout with a tree has elements anywhere, and the tree is theirs. -/
theorem exists_elements {layout : Layout} {e : Expr} (h : layout.tree? = some e)
    (depth index : Nat) :
    ∃ elements, layout.elements? depth index = some elements ∧
      (Gathered.ofElements elements).tree? = some e ∧
      ∀ occurrence ∈ occurrences elements, depth ≤ occurrence.precedence.depth := by
  obtain ⟨elements, helements, htree⟩ := Option.bind_eq_some_iff.1 h
  have henclosed := layout.elements?_enclose depth index 0 0
  rw [helements, Nat.zero_add, Nat.zero_add, Option.map_some] at henclosed
  refine ⟨_, henclosed, ?_, fun _ hmem ↦ le_depth_of_mem_enclose depth index hmem⟩
  rw [Gathered.tree?_enclose depth index (Layout.spread helements).increasing, htree]

variable {layout left right : Layout} {e first second : Expr}

/-- A group is read as its contents. -/
theorem tree?_group (h : layout.tree? = some e) : (group layout nil).tree? = some e := by
  obtain ⟨elements, helements, htree, -⟩ := exists_elements h 1 1
  simp [tree?, elements?, helements, htree]

/-- A call of a function, or a negation, is applied to the tree of its contents. -/
theorem tree?_owned (h : layout.tree? = some e) (opener : Opener) :
    (owned 0 opener layout nil).tree? = some (opener.apply e) := by
  obtain ⟨elements, helements, htree, -⟩ := exists_elements h 0 2
  simp only [tree?, elements?, Nat.zero_add, helements, htree, Option.bind_some, Option.map_some]
  rfl

/-- An operator between two groups takes their trees. -/
theorem tree?_between (hleft : left.tree? = some first) (hright : right.tree? = some second)
    (op : Operator) :
    (group left (operator op (group right nil))).tree? = some (.binary op first second) := by
  have hspread {elements : List Element}
      (h : (group left (operator op (group right nil))).elements? 0 0 = some elements) :
      Increasing elements := (Layout.spread h).increasing
  obtain ⟨front, hfront, hfrontTree, hfrontDepth⟩ := exists_elements hleft 1 1
  obtain ⟨back, hback, hbackTree, hbackDepth⟩ := exists_elements hright 1 (left.width + 4)
  have helements : (group left (operator op (group right nil))).elements? 0 0 =
      some (front ++ .operator (.ofDepth (left.width + 2) op 0) :: back) := by
    simp only [elements?, Nat.zero_add, hfront]
    rw [show 2 + left.width + 1 + 1 = left.width + 4 by omega, hback,
      show 2 + left.width = left.width + 2 by omega]
    simp
  rw [tree?, helements, Option.bind_some]
  refine Gathered.tree?_between (hspread helements) (fun other hother ↦ ?_) hfrontTree hbackTree
  -- every other operator is inside parentheses
  have hdepth : 1 ≤ other.precedence.depth := by
    rcases List.mem_append.1 hother with hother | hother
    · exact hfrontDepth other hother
    · exact hbackDepth other hother
  exact Occurrence.comesFirst_iff.2 (.inl hdepth)

end Layout

end Nabla.Formula
