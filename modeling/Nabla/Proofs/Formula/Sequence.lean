import Nabla.Proofs.Formula.Building
import Nabla.Proofs.Formula.ConstructionOrder

/-!
# Sequences of leaves and operators

What is gathered from a range is a sequence of leaves and operators with increasing indices. The
operator that is built last is the root: `Gathered.tree?_between` says that it stands for the trees
of its two sides, whatever these are. `Builds` is the case in which operators alternate with
operands all the way down.

The proof splits the pool at the root. An operator on one side never reaches an operand of the
other side, since its own side still has one whenever it is built.
-/

namespace Nabla.Formula

/-- A leaf or an operator of a range. -/
inductive Element where
  | leaf (index : Nat) (operand : Expr)
  | operator (occurrence : Occurrence)

namespace Element

/-- The place of an element. -/
def index : Element → Nat
  | leaf index _ => index
  | operator occurrence => occurrence.index

/-- The leaf that an element is. -/
def leaf? : Element → Option (Nat × Expr)
  | leaf index operand => some (index, operand)
  | operator _ => none

/-- The operator that an element is. -/
def occurrence? : Element → Option Occurrence
  | leaf _ _ => none
  | operator occurrence => some occurrence

/-- Put an element in front of gathered ones. -/
def addTo : Element → Gathered → Gathered
  | leaf index operand, gathered => gathered.addLeaf index operand
  | operator occurrence, gathered => gathered.addOperator occurrence

end Element

/-- The leaves of a sequence. -/
def leaves (elements : List Element) : List (Nat × Expr) := elements.filterMap Element.leaf?

/-- The operators of a sequence. -/
def occurrences (elements : List Element) : List Occurrence :=
  elements.filterMap Element.occurrence?

/-- The indices of a sequence increase. -/
def Increasing (elements : List Element) : Prop :=
  elements.Pairwise fun a b ↦ a.index < b.index

/-- The leaves of two sequences, one behind the other. -/
@[simp] theorem leaves_append (front back : List Element) :
    leaves (front ++ back) = leaves front ++ leaves back := List.filterMap_append

/-- The operators of two sequences, one behind the other. -/
@[simp] theorem occurrences_append (front back : List Element) :
    occurrences (front ++ back) = occurrences front ++ occurrences back := List.filterMap_append

/-- A leaf in front is the first of the leaves. -/
@[simp] theorem leaves_cons_leaf (index : Nat) (operand : Expr) (rest : List Element) :
    leaves (.leaf index operand :: rest) = (index, operand) :: leaves rest := rfl

/-- An operator in front is no leaf. -/
@[simp] theorem leaves_cons_operator (occurrence : Occurrence) (rest : List Element) :
    leaves (.operator occurrence :: rest) = leaves rest := rfl

/-- A leaf in front is no operator. -/
@[simp] theorem occurrences_cons_leaf (index : Nat) (operand : Expr) (rest : List Element) :
    occurrences (.leaf index operand :: rest) = occurrences rest := rfl

/-- An operator in front is the first of the operators. -/
@[simp] theorem occurrences_cons_operator (occurrence : Occurrence) (rest : List Element) :
    occurrences (.operator occurrence :: rest) = occurrence :: occurrences rest := rfl

/-- A leaf of a sequence stands at the place of an element. -/
theorem exists_of_mem_leaves {elements : List Element} {entry : Nat × Expr}
    (h : entry ∈ leaves elements) : ∃ element ∈ elements, element.index = entry.1 := by
  obtain ⟨element, hmem, hleaf⟩ := List.mem_filterMap.1 h
  cases element with
  | leaf index operand =>
    cases hleaf
    exact ⟨_, hmem, rfl⟩
  | operator occurrence => cases hleaf

/-- What holds of the places of all elements holds of those of the leaves. -/
theorem forall_mem_leaves (property : Nat → Prop) {elements : List Element}
    (h : ∀ element ∈ elements, property element.index) :
    ∀ entry ∈ leaves elements, property entry.1 := by
  intro entry hentry
  obtain ⟨element, hmem, heq⟩ := exists_of_mem_leaves hentry
  exact heq ▸ h element hmem

/-- An operator of a sequence is one of its elements. -/
theorem mem_of_mem_occurrences {elements : List Element} {occurrence : Occurrence}
    (h : occurrence ∈ occurrences elements) : .operator occurrence ∈ elements := by
  obtain ⟨element, hmem, hoccurrence⟩ := List.mem_filterMap.1 h
  cases element with
  | leaf index operand => cases hoccurrence
  | operator other =>
    cases hoccurrence
    exact hmem

namespace Increasing

/-- The indices of the leaves increase if those of all elements do. -/
theorem leaves {elements : List Element} (h : Increasing elements) :
    (leaves elements).Pairwise fun a b ↦ a.1 < b.1 := by
  refine List.Pairwise.filterMap _ ?_ h
  intro a b hlt first hfirst second hsecond
  cases a <;> cases b <;> cases hfirst <;> cases hsecond
  exact hlt

/-- The operators of a sequence stand at different places. -/
theorem nodup_occurrences {elements : List Element} (h : Increasing elements) :
    ((occurrences elements).map Occurrence.index).Nodup := by
  rw [List.nodup_iff_pairwise_ne, List.pairwise_map]
  refine List.Pairwise.filterMap _ ?_ h
  intro a b hlt first hfirst second hsecond
  cases a <;> cases b <;> cases hfirst <;> cases hsecond
  exact Nat.ne_of_lt hlt

end Increasing

namespace Gathered

/-- Put a sequence in front of gathered leaves and operators. -/
def prepend (elements : List Element) (gathered : Gathered) : Gathered :=
  elements.foldr Element.addTo gathered

/-- Nothing is put in front. -/
@[simp] theorem prepend_nil (gathered : Gathered) : gathered.prepend [] = gathered := rfl

/-- The first of several elements is put in front last. -/
@[simp] theorem prepend_cons (element : Element) (rest : List Element) (gathered : Gathered) :
    gathered.prepend (element :: rest) = element.addTo (gathered.prepend rest) := rfl

/-- Elements in two groups are put in front, the second group first. -/
theorem prepend_append (front back : List Element) (gathered : Gathered) :
    gathered.prepend (front ++ back) = (gathered.prepend back).prepend front := List.foldr_append

/-- The gathered leaves and operators of a sequence. -/
def ofElements (elements : List Element) : Gathered := Gathered.empty.prepend elements

/-- The operators that are gathered are those of the elements, in order. -/
theorem operators_ofElements (elements : List Element) :
    (ofElements elements).operators = occurrences elements := by
  induction elements with
  | nil => rfl
  | cons element rest ih =>
    cases element with
    | leaf index operand => exact ih
    | operator occurrence => exact congrArg (occurrence :: ·) ih

/-- The entries of the pool are the leaves, in order. -/
theorem entries_ofElements {elements : List Element} (h : Increasing elements) :
    (ofElements elements).pool.entries = leaves elements := by
  induction elements with
  | nil => rfl
  | cons element rest ih =>
    obtain ⟨hfirst, hrest⟩ := List.pairwise_cons.1 h
    specialize ih hrest
    cases element with
    | operator occurrence => exact ih
    | leaf index operand =>
      have hgt : ∀ entry ∈ leaves rest, index < entry.1 := forall_mem_leaves (index < ·) hfirst
      rw [← ih] at hgt
      show (OperandPool.insert (ofElements rest).pool index operand).entries = _
      rw [OperandPool.entries_insert, OperandPool.left_eq_nil hgt,
        OperandPool.right_eq_entries hgt, ih]
      rfl

/-- The leaves of a sequence, put in one after the other, are its pool. -/
theorem ofList_leaves {elements : List Element} (h : Increasing elements) :
    OperandPool.ofList (leaves elements) = (ofElements elements).pool := by
  refine OperandPool.ext ?_
  rw [entries_ofElements h]
  exact OperandPool.entries_ofList h.leaves

end Gathered

/-! ### Splitting a pool -/

namespace OperandPool

/-- An operand of the pool after a step is the result of the operator or was there before. -/
theorem mem_of_build? {pool built : OperandPool} {occurrence : Occurrence}
    (h : pool.build? occurrence = some built) {entry : Nat × Expr}
    (hentry : entry ∈ built.entries) : entry.1 = occurrence.index ∨ entry ∈ pool.entries := by
  obtain ⟨before, left, right, after, hleft, hright, hentries⟩ := build?_eq_some_iff.1 h
  have hsubset : ∀ entry ∈ before ++ after, entry ∈ pool.entries := by
    intro entry hmem
    rcases List.mem_append.1 hmem with hmem | hmem
    · exact mem_of_mem_left (by rw [hleft]; simp [hmem])
    · exact mem_of_mem_right (by rw [hright]; simp [hmem])
  rw [hentries, List.mem_append, List.mem_cons] at hentry
  rcases hentry with hentry | rfl | hentry
  · exact .inr (hsubset entry (List.mem_append_left _ hentry))
  · exact .inl rfl
  · exact .inr (hsubset entry (List.mem_append_right _ hentry))

/-- An operand of a pool after operators are built stands where an operator was built, or was there
before. -/
theorem mem_of_buildAll? {pool built : OperandPool} {order : List Occurrence}
    (h : pool.buildAll? order = some built) {entry : Nat × Expr} (hentry : entry ∈ built.entries) :
    (∃ occurrence ∈ order, entry.1 = occurrence.index) ∨ entry ∈ pool.entries := by
  unfold buildAll? at h
  induction order generalizing pool with
  | nil =>
    cases h
    exact .inr hentry
  | cons occurrence rest ih =>
    rw [List.foldlM_cons] at h
    obtain ⟨next, hnext, h⟩ := Option.bind_eq_some_iff.1 h
    rcases ih h with ⟨other, hother, heq⟩ | hmem
    · exact .inl ⟨other, List.mem_cons_of_mem _ hother, heq⟩
    · rcases mem_of_build? hnext hmem with heq | hmem
      · exact .inl ⟨occurrence, List.mem_cons_self, heq⟩
      · exact .inr hmem

/-- An operator that finds its operands among the first entries of a pool leaves the others as they
are. -/
theorem build?_append_left {pool front back built : OperandPool} {occurrence : Occurrence}
    (hpool : pool.entries = front.entries ++ back.entries)
    (hback : ∀ entry ∈ back.entries, occurrence.index < entry.1)
    (h : front.build? occurrence = some built) :
    ∃ all, pool.build? occurrence = some all ∧ all.entries = built.entries ++ back.entries := by
  obtain ⟨before, left, right, after, hleft, hright, hentries⟩ := build?_eq_some_iff.1 h
  have hleftAll : pool.left occurrence.index = before ++ [left] := by
    rw [left_append hpool, hleft, left_eq_nil hback, List.append_nil]
  have hrightAll : pool.right occurrence.index = right :: (after ++ back.entries) := by
    rw [right_append hpool, hright, right_eq_entries hback, List.cons_append]
  obtain ⟨all, hall, hallEntries⟩ := exists_build? hleftAll hrightAll
  exact ⟨all, hall, by rw [hallEntries, hentries]; simp⟩

/-- An operator that finds its operands among the last entries of a pool leaves the others as they
are. -/
theorem build?_append_right {pool front back built : OperandPool} {occurrence : Occurrence}
    (hpool : pool.entries = front.entries ++ back.entries)
    (hfront : ∀ entry ∈ front.entries, entry.1 < occurrence.index)
    (h : back.build? occurrence = some built) :
    ∃ all, pool.build? occurrence = some all ∧ all.entries = front.entries ++ built.entries := by
  obtain ⟨before, left, right, after, hleft, hright, hentries⟩ := build?_eq_some_iff.1 h
  have hleftAll : pool.left occurrence.index = (front.entries ++ before) ++ [left] := by
    rw [left_append hpool, hleft, left_eq_entries hfront, List.append_assoc]
  have hrightAll : pool.right occurrence.index = right :: after := by
    rw [right_append hpool, hright, right_eq_nil hfront, List.nil_append]
  obtain ⟨all, hall, hallEntries⟩ := exists_build? hleftAll hrightAll
  exact ⟨all, hall, by rw [hallEntries, hentries]; simp⟩

/-- Operators on both sides of an index are built as if the other side were not there. -/
theorem buildAll?_split {index : Nat} {order : List Occurrence}
    {pool front back frontBuilt backBuilt : OperandPool}
    (hpool : pool.entries = front.entries ++ back.entries)
    (hfront : ∀ entry ∈ front.entries, entry.1 < index)
    (hback : ∀ entry ∈ back.entries, index < entry.1)
    (hindex : ∀ occurrence ∈ order, occurrence.index ≠ index)
    (hfrontBuilt : front.buildAll? (order.filter (·.index < index)) = some frontBuilt)
    (hbackBuilt : back.buildAll? (order.filter (index < ·.index)) = some backBuilt) :
    ∃ built, pool.buildAll? order = some built ∧
      built.entries = frontBuilt.entries ++ backBuilt.entries := by
  unfold buildAll? at *
  -- each operator finds both operands on its own side, where it also leaves its result
  induction order generalizing pool front back with
  | nil =>
    cases hfrontBuilt
    cases hbackBuilt
    exact ⟨pool, rfl, hpool⟩
  | cons occurrence rest ih =>
    obtain ⟨hne, hrest⟩ := List.forall_mem_cons.1 hindex
    rcases Nat.lt_or_gt_of_ne hne with hlt | hgt
    · rw [List.filter_cons_of_pos (by simpa using hlt), List.foldlM_cons] at hfrontBuilt
      rw [List.filter_cons_of_neg (by simp only [decide_eq_true_eq]; omega)] at hbackBuilt
      obtain ⟨next, hnext, hfrontBuilt⟩ := Option.bind_eq_some_iff.1 hfrontBuilt
      obtain ⟨all, hall, hallEntries⟩ := build?_append_left hpool
        (fun entry hentry ↦ Nat.lt_trans hlt (hback entry hentry)) hnext
      rw [List.foldlM_cons, hall]
      refine ih hallEntries (fun entry hentry ↦ ?_) hback hrest hfrontBuilt hbackBuilt
      rcases mem_of_build? hnext hentry with heq | hmem
      · exact heq ▸ hlt
      · exact hfront entry hmem
    · rw [List.filter_cons_of_neg (by simp only [decide_eq_true_eq]; omega)] at hfrontBuilt
      rw [List.filter_cons_of_pos (by simpa using hgt), List.foldlM_cons] at hbackBuilt
      obtain ⟨next, hnext, hbackBuilt⟩ := Option.bind_eq_some_iff.1 hbackBuilt
      obtain ⟨all, hall, hallEntries⟩ := build?_append_right hpool
        (fun entry hentry ↦ Nat.lt_trans (hfront entry hentry) hgt) hnext
      rw [List.foldlM_cons, hall]
      refine ih hallEntries hfront (fun entry hentry ↦ ?_) hrest hfrontBuilt hbackBuilt
      rcases mem_of_build? hnext hentry with heq | hmem
      · exact heq ▸ hgt
      · exact hback entry hmem

end OperandPool

/-! ### What a sequence stands for -/

/-- `Builds elements e` says that a sequence stands for `e`: it is a leaf, or its last operator in
construction order stands between two sequences that stand for the operands. -/
inductive Builds : List Element → Expr → Prop where
  | leaf (index : Nat) (operand : Expr) : Builds [.leaf index operand] operand
  | operator {front back : List Element} {left right : Expr} (occurrence : Occurrence) :
      Builds front left → Builds back right →
      (∀ other ∈ occurrences front ++ occurrences back, other.comesFirst occurrence = true) →
      Builds (front ++ .operator occurrence :: back) (.binary occurrence.operator left right)

namespace Increasing

variable {front back : List Element} {occurrence : Occurrence}

/-- A sequence around an operator increases on both sides of it. -/
theorem split (h : Increasing (front ++ .operator occurrence :: back)) :
    Increasing front ∧ Increasing back ∧ (∀ element ∈ front, element.index < occurrence.index) ∧
      ∀ element ∈ back, occurrence.index < element.index := by
  obtain ⟨hfront, hrest, hcross⟩ := List.pairwise_append.1 h
  obtain ⟨hafter, hback⟩ := List.pairwise_cons.1 hrest
  exact ⟨hfront, hback,
    fun element helement ↦ hcross element helement (.operator occurrence) (by simp), hafter⟩

end Increasing

/-- The operators on the left of an operator between two sequences. -/
theorem filter_occurrences_left {front back : List Element} {occurrence : Occurrence}
    (hfront : ∀ element ∈ front, element.index < occurrence.index)
    (hback : ∀ element ∈ back, occurrence.index < element.index) :
    (occurrences (front ++ .operator occurrence :: back)).filter (·.index < occurrence.index) =
      occurrences front := by
  rw [occurrences_append, occurrences_cons_operator, List.filter_append, List.filter_eq_self.2,
    List.filter_eq_nil_iff.2, List.append_nil]
  · refine List.forall_mem_cons.2 ⟨by simp, fun other hother ↦ ?_⟩
    have : occurrence.index < other.index := hback _ (mem_of_mem_occurrences hother)
    simpa using Nat.le_of_lt this
  · exact fun other hother ↦ decide_eq_true (hfront _ (mem_of_mem_occurrences hother))

/-- The operators on the right of an operator between two sequences. -/
theorem filter_occurrences_right {front back : List Element} {occurrence : Occurrence}
    (hfront : ∀ element ∈ front, element.index < occurrence.index)
    (hback : ∀ element ∈ back, occurrence.index < element.index) :
    (occurrences (front ++ .operator occurrence :: back)).filter (occurrence.index < ·.index) =
      occurrences back := by
  rw [occurrences_append, occurrences_cons_operator, List.filter_append, List.filter_eq_nil_iff.2,
    List.filter_cons_of_neg (by simp), List.filter_eq_self.2, List.nil_append]
  · exact fun other hother ↦ decide_eq_true (hback _ (mem_of_mem_occurrences hother))
  · intro other hother
    have : other.index < occurrence.index := hfront _ (mem_of_mem_occurrences hother)
    simpa using Nat.le_of_lt this

/-- The entry of an operator stands for its operands once both sides of it are built. -/
theorem OperandPool.build?_pair {pool : OperandPool} {occurrence : Occurrence} {first last : Nat}
    {left right : Expr} (h : pool.entries = [(first, left), (last, right)])
    (hfirst : first < occurrence.index) (hlast : occurrence.index < last) :
    ∃ built, pool.build? occurrence = some built ∧
      built.entries = [(occurrence.index, .binary occurrence.operator left right)] := by
  refine exists_build? (?_ : _ = [] ++ [(first, left)]) (?_ : _ = [(last, right)])
  · simp only [OperandPool.left, h]
    grind
  · simp only [OperandPool.right, h]
    grind

namespace Gathered

/-- A sequence with a tree is assembled into a single operand, at the place of an element. -/
theorem exists_of_tree? {elements : List Element} {e : Expr}
    (h : (ofElements elements).tree? = some e) (hincreasing : Increasing elements) :
    ∃ built, (ofElements elements).pool.buildAll? (constructionOrder (occurrences elements)) =
      some built ∧ ∃ element ∈ elements, built.entries = [(element.index, e)] := by
  obtain ⟨built, hbuilt, hsingle⟩ := Option.bind_eq_some_iff.1 h
  rw [operators_ofElements] at hbuilt
  refine ⟨built, hbuilt, ?_⟩
  unfold OperandPool.single? at hsingle
  split at hsingle
  · rename_i index operand hentries
    cases hsingle
    have hmem : (index, e) ∈ built.entries := by rw [hentries]; exact List.mem_singleton.2 rfl
    rcases OperandPool.mem_of_buildAll? hbuilt hmem with ⟨occurrence, hoccurrence, heq⟩ | hleaf
    · have hoccurrence := (constructionOrder_perm _).mem_iff.1 hoccurrence
      refine ⟨_, mem_of_mem_occurrences hoccurrence, ?_⟩
      rw [hentries, Element.index, ← heq]
    · rw [entries_ofElements hincreasing] at hleaf
      obtain ⟨element, helement, heq⟩ := exists_of_mem_leaves hleaf
      exact ⟨element, helement, by rw [hentries, heq]⟩
  · cases hsingle

/-- An operator between two sequences with trees is the root of both, if all other operators are
built before it. -/
theorem tree?_between {front back : List Element} {left right : Expr} {occurrence : Occurrence}
    (hincreasing : Increasing (front ++ .operator occurrence :: back))
    (hfirst : ∀ other ∈ occurrences front ++ occurrences back,
      other.comesFirst occurrence = true)
    (hleft : (ofElements front).tree? = some left)
    (hright : (ofElements back).tree? = some right) :
    (ofElements (front ++ .operator occurrence :: back)).tree? =
      some (.binary occurrence.operator left right) := by
  obtain ⟨hfront, hback, hbefore, hafter⟩ := hincreasing.split
  have hne : ∀ other ∈ occurrences front ++ occurrences back, other.index ≠ occurrence.index := by
    intro other hother
    rcases List.mem_append.1 hother with hother | hother
    · exact Nat.ne_of_lt (hbefore _ (mem_of_mem_occurrences hother))
    · exact Nat.ne_of_gt (hafter _ (mem_of_mem_occurrences hother))
  -- the root comes last in the construction order
  obtain ⟨order, horder, hothers⟩ := exists_eq_append_last
    (pairwise_constructionOrder (occurrences (front ++ .operator occurrence :: back)))
    ((constructionOrder_perm _).trans (by simp))
    fun other hother ↦ ⟨hfirst other hother, hne other hother⟩
  have hfrontOrder : order.filter (·.index < occurrence.index) =
      constructionOrder (occurrences front) := by
    rw [← filter_occurrences_left hbefore hafter, ← filter_constructionOrder, horder]
    simp
  have hbackOrder : order.filter (occurrence.index < ·.index) =
      constructionOrder (occurrences back) := by
    rw [← filter_occurrences_right hbefore hafter, ← filter_constructionOrder, horder]
    simp
  obtain ⟨frontBuilt, hfrontBuilt, first, hfirstMem, hfrontEntries⟩ := exists_of_tree? hleft hfront
  obtain ⟨backBuilt, hbackBuilt, last, hlastMem, hbackEntries⟩ := exists_of_tree? hright hback
  rw [← hfrontOrder] at hfrontBuilt
  rw [← hbackOrder] at hbackBuilt
  have hsplit : (ofElements (front ++ .operator occurrence :: back)).pool.entries =
      (ofElements front).pool.entries ++ (ofElements back).pool.entries := by
    rw [entries_ofElements hincreasing, entries_ofElements hfront, entries_ofElements hback,
      leaves_append, leaves_cons_operator]
  -- the operators of the two sides are interleaved, but neither side sees the other
  obtain ⟨sides, hsides, hsidesEntries⟩ := OperandPool.buildAll?_split hsplit
    (by rw [entries_ofElements hfront]; exact forall_mem_leaves (· < occurrence.index) hbefore)
    (by rw [entries_ofElements hback]; exact forall_mem_leaves (occurrence.index < ·) hafter)
    (fun other hother ↦ hne other (hothers.mem_iff.1 hother)) hfrontBuilt hbackBuilt
  rw [hfrontEntries, hbackEntries] at hsidesEntries
  obtain ⟨built, hbuilt, hentries⟩ := OperandPool.build?_pair hsidesEntries
    (hbefore first hfirstMem) (hafter last hlastMem)
  rw [tree?, operators_ofElements, horder]
  unfold OperandPool.buildAll? at hsides ⊢
  rw [List.foldlM_append, hsides]
  simp [hbuilt, OperandPool.single?, hentries]

end Gathered

/-- A sequence is assembled into the tree it stands for. -/
theorem Builds.tree? {elements : List Element} {e : Expr} (h : Builds elements e)
    (hincreasing : Increasing elements) : (Gathered.ofElements elements).tree? = some e := by
  induction h with
  | leaf index operand => rfl
  | operator occurrence hleft hright hfirst ihleft ihright =>
    obtain ⟨hfront, hback, -, -⟩ := hincreasing.split
    exact Gathered.tree?_between hincreasing hfirst (ihleft hfront) (ihright hback)

end Nabla.Formula
