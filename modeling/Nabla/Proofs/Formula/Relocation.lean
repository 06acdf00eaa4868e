import Mathlib.Order.Monotone.Basic
import Nabla.Proofs.Formula.Building
import Nabla.Proofs.Formula.ConstructionOrder
import Nabla.Proofs.Formula.Sequence

/-!
# Assemblies at other indices

An assembly compares indices and points at their regions, and does nothing else with them. So when
the indices are changed in a way that keeps their order, it comes to the same tree, or to a fault of
the same cause at the changed index. `endAlike_assemble` says so for every pool and every order,
where the change keeps the order of the indices that occur; `agree_assemble_relocate` is the case of
a change of all indices, with the new indices in the regions of the old ones.
-/

namespace Nabla.Formula

/-! ### Outcomes that agree -/

/-- Two outcomes agree if they are the same tree, or faults of the same cause that point at the same
regions. Where there is nothing to read the regions may differ. -/
def Agree : Except Fault Expr → Except Fault Expr → Prop
  | .ok e, .ok other => e = other
  | .error fault, .error other =>
      fault.cause = other.cause ∧ (fault.cause ≠ .emptyInput → fault.spans = other.spans)
  | _, _ => False

/-- An outcome agrees with itself. -/
theorem Agree.refl (outcome : Except Fault Expr) : Agree outcome outcome := by
  cases outcome with
  | ok e => rfl
  | error fault => exact ⟨rfl, fun _ ↦ rfl⟩

/-! ### Relocation -/

section Relocation

variable {place : Nat → Nat} {indices : Set Nat}

/-- An operator at another index. -/
def Occurrence.relocate (place : Nat → Nat) (occurrence : Occurrence) : Occurrence :=
  { occurrence with index := place occurrence.index }

/-- An element at another index. -/
def Element.relocate (place : Nat → Nat) : Element → Element
  | leaf index operand => leaf (place index) operand
  | operator occurrence => operator (occurrence.relocate place)

/-- The entries of a pool at other indices. -/
def relocateEntries (place : Nat → Nat) (entries : List (Nat × Expr)) : List (Nat × Expr) :=
  entries.map fun entry ↦ (place entry.1, entry.2)

/-- A pool at other indices of the same order. -/
def OperandPool.relocate (pool : OperandPool) (hplace : StrictMono place) : OperandPool where
  entries := relocateEntries place pool.entries
  increasing := by
    refine List.pairwise_map.2 (pool.increasing.imp ?_)
    intro first second hlt
    exact hplace hlt

/-- The leaves of moved elements are the moved leaves. -/
theorem leaves_relocate (place : Nat → Nat) (elements : List Element) :
    leaves (elements.map (Element.relocate place)) = relocateEntries place (leaves elements) := by
  induction elements with
  | nil => rfl
  | cons element rest ih =>
    cases element with
    | leaf index operand => exact congrArg ((place index, operand) :: ·) ih
    | operator occurrence => exact ih

/-- The operators of moved elements are the moved operators. -/
theorem occurrences_relocate (place : Nat → Nat) (elements : List Element) :
    occurrences (elements.map (Element.relocate place)) =
      (occurrences elements).map (Occurrence.relocate place) := by
  induction elements with
  | nil => rfl
  | cons element rest ih =>
    cases element with
    | leaf index operand => exact ih
    | operator occurrence => exact congrArg (occurrence.relocate place :: ·) ih

/-! ### The construction order -/

/-- Of two operators that are moved without a change of order the same one comes first. -/
theorem Occurrence.comesFirst_relocate (hplace : StrictMonoOn place indices) {a b : Occurrence}
    (ha : a.index ∈ indices) (hb : b.index ∈ indices) :
    (a.relocate place).comesFirst (b.relocate place) = a.comesFirst b := by
  unfold comesFirst relocate
  simp only [hplace.le_iff_le hb ha]

/-- Operators that are moved without a change of order are built in the same order. -/
theorem constructionOrder_relocateOn (hplace : StrictMonoOn place indices)
    {operators : List Occurrence} (h : ∀ occurrence ∈ operators, occurrence.index ∈ indices) :
    constructionOrder (operators.map (Occurrence.relocate place)) =
      (constructionOrder operators).map (Occurrence.relocate place) :=
  constructionOrder_map fun a ha b hb ↦ Occurrence.comesFirst_relocate hplace (h a ha) (h b hb)

/-- The same for a map that keeps the order of all indices. -/
theorem constructionOrder_relocate (hplace : StrictMono place) (operators : List Occurrence) :
    constructionOrder (operators.map (Occurrence.relocate place)) =
      (constructionOrder operators).map (Occurrence.relocate place) :=
  constructionOrder_relocateOn (hplace.strictMonoOn Set.univ) fun _ _ ↦ trivial

/-! ### One step -/

namespace OperandPool

/-- The operands of a pool stand in another one at other indices. -/
structure Relocated (place : Nat → Nat) (indices : Set Nat) (pool other : OperandPool) : Prop where
  entries : other.entries = relocateEntries place pool.entries
  indices : ∀ entry ∈ pool.entries, entry.1 ∈ indices

/-- A pool that is moved has its operands at the other indices. -/
theorem relocated_relocate (pool : OperandPool) (hplace : StrictMono place) :
    Relocated place Set.univ pool (pool.relocate hplace) :=
  ⟨rfl, fun _ _ ↦ trivial⟩

namespace Relocated

variable {pool other : OperandPool} {index : Nat}

/-- What is to the left of the other index is what was to the left of the index. -/
theorem left (h : Relocated place indices pool other) (hplace : StrictMonoOn place indices)
    (hindex : index ∈ indices) :
    other.left (place index) = relocateEntries place (pool.left index) := by
  unfold OperandPool.left
  rw [h.entries, relocateEntries, relocateEntries, List.filter_map]
  congr 1
  refine List.filter_congr fun entry hentry ↦ ?_
  simp only [Function.comp_apply, hplace.lt_iff_lt (h.indices entry hentry) hindex]

/-- What is to the right of the other index is what was to the right of the index. -/
theorem right (h : Relocated place indices pool other) (hplace : StrictMonoOn place indices)
    (hindex : index ∈ indices) :
    other.right (place index) = relocateEntries place (pool.right index) := by
  unfold OperandPool.right
  rw [h.entries, relocateEntries, relocateEntries, List.filter_map]
  congr 1
  refine List.filter_congr fun entry hentry ↦ ?_
  simp only [Function.comp_apply, hplace.lt_iff_lt hindex (h.indices entry hentry)]

/-- An operator lacks an operand at the one index exactly if it does at the other, and otherwise its
result stands in place of operands that correspond. -/
theorem build? (h : Relocated place indices pool other) (hplace : StrictMonoOn place indices)
    {occurrence : Occurrence} (hindex : occurrence.index ∈ indices) :
    Option.Rel (Relocated place indices) (pool.build? occurrence)
      (other.build? (occurrence.relocate place)) := by
  have hleftAll : other.left (occurrence.relocate place).index = _ := h.left hplace hindex
  have hrightAll : other.right (occurrence.relocate place).index = _ := h.right hplace hindex
  rcases List.eq_nil_or_concat (pool.left occurrence.index) with hleft | ⟨before, left, hleft⟩
  · rw [hleft] at hleftAll
    rw [build?_eq_none_of_left hleft, build?_eq_none_of_left hleftAll]
    exact .none
  · cases hright : pool.right occurrence.index with
    | nil =>
      rw [hright] at hrightAll
      rw [build?_eq_none_of_right hright, build?_eq_none_of_right hrightAll]
      exact .none
    | cons right after =>
      rw [List.concat_eq_append] at hleft
      rw [hleft, relocateEntries, List.map_append] at hleftAll
      rw [hright] at hrightAll
      obtain ⟨built, hbuilt, hentries⟩ := exists_build? hleft hright
      obtain ⟨moved, hmoved, hmovedEntries⟩ := exists_build? hleftAll hrightAll
      rw [hbuilt, hmoved]
      refine .some ⟨?_, fun entry hentry ↦ ?_⟩
      · rw [hmovedEntries, hentries, relocateEntries, List.map_append]
        rfl
      · rcases mem_of_build? hbuilt hentry with heq | hmem
        · rw [heq]
          exact hindex
        · exact h.indices entry hmem

end Relocated

/-- What is to the left of an index in a pool that is moved. -/
theorem left_relocate (pool : OperandPool) (hplace : StrictMono place) (index : Nat) :
    (pool.relocate hplace).left (place index) = relocateEntries place (pool.left index) :=
  (pool.relocated_relocate hplace).left (hplace.strictMonoOn _) trivial

/-- What is to the right of an index in a pool that is moved. -/
theorem right_relocate (pool : OperandPool) (hplace : StrictMono place) (index : Nat) :
    (pool.relocate hplace).right (place index) = relocateEntries place (pool.right index) :=
  (pool.relocated_relocate hplace).right (hplace.strictMonoOn _) trivial

/-- Putting an operand in at another index. -/
theorem insert_relocate (pool : OperandPool) (hplace : StrictMono place) (index : Nat)
    (operand : Expr) :
    (pool.relocate hplace).insert (place index) operand =
      (pool.insert index operand).relocate hplace := by
  refine ext ?_
  show (pool.relocate hplace).left (place index) ++
      (place index, operand) :: (pool.relocate hplace).right (place index) =
    relocateEntries place (pool.left index ++ (index, operand) :: pool.right index)
  rw [pool.left_relocate hplace, pool.right_relocate hplace, relocateEntries, relocateEntries,
    relocateEntries, List.map_append, List.map_cons]

/-- The pool of operands at other indices. -/
theorem ofList_relocateEntries (hplace : StrictMono place) (operands : List (Nat × Expr)) :
    ofList (relocateEntries place operands) = (ofList operands).relocate hplace := by
  suffices hfold : ∀ pool : OperandPool,
      (relocateEntries place operands).foldl (fun pool entry ↦ pool.insert entry.1 entry.2)
          (pool.relocate hplace) =
        (operands.foldl (fun pool entry ↦ pool.insert entry.1 entry.2) pool).relocate hplace
      from hfold empty
  intro pool
  induction operands generalizing pool with
  | nil => rfl
  | cons entry rest ih =>
    show (relocateEntries place rest).foldl _
      ((pool.relocate hplace).insert (place entry.1) entry.2) = _
    rw [pool.insert_relocate hplace]
    exact ih (pool.insert entry.1 entry.2)

/-- Building an operator at another index. -/
theorem build?_relocate (pool : OperandPool) (hplace : StrictMono place) (occurrence : Occurrence) :
    (pool.relocate hplace).build? (occurrence.relocate place) =
      (pool.build? occurrence).map (·.relocate hplace) := by
  have hstep : Option.Rel (Relocated place Set.univ) (pool.build? occurrence)
      ((pool.relocate hplace).build? (occurrence.relocate place)) :=
    (pool.relocated_relocate hplace).build? (hplace.strictMonoOn _) trivial
  generalize pool.build? occurrence = built,
    (pool.relocate hplace).build? (occurrence.relocate place) = moved at hstep ⊢
  cases hstep with
  | none => rfl
  | some hmoved => exact congrArg some (ext hmoved.entries)

end OperandPool

/-! ### Assemblies -/

/-- Two assemblies, of which the second one has other indices, come to the same tree or to faults of
the same cause. The fault of the first one points at the region of an index, and that of the second
one at the region of the index that it is changed to. Without operands both point at the region for
that. -/
inductive EndAlike (place : Nat → Nat) (indices : Set Nat) :
    (Regions → Except Fault Expr) → (Regions → Except Fault Expr) → Prop where
  | tree (e : Expr) : EndAlike place indices (fun _ ↦ .ok e) fun _ ↦ .ok e
  | fault (cause : Cause) {index : Nat} (hindex : index ∈ indices) :
      EndAlike place indices (fun regions ↦ .error ⟨cause, [regions.ofIndex index]⟩)
        fun regions ↦ .error ⟨cause, [regions.ofIndex (place index)]⟩
  | empty :
      EndAlike place indices (fun regions ↦ .error ⟨.emptyInput, [regions.ofEmpty]⟩)
        fun regions ↦ .error ⟨.emptyInput, [regions.ofEmpty]⟩

/-- Where the regions of corresponding indices are the same, so are the outcomes. -/
theorem EndAlike.agree {first second : Regions → Except Fault Expr}
    (h : EndAlike place indices first second) {regions other : Regions}
    (hregions : ∀ index ∈ indices, other.ofIndex (place index) = regions.ofIndex index) :
    Agree (first regions) (second other) := by
  cases h with
  | tree e => exact rfl
  | fault cause hindex => exact ⟨rfl, fun _ ↦ congrArg ([·]) (hregions _ hindex).symm⟩
  | empty => exact ⟨rfl, fun hcause ↦ absurd rfl hcause⟩

/-- Corresponding pools end in the same tree, or in faults at corresponding operands. -/
theorem OperandPool.Relocated.endAlike_single {pool other : OperandPool}
    (h : Relocated place indices pool other) :
    EndAlike place indices (fun regions ↦ pool.single regions)
      (fun regions ↦ other.single regions) := by
  unfold single
  rw [h.entries]
  have hindices := h.indices
  generalize pool.entries = entries at hindices ⊢
  rcases entries with _ | ⟨first, _ | ⟨second, rest⟩⟩
  · exact .empty
  · exact .tree first.2
  · exact .fault .missingOperator (hindices second (List.mem_cons_of_mem _ List.mem_cons_self))

/-- Assembling at other indices of the same order. -/
theorem endAlike_assemble (hplace : StrictMonoOn place indices) {pool other : OperandPool}
    (hpool : OperandPool.Relocated place indices pool other) {order : List Occurrence}
    (horder : ∀ occurrence ∈ order, occurrence.index ∈ indices) :
    EndAlike place indices (fun regions ↦ (assemble regions pool order).outcome)
      fun regions ↦ (assemble regions other (order.map (Occurrence.relocate place))).outcome := by
  induction order generalizing pool other with
  | nil => exact hpool.endAlike_single
  | cons occurrence rest ih =>
    obtain ⟨hindex, hrest⟩ := List.forall_mem_cons.1 horder
    simp only [List.map_cons, outcome_assemble_cons]
    have hstep := hpool.build? hplace hindex
    generalize pool.build? occurrence = built,
      other.build? (occurrence.relocate place) = moved at hstep ⊢
    cases hstep with
    | some hmoved => exact ih hmoved hrest
    | none =>
      -- the left operand is missed first, and it is missing on both sides or on none
      have hempty : (other.left (occurrence.relocate place).index).isEmpty =
          (pool.left occurrence.index).isEmpty := by
        rw [show other.left (occurrence.relocate place).index = _ from hpool.left hplace hindex,
          relocateEntries, List.isEmpty_map]
      unfold OperandPool.missing
      rw [hempty]
      exact .fault _ hindex

/-- The regions of the operands of a pool and of operators, at other indices. -/
structure SameRegions (place : Nat → Nat) (regions other : Regions) (pool : OperandPool)
    (order : List Occurrence) : Prop where
  pool : ∀ entry ∈ pool.entries, other.ofIndex (place entry.1) = regions.ofIndex entry.1
  order : ∀ occurrence ∈ order,
    other.ofIndex (place occurrence.index) = regions.ofIndex occurrence.index

/-- Assembling at other indices of the same order and the same regions. -/
theorem agree_assemble_relocate (hplace : StrictMono place) {regions other : Regions}
    {pool : OperandPool} {order : List Occurrence}
    (h : SameRegions place regions other pool order) :
    Agree (assemble regions pool order).outcome
      (assemble other (pool.relocate hplace) (order.map (Occurrence.relocate place))).outcome := by
  let same : Set Nat := {index | other.ofIndex (place index) = regions.ofIndex index}
  have hpool : OperandPool.Relocated place same pool (pool.relocate hplace) := ⟨rfl, h.pool⟩
  exact (endAlike_assemble (hplace.strictMonoOn same) hpool h.order).agree fun _ hindex ↦ hindex

end Relocation

end Nabla.Formula
