import Nabla.Formula.Assembly

/-!
# Building one operator

`build?` is one step of an assembly: the nearest operands on both sides of an operator give way to
its result. `build?_eq_some_iff` says what the step does to the entries of a pool, and
`outcome_assemble_cons` that an assembly is such steps, with the fault of the first operator that
lacks an operand. `tree?` is the tree of gathered leaves and operators, whatever regions their
faults would point at.
-/

namespace Nabla.Formula

namespace OperandPool

/-- Pools of the same entries are the same. -/
@[ext] theorem ext {pool other : OperandPool} (h : pool.entries = other.entries) :
    pool = other := by
  cases pool
  cases other
  cases h
  rfl

/-- The pool after an operator is built, if there are operands on both sides of it. -/
def build? (pool : OperandPool) (occurrence : Occurrence) : Option OperandPool :=
  match pool.takeLeft? occurrence.index with
  | none => none
  | some (left, rest) =>
      match rest.takeRight? occurrence.index with
      | none => none
      | some (right, rest) =>
          some (rest.insert occurrence.index (.binary occurrence.operator left right))

/-- The pool after operators are built one after the other. -/
def buildAll? (pool : OperandPool) (order : List Occurrence) : Option OperandPool :=
  order.foldlM build? pool

/-- The only operand of a pool. -/
def single? (pool : OperandPool) : Option Expr :=
  match pool.entries with
  | [(_, operand)] => some operand
  | _ => none

/-- The fault of an operator that lacks an operand. The left one is missed first. -/
def missing (regions : Regions) (pool : OperandPool) (occurrence : Occurrence) : Fault :=
  ⟨if (pool.left occurrence.index).isEmpty
    then .missingLeftOperand occurrence.operator.character
    else .missingRightOperand occurrence.operator.character, [regions.ofIndex occurrence.index]⟩

/-! ### Sides of a pool -/

/-- A new operand stands between those on its left and those on its right. -/
theorem entries_insert (pool : OperandPool) (index : Nat) (operand : Expr) :
    (pool.insert index operand).entries =
      pool.left index ++ (index, operand) :: pool.right index := rfl

/-- What is to the left of an index in two pools together. -/
theorem left_append {pool front back : OperandPool}
    (h : pool.entries = front.entries ++ back.entries)
    (index : Nat) : pool.left index = front.left index ++ back.left index := by
  simp only [left, h, List.filter_append]

/-- What is to the right of an index in two pools together. -/
theorem right_append {pool front back : OperandPool}
    (h : pool.entries = front.entries ++ back.entries) (index : Nat) :
    pool.right index = front.right index ++ back.right index := by
  simp only [right, h, List.filter_append]

/-- All operands are to the left of an index behind them. -/
theorem left_eq_entries {pool : OperandPool} {index : Nat}
    (h : ∀ entry ∈ pool.entries, entry.1 < index) : pool.left index = pool.entries := by
  rw [left, List.filter_eq_self]
  exact fun entry hentry ↦ decide_eq_true (h entry hentry)

/-- No operand is to the left of an index in front of them. -/
theorem left_eq_nil {pool : OperandPool} {index : Nat}
    (h : ∀ entry ∈ pool.entries, index < entry.1) : pool.left index = [] := by
  rw [left, List.filter_eq_nil_iff]
  exact fun entry hentry ↦ by simpa using Nat.le_of_lt (h entry hentry)

/-- All operands are to the right of an index in front of them. -/
theorem right_eq_entries {pool : OperandPool} {index : Nat}
    (h : ∀ entry ∈ pool.entries, index < entry.1) : pool.right index = pool.entries := by
  rw [right, List.filter_eq_self]
  exact fun entry hentry ↦ decide_eq_true (h entry hentry)

/-- No operand is to the right of an index behind them. -/
theorem right_eq_nil {pool : OperandPool} {index : Nat}
    (h : ∀ entry ∈ pool.entries, entry.1 < index) : pool.right index = [] := by
  rw [right, List.filter_eq_nil_iff]
  exact fun entry hentry ↦ by simpa using Nat.le_of_lt (h entry hentry)

/-- A pool without an operand at an index consists of its two sides. -/
theorem entries_eq_left_append_right {pool : OperandPool} {index : Nat}
    (h : ∀ entry ∈ pool.entries, entry.1 ≠ index) :
    pool.entries = pool.left index ++ pool.right index := by
  have hincreasing := pool.increasing
  unfold left right
  generalize pool.entries = entries at h hincreasing
  induction entries with
  | nil => rfl
  | cons entry rest ih =>
    obtain ⟨hne, hrest⟩ := List.forall_mem_cons.1 h
    obtain ⟨hfirst, hsorted⟩ := List.pairwise_cons.1 hincreasing
    rcases Nat.lt_or_gt_of_ne hne with hlt | hgt
    · rw [List.filter_cons_of_pos (by simpa using hlt),
        List.filter_cons_of_neg (by simpa using Nat.le_of_lt hlt), List.cons_append]
      exact congrArg (entry :: ·) (ih hrest hsorted)
    · have hright : ∀ other ∈ entry :: rest, index < other.1 :=
        List.forall_mem_cons.2 ⟨hgt, fun other hother ↦ Nat.lt_trans hgt (hfirst other hother)⟩
      rw [List.filter_eq_nil_iff.2, List.filter_eq_self.2, List.nil_append]
      · exact fun other hother ↦ decide_eq_true (hright other hother)
      · exact fun other hother ↦ by simpa using Nat.le_of_lt (hright other hother)

/-- What is to the left of an index is in the pool. -/
theorem mem_of_mem_left {pool : OperandPool} {index : Nat} {entry : Nat × Expr}
    (h : entry ∈ pool.left index) : entry ∈ pool.entries := (List.mem_filter.1 h).1

/-- What is to the right of an index is in the pool. -/
theorem mem_of_mem_right {pool : OperandPool} {index : Nat} {entry : Nat × Expr}
    (h : entry ∈ pool.right index) : entry ∈ pool.entries := (List.mem_filter.1 h).1

/-- An operand of a pool with a new one is the new one or was there before. -/
theorem mem_of_mem_insert {pool : OperandPool} {index : Nat} {operand : Expr} {entry : Nat × Expr}
    (h : entry ∈ (pool.insert index operand).entries) :
    entry = (index, operand) ∨ entry ∈ pool.entries := by
  rw [entries_insert, List.mem_append, List.mem_cons] at h
  rcases h with hleft | heq | hright
  · exact .inr (mem_of_mem_left hleft)
  · exact .inl heq
  · exact .inr (mem_of_mem_right hright)

/-- The operands of a pool are among those that it is made from. -/
theorem mem_of_mem_ofList {operands : List (Nat × Expr)} {entry : Nat × Expr}
    (h : entry ∈ (ofList operands).entries) : entry ∈ operands := by
  suffices hfold : ∀ pool : OperandPool,
      entry ∈ (operands.foldl (fun pool entry ↦ pool.insert entry.1 entry.2) pool).entries →
        entry ∈ operands ∨ entry ∈ pool.entries from
    (hfold .empty h).resolve_right List.not_mem_nil
  clear h
  induction operands with
  | nil => exact fun pool hpool ↦ .inr hpool
  | cons first rest ih =>
    intro pool hentry
    rcases ih (pool.insert first.1 first.2) hentry with hrest | hinsert
    · exact .inl (List.mem_cons_of_mem _ hrest)
    · rcases mem_of_mem_insert hinsert with rfl | hpool
      · exact .inl List.mem_cons_self
      · exact .inr hpool

/-- An operand at an index of its own is one more operand. -/
theorem entries_insert_perm {pool : OperandPool} {entry : Nat × Expr}
    (h : ∀ other ∈ pool.entries, other.1 ≠ entry.1) :
    (pool.insert entry.1 entry.2).entries.Perm (entry :: pool.entries) := by
  rw [entries_insert, entries_eq_left_append_right h]
  exact List.perm_middle

/-- Operands at different indices are all in the pool they are put in. -/
theorem entries_ofList_perm {operands : List (Nat × Expr)}
    (h : (operands.map Prod.fst).Nodup) : (ofList operands).entries.Perm operands := by
  suffices hfold : ∀ pool : OperandPool,
      (∀ entry ∈ pool.entries, ∀ operand ∈ operands, entry.1 ≠ operand.1) →
        (operands.foldl (fun pool entry ↦ pool.insert entry.1 entry.2) pool).entries.Perm
          (pool.entries ++ operands) from
    hfold .empty fun _ hentry ↦ absurd hentry List.not_mem_nil
  induction operands with
  | nil => exact fun pool _ ↦ .of_eq (List.append_nil _).symm
  | cons first rest ih =>
    intro pool hpool
    obtain ⟨hfirst, hrest⟩ := List.nodup_cons.1 h
    have hinsert : (pool.insert first.1 first.2).entries.Perm (first :: pool.entries) :=
      entries_insert_perm fun entry hentry ↦ hpool entry hentry first List.mem_cons_self
    refine (ih hrest _ fun entry hentry operand hoperand ↦ ?_).trans
      ((hinsert.append_right rest).trans List.perm_middle.symm)
    rcases List.mem_cons.1 (hinsert.mem_iff.1 hentry) with rfl | hentry
    · exact fun heq ↦ hfirst (heq ▸ List.mem_map_of_mem hoperand)
    · exact hpool entry hentry operand (List.mem_cons_of_mem _ hoperand)

/-- Operands are sorted by their indices in the pool they are put in. -/
theorem entries_ofList_of_perm {operands sorted : List (Nat × Expr)} (hperm : operands.Perm sorted)
    (hsorted : sorted.Pairwise fun first second ↦ first.1 < second.1) :
    (ofList operands).entries = sorted := by
  have hnodup : (operands.map Prod.fst).Nodup :=
    (hperm.map Prod.fst).nodup_iff.2 (List.pairwise_map.2 (hsorted.imp Nat.ne_of_lt))
  refine List.Perm.eq_of_pairwise (fun a b _ _ hab hba ↦ ?_) (ofList operands).increasing hsorted
    ((entries_ofList_perm hnodup).trans hperm)
  exact absurd hab (Nat.lt_asymm hba)

/-- Operands put in from the first to the last stand in their order. -/
theorem entries_ofList {operands : List (Nat × Expr)}
    (h : operands.Pairwise fun first second ↦ first.1 < second.1) :
    (ofList operands).entries = operands :=
  entries_ofList_of_perm (.refl operands) h

/-! ### One step -/

/-- What is to the left of an index once an operand is taken out. -/
theorem left_erase (pool : OperandPool) (nearest index : Nat) :
    (pool.erase nearest).left index = (pool.left index).filter (·.1 != nearest) := by
  simp only [left, erase, List.filter_filter, Bool.and_comm]

/-- What is to the right of an index once an operand is taken out. -/
theorem right_erase (pool : OperandPool) (nearest index : Nat) :
    (pool.erase nearest).right index = (pool.right index).filter (·.1 != nearest) := by
  simp only [right, erase, List.filter_filter, Bool.and_comm]

/-- Removing an operand on the left leaves the right side alone. -/
theorem right_erase_of_lt {pool : OperandPool} {nearest index : Nat} (h : nearest < index) :
    (pool.erase nearest).right index = pool.right index := by
  rw [right_erase, List.filter_eq_self]
  intro entry hentry
  have := lt_of_mem_right hentry
  simp only [bne_iff_ne, ne_eq]
  omega

/-- Removing an operand on the right leaves the left side alone. -/
theorem left_erase_of_lt {pool : OperandPool} {nearest index : Nat} (h : index < nearest) :
    (pool.erase nearest).left index = pool.left index := by
  rw [left_erase, List.filter_eq_self]
  intro entry hentry
  have := lt_of_mem_left hentry
  simp only [bne_iff_ne, ne_eq]
  omega

/-- Removing the nearest operand on the left drops the last one of that side. -/
theorem left_erase_last {pool : OperandPool} {index : Nat} {before : List (Nat × Expr)}
    {nearest : Nat × Expr} (h : pool.left index = before ++ [nearest]) :
    (pool.erase nearest.1).left index = before := by
  have hincreasing := pool.increasing_left index
  rw [h, List.pairwise_append] at hincreasing
  rw [left_erase, h, List.filter_append, List.filter_eq_self.2, List.filter_cons_of_neg]
  · simp
  · simp
  · intro entry hentry
    have := hincreasing.2.2 entry hentry nearest (by simp)
    simp only [bne_iff_ne, ne_eq]
    omega

/-- Removing the nearest operand on the right drops the first one of that side. -/
theorem right_erase_first {pool : OperandPool} {index : Nat} {after : List (Nat × Expr)}
    {nearest : Nat × Expr} (h : pool.right index = nearest :: after) :
    (pool.erase nearest.1).right index = after := by
  have hincreasing := pool.increasing_right index
  rw [h, List.pairwise_cons] at hincreasing
  rw [right_erase, h, List.filter_cons_of_neg (by simp), List.filter_eq_self]
  intro entry hentry
  have := hincreasing.1 entry hentry
  simp only [bne_iff_ne, ne_eq]
  omega

/-- An operator with operands on both sides is built: its result stands between the operands that
are left on either side. -/
theorem exists_build? {pool : OperandPool} {occurrence : Occurrence}
    {before after : List (Nat × Expr)} {left right : Nat × Expr}
    (hleft : pool.left occurrence.index = before ++ [left])
    (hright : pool.right occurrence.index = right :: after) :
    ∃ built, pool.build? occurrence = some built ∧
      built.entries =
        before ++ (occurrence.index, .binary occurrence.operator left.2 right.2) :: after := by
  have hlt : left.1 < occurrence.index := lt_of_mem_left (by rw [hleft]; simp)
  have hgt : occurrence.index < right.1 := lt_of_mem_right (by rw [hright]; simp)
  have hrest : (pool.erase left.1).right occurrence.index = right :: after := by
    rw [right_erase_of_lt hlt, hright]
  refine ⟨((pool.erase left.1).erase right.1).insert occurrence.index
    (.binary occurrence.operator left.2 right.2), ?_, ?_⟩
  · simp [build?, takeLeft?, takeRight?, hleft, hrest]
  · simp only [insert, left_erase_of_lt hgt, left_erase_last hleft, right_erase_first hrest]

/-- An operator with nothing to its left is not built. -/
theorem build?_eq_none_of_left {pool : OperandPool} {occurrence : Occurrence}
    (h : pool.left occurrence.index = []) : pool.build? occurrence = none := by
  simp [build?, takeLeft?, h]

/-- An operator with nothing to its right is not built. -/
theorem build?_eq_none_of_right {pool : OperandPool} {occurrence : Occurrence}
    (h : pool.right occurrence.index = []) : pool.build? occurrence = none := by
  have hrest (nearest : Nat) : (pool.erase nearest).right occurrence.index = [] := by
    rw [right_erase, h, List.filter_nil]
  unfold build? takeLeft? takeRight?
  cases (pool.left occurrence.index).getLast? <;> simp [hrest]

/-- What building an operator does to the entries of a pool. -/
theorem build?_eq_some_iff {pool built : OperandPool} {occurrence : Occurrence} :
    pool.build? occurrence = some built ↔
      ∃ before left right after, pool.left occurrence.index = before ++ [left] ∧
        pool.right occurrence.index = right :: after ∧
        built.entries =
          before ++ (occurrence.index, .binary occurrence.operator left.2 right.2) :: after := by
  constructor
  · intro h
    rcases List.eq_nil_or_concat (pool.left occurrence.index) with hleft | ⟨before, left, hleft⟩
    · rw [build?_eq_none_of_left hleft] at h
      cases h
    · rw [List.concat_eq_append] at hleft
      cases hright : pool.right occurrence.index with
      | nil =>
        rw [build?_eq_none_of_right hright] at h
        cases h
      | cons right after =>
        obtain ⟨other, hother, hentries⟩ := exists_build? hleft hright
        cases hother.symm.trans h
        exact ⟨before, left, right, after, hleft, rfl, hentries⟩
  · rintro ⟨before, left, right, after, hleft, hright, hentries⟩
    obtain ⟨other, hother, hsame⟩ := exists_build? hleft hright
    rw [hother, ext (hsame.trans hentries.symm)]

/-- No operand stands on both sides of an index. -/
theorem length_left_add_right (pool : OperandPool) (index : Nat) :
    (pool.left index).length + (pool.right index).length ≤ pool.size := by
  unfold left right size
  induction pool.entries with
  | nil => simp
  | cons entry rest ih =>
    simp only [List.filter_cons, decide_eq_true_eq]
    split <;> split <;> simp only [List.length_cons] <;> omega

/-- Building an operator replaces two operands by one. -/
theorem size_build? {pool built : OperandPool} {occurrence : Occurrence}
    (h : pool.build? occurrence = some built) : built.size < pool.size := by
  obtain ⟨before, left, right, after, hleft, hright, hentries⟩ := build?_eq_some_iff.1 h
  have hsides := pool.length_left_add_right occurrence.index
  rw [hleft, hright] at hsides
  simp only [size, hentries, List.length_append, List.length_cons, List.length_nil] at *
  omega

end OperandPool

/-! ### Assemblies -/

/-- Assembling operators is building the first one and assembling the others. -/
theorem outcome_assemble_cons (regions : Regions) (pool : OperandPool) (occurrence : Occurrence)
    (rest : List Occurrence) :
    (assemble regions pool (occurrence :: rest)).outcome =
      match pool.build? occurrence with
      | some built => (assemble regions built rest).outcome
      | none => .error (pool.missing regions occurrence) := by
  rw [assemble]
  unfold OperandPool.build? takeOperands OperandPool.missing OperandPool.takeLeft?
  cases hleft : (pool.left occurrence.index).getLast? with
  | none => simp_all
  | some left =>
    have hne : (pool.left occurrence.index).isEmpty = false := by
      cases h : pool.left occurrence.index <;> simp_all
    simp only [Option.map_some, hne]
    cases (pool.erase left.1).takeRight? occurrence.index <;> simp

/-- The only operand does not depend on the regions. -/
theorem OperandPool.toOption_single (regions : Regions) (pool : OperandPool) :
    (pool.single regions).toOption = pool.single? := by
  unfold single single?
  rcases pool.entries with _ | ⟨_, _ | _⟩ <;> rfl

/-- An assembly ends in a tree if every operator finds its operands and one operand is left. -/
theorem result?_assemble (regions : Regions) (pool : OperandPool) (order : List Occurrence) :
    (assemble regions pool order).result? =
      (pool.buildAll? order).bind OperandPool.single? := by
  induction order generalizing pool with
  | nil => exact pool.toOption_single regions
  | cons occurrence rest ih =>
    unfold Recorded.result? at ih ⊢
    rw [outcome_assemble_cons]
    unfold OperandPool.buildAll? at ih ⊢
    rw [List.foldlM_cons]
    cases pool.build? occurrence with
    | none => rfl
    | some built => exact ih built

namespace Gathered

/-- The tree of gathered leaves and operators. -/
def tree? (gathered : Gathered) : Option Expr :=
  (gathered.pool.buildAll? (constructionOrder gathered.operators)).bind OperandPool.single?

/-- Building without operators is an assembly too. -/
theorem outcome_build (gathered : Gathered) (regions : Regions) (start stop : Nat) :
    (gathered.build regions start stop).outcome =
      (assemble regions gathered.pool (constructionOrder gathered.operators)).outcome := by
  unfold build construct
  split
  · rename_i hempty
    rw [List.isEmpty_iff.1 hempty]
    rfl
  · rfl

/-- The tree does not depend on the regions and the range. -/
theorem result?_build (gathered : Gathered) (regions : Regions) (start stop : Nat) :
    (gathered.build regions start stop).result? = gathered.tree? := by
  rw [Recorded.result?, outcome_build]
  exact result?_assemble regions gathered.pool _

end Gathered

end Nabla.Formula
