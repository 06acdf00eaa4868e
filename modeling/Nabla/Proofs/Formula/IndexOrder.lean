import Nabla.Proofs.Formula.LexemeRegions
import Nabla.Proofs.Formula.Relocation

/-!
# Indices of leaves and operators

Lexemes are counted and characters are measured in bytes, and both kinds of index serve to assemble
a tree. This is so because only the order of the indices counts: leaves and operators that are moved
to other indices in the same order are built in the same order and come to the same tree, or to the
same fault at the index moved (`assemble_moved`). Nothing is asked of the new indices but that their
order is that of the old ones, so byte positions may become lexeme numbers as well as the other way
round.
-/

namespace Nabla.Formula

/-- The indices of leaves and operators. -/
def Gathered.indices (gathered : Gathered) : Set Nat := {index | gathered.HasIndex index}

/-- Leaves and operators at other indices. -/
def Gathered.moved (place : Nat → Nat) (gathered : Gathered) : Gathered :=
  ⟨.ofList (relocateEntries place gathered.pool.entries),
    gathered.operators.map (Occurrence.relocate place)⟩

variable {place : Nat → Nat} {gathered : Gathered}

/-- Operands that are put in at other indices of the same order stand there in this order. -/
theorem Gathered.relocated_moved (hplace : StrictMonoOn place gathered.indices) :
    OperandPool.Relocated place gathered.indices gathered.pool (gathered.moved place).pool := by
  have hindices : ∀ entry ∈ gathered.pool.entries, entry.1 ∈ gathered.indices :=
    fun _ hentry ↦ .leaf hentry
  refine ⟨OperandPool.entries_ofList (List.pairwise_map.2 ?_), hindices⟩
  refine gathered.pool.increasing.imp_of_mem fun hfirst hsecond hlt ↦ ?_
  exact hplace (hindices _ hfirst) (hindices _ hsecond) hlt

/-- Leaves and operators at other indices of the same order are built in the same order, and come to
the same tree or to a fault of the same cause, which points at the region of the index moved. -/
theorem assemble_moved (hplace : StrictMonoOn place gathered.indices) :
    constructionOrder (gathered.moved place).operators =
        (constructionOrder gathered.operators).map (Occurrence.relocate place) ∧
      EndAlike place gathered.indices
        (fun regions ↦
          (assemble regions gathered.pool (constructionOrder gathered.operators)).outcome)
        (fun regions ↦ (assemble regions (gathered.moved place).pool
          (constructionOrder (gathered.moved place).operators)).outcome) := by
  have hoperators : ∀ occurrence ∈ gathered.operators, occurrence.index ∈ gathered.indices :=
    fun _ hoccurrence ↦ .operator hoccurrence
  have horder : constructionOrder (gathered.moved place).operators =
      (constructionOrder gathered.operators).map (Occurrence.relocate place) :=
    constructionOrder_relocateOn hplace hoperators
  refine ⟨horder, ?_⟩
  rw [horder]
  exact endAlike_assemble hplace (Gathered.relocated_moved hplace) fun occurrence hoccurrence ↦
    hoperators occurrence ((constructionOrder_perm _).mem_iff.1 hoccurrence)

/-- The operands and operators of `x + y *`, with four bytes for each, and counted. -/
theorem assemble_moved_counted :
    let gathered : Gathered := ⟨.ofList [(0, .symbol .x), (8, .symbol .y)],
      [.ofDepth 4 .add 0, .ofDepth 12 .mul 0]⟩
    let place : Nat → Nat := (· / 4)
    StrictMonoOn place gathered.indices ∧
      constructionOrder (gathered.moved place).operators =
        [.ofDepth 3 .mul 0, .ofDepth 1 .add 0] ∧
      EndAlike place gathered.indices
        (fun regions ↦
          (assemble regions gathered.pool (constructionOrder gathered.operators)).outcome)
        (fun regions ↦ (assemble regions (gathered.moved place).pool
          (constructionOrder (gathered.moved place).operators)).outcome) := by
  intro gathered place
  have hindices : ∀ index ∈ gathered.indices, index = 0 ∨ index = 4 ∨ index = 8 ∨ index = 12 := by
    rintro _ (⟨hentry⟩ | ⟨hoccurrence⟩)
    · obtain heq | heq := List.mem_pair.1 (show (_, _) ∈ [(0, _), (8, _)] from hentry)
      · exact .inl (congrArg Prod.fst heq)
      · exact .inr (.inr (.inl (congrArg Prod.fst heq)))
    · obtain rfl | rfl := List.mem_pair.1 hoccurrence
      · exact .inr (.inl rfl)
      · exact .inr (.inr (.inr rfl))
  -- on these indices the division is strictly monotone, though it is not in general
  have hplace : StrictMonoOn place gathered.indices := by
    intro a ha b hb hlt
    have := hindices a ha
    have := hindices b hb
    show a / 4 < b / 4
    omega
  obtain ⟨horder, hend⟩ := assemble_moved hplace
  exact ⟨hplace, horder, hend⟩

end Nabla.Formula
