import Nabla.Proofs.Formula.CharacterSequence
import Nabla.Proofs.Formula.Readable

/-!
# What is read from characters

The reader that goes through characters checks the mode at every leaf, at another place than the one
that goes through lexemes. What it reads is readable in the mode all the same, so an expression has
only symbols that the mode allows, whichever reader it comes from (`allows_of_parse`).
-/

namespace Nabla.Formula

variable {mode : Mode}

/-! ### Leaves -/

/-- The leaf of a text is readable. -/
theorem readable_of_leafOfText {text : List Char} {leaf : Expr}
    (h : leafOfText mode text = .ok leaf) : leaf.Readable mode := by
  unfold leafOfText at h
  split at h
  · by_cases hallowed : mode.allows ‹Symbol› = true
    · rw [if_pos hallowed] at h
      cases h
      exact hallowed
    · rw [if_neg hallowed] at h
      cases h
  · split at h
    · split at h
      · rename_i numeral hnumeral
        cases h
        exact clearSign_of_ofChars? hnumeral
      · cases h
    · cases h

/-- The leaf of a run is readable. -/
theorem readable_of_leaf {run : LeafRun} {entry : Nat × Expr} (h : run.leaf mode = .ok entry) :
    entry.2.Readable mode := by
  unfold LeafRun.leaf at h
  split at h <;> cases h
  rename_i leaf hleaf
  exact readable_of_leafOfText hleaf

/-- The leaves of runs are readable. -/
theorem readable_of_leavesOfRuns {runs : List LeafRun} {leaves : List (Nat × Expr)}
    (h : leavesOfRuns mode runs = .ok leaves) : ∀ entry ∈ leaves, entry.2.Readable mode := by
  induction runs generalizing leaves with
  | nil =>
    cases h
    exact fun entry hentry ↦ absurd hentry List.not_mem_nil
  | cons run rest ih =>
    unfold leavesOfRuns at h
    split at h
    · cases h
    · rename_i leaf hleaf
      obtain ⟨others, hothers, rfl⟩ := exists_of_map_eq_ok h
      exact List.forall_mem_cons.2 ⟨readable_of_leaf hleaf, ih hothers⟩

/-! ### Both readers -/

/-- What is read from the characters of a text is readable in the mode it is read in. -/
theorem readable_of_readCharacters {text : List Char} {e : Expr}
    (h : (readCharacters mode text).outcome = .ok e) : e.Readable mode := by
  rw [readCharacters, Recorded.outcome_andThen] at h
  obtain ⟨gathered, hgathered, hbuilt⟩ := exists_of_bind_eq_ok h
  rw [Recorded.outcome_eq_ok_iff, Gathered.result?_build] at hbuilt
  obtain ⟨operators, found, -, hfound, rfl⟩ := exists_of_gatherCharacters hgathered
  refine Gathered.forall_tree? (kept_readable mode) hbuilt fun entry hentry ↦ ?_
  exact readable_of_leavesOfRuns hfound entry (OperandPool.mem_of_mem_ofList hentry)

/-- Whatever is read is readable. -/
theorem readable_of_parse {reader : Reader} {text : List Char} {e : Expr}
    (h : reader.parse mode text = .ok e) : e.Readable mode := by
  cases reader with
  | token => exact readable_of_readLexemes h
  | direct => exact readable_of_readCharacters h

end Nabla.Formula

namespace Nabla

/-- The symbols of a readable expression are allowed by the mode. -/
theorem Expr.Readable.allows {mode : Mode} {e : Expr} (h : e.Readable mode) {name : Symbol}
    (hname : e.contains name = true) : mode.allows name = true := by
  induction e with
  | constant value places => cases hname
  | symbol other =>
    obtain rfl : other = name := beq_iff_eq.1 hname
    exact h
  | neg operand ih => exact ih h hname
  | binary operator left right ihleft ihright =>
    rcases Bool.or_eq_true_iff.1 hname with hleft | hright
    · exact ihleft h.1 hleft
    · exact ihright h.2 hright
  | call function argument ih => exact ih h.2 hname

/-- Either reader gives only symbols that the mode allows. -/
theorem Formula.allows_of_parse {reader : Reader} {mode : Mode} {text : List Char} {e : Expr}
    (h : reader.parse mode text = .ok e) {name : Symbol} (hname : e.contains name = true) :
    mode.allows name = true :=
  (readable_of_parse h).allows hname

end Nabla
