import Nabla.Proofs.Formula.LayoutExistence

/-!
# Readings without regions

Which tree lexemes are read as, or which fault they have, is a matter of their kinds alone. The
regions only say where a fault points. `Recorded.verdict` is the outcome of a reading without
regions, and `verdict_read` gives the verdict on lexemes as that on their kinds.

The proof makes lexemes bare, one step of the reader after the other: what a step finds in bare
lexemes is what it finds in the lexemes themselves, made bare.
-/

namespace Nabla.Formula

variable {α β : Type}

/-! ### Outcomes and verdicts -/

/-- An outcome without the region of its fault. -/
def withoutRegion (outcome : Except Fault α) : Except Cause α := outcome.mapError Text.Report.cause

/-- A result has no region. -/
@[simp] theorem withoutRegion_ok (result : α) :
    withoutRegion (.ok result) = .ok result := rfl

/-- Of a fault the cause is left. -/
@[simp] theorem withoutRegion_error (fault : Fault) :
    withoutRegion (.error fault : Except Fault α) = .error fault.cause := rfl

/-- The causes of two stages are those of each. -/
theorem withoutRegion_bind (outcome : Except Fault α) (next : α → Except Fault β) :
    withoutRegion (outcome.bind next) =
      (withoutRegion outcome).bind fun result ↦ withoutRegion (next result) := by
  cases outcome <;> rfl

/-- A result may be changed before or after the regions are left out. -/
theorem withoutRegion_map (f : α → β) (outcome : Except Fault α) :
    withoutRegion (outcome.map f) = (withoutRegion outcome).map f := by
  cases outcome <;> rfl

/-- Without regions there are the same results. -/
theorem withoutRegion_eq_ok_iff {outcome : Except Fault α} {result : α} :
    withoutRegion outcome = .ok result ↔ outcome = .ok result := by
  cases outcome <;> simp

/-- The result of a reading, or the cause of its fault. -/
def Recorded.verdict (recorded : Recorded α) : Except Cause α := withoutRegion recorded.outcome

/-- Assemblies differ only in the regions their faults point at. -/
theorem verdict_assemble (regions other : Regions) (pool : OperandPool) (order : List Occurrence) :
    (assemble regions pool order).verdict = (assemble other pool order).verdict := by
  unfold Recorded.verdict
  induction order generalizing pool with
  | nil =>
    show withoutRegion (pool.single regions) = withoutRegion (pool.single other)
    unfold OperandPool.single
    rcases pool.entries with _ | ⟨_, _ | _⟩ <;> rfl
  | cons occurrence rest ih =>
    rw [outcome_assemble_cons, outcome_assemble_cons]
    cases pool.build? occurrence with
    | none => rfl
    | some built => exact ih built

/-! ### Bare lexemes -/

/-- A lexeme of a kind, at no place in particular. -/
def Lexeme.Kind.bare (kind : Lexeme.Kind) : Lexeme := ⟨kind, 0, ⟨0, 0⟩, false⟩

/-- A placed lexeme without its region. -/
def Placed.bare (item : Placed) : Placed := ⟨item.index, item.kind.bare⟩

/-- A bare lexeme has the kind of the lexeme. -/
@[simp] theorem Placed.kind_bare (item : Placed) : item.bare.kind = item.kind := rfl

/-- Bare lexemes depend on the kinds only. -/
theorem map_bare_placeFrom (index : Nat) (lexemes : List Lexeme) :
    (placeFrom index lexemes).map Placed.bare =
      placeFrom index ((lexemes.map Lexeme.kind).map Lexeme.Kind.bare) := by
  induction lexemes generalizing index with
  | nil => rfl
  | cons lexeme rest ih => exact congrArg (⟨index, lexeme.kind.bare⟩ :: ·) (ih (index + 1))

/-- Bare lexemes have a parenthesis without a partner exactly if the lexemes have one. -/
theorem balanceFault?_bare (opened items : List Placed) :
    (balanceFault? (opened.map Placed.bare) (items.map Placed.bare)).map Text.Report.cause =
      (balanceFault? opened items).map Text.Report.cause := by
  induction items generalizing opened with
  | nil => cases opened <;> rfl
  | cons item rest ih =>
    rw [List.map_cons]
    by_cases hopen : item.kind = .openParen
    · rw [balanceFault?_openParen hopen, balanceFault?_openParen (item.kind_bare.trans hopen)]
      exact ih (item :: opened)
    · by_cases hclose : item.kind = .closeParen
      · cases opened with
        | nil =>
          rw [balanceFault?_closing hclose, List.map_nil,
            balanceFault?_closing (item.kind_bare.trans hclose)]
          rfl
        | cons last outer =>
          rw [balanceFault?_closeParen hclose, List.map_cons,
            balanceFault?_closeParen (item.kind_bare.trans hclose)]
          exact ih outer
      · rw [balanceFault?_other hopen hclose, balanceFault?_other (by simpa using hopen)
          (by simpa using hclose)]
        exact ih opened

/-- A group of bare lexemes. -/
def Group.bare (group : Group) : Group :=
  ⟨group.contents.map Placed.bare, group.closing.bare, group.rest.map Placed.bare⟩

/-- Groups are found by the kinds of their lexemes. -/
theorem splitGroup?_bare (depth : Nat) (items : List Placed) :
    splitGroup? depth (items.map Placed.bare) = (splitGroup? depth items).map Group.bare := by
  induction items generalizing depth with
  | nil => rfl
  | cons item rest ih =>
    have hcons (depth : Nat) : (splitGroup? depth (rest.map Placed.bare)).map (.cons item.bare) =
        ((splitGroup? depth rest).map (.cons item)).map Group.bare := by
      rw [ih, Option.map_map, Option.map_map]
      rfl
    rw [List.map_cons]
    by_cases hopen : item.kind = .openParen
    · rw [splitGroup?_openParen hopen, splitGroup?_openParen (item.kind_bare.trans hopen), hcons]
    · by_cases hclose : item.kind = .closeParen
      · have hbare := item.kind_bare.trans hclose
        cases depth with
        | zero =>
          rw [splitGroup?_closing hclose, splitGroup?_closing hbare]
          rfl
        | succ depth => rw [splitGroup?_closeParen hclose, splitGroup?_closeParen hbare, hcons]
      · rw [splitGroup?_other hopen hclose, splitGroup?_other (by simpa using hopen)
          (by simpa using hclose), hcons]

/-! ### Extents of bare lexemes -/

/-- What negations in front of a bare leaf end in. -/
def Ending.bare : Ending → Ending
  | .value operand => .value operand
  | .group function opening closing contents =>
      .group function opening closing (contents.map Placed.bare)

/-- The extent of a bare leaf. -/
def Extent.bare (extent : Extent) : Extent := ⟨extent.negations, extent.ending.bare⟩

/-- The extent of a bare leaf, and the bare lexemes after it. -/
def bareResult (result : Extent × List Placed) : Extent × List Placed :=
  (result.1.bare, result.2.map Placed.bare)

/-- The leaf of an extent depends on the kinds only. -/
theorem Extent.leaf_bare (extent : Extent) : extent.bare.leaf = extent.leaf := by
  obtain ⟨negations, _ | ⟨_ | _, _, _, _⟩⟩ := extent <;> rfl

/-- The extent of a group depends on the kinds, and so does the cause of its fault. -/
theorem groupExtent_bare (function : Option Function) (opening : Placed) (after : List Placed) :
    withoutRegion (groupExtent function opening.bare (after.map Placed.bare)) =
      (withoutRegion (groupExtent function opening after)).map bareResult := by
  unfold groupExtent
  rw [splitGroup?_bare]
  cases splitGroup? 0 after <;> rfl

/-- The extent of a call depends on the kinds, and so does the cause of its fault. -/
theorem callExtent_bare (function : Function) (name : Placed) (rest : List Placed) :
    withoutRegion (callExtent function name.bare (rest.map Placed.bare)) =
      (withoutRegion (callExtent function name rest)).map bareResult := by
  cases rest with
  | nil => rfl
  | cons opening after =>
    rw [List.map_cons]
    by_cases hopen : opening.kind = .openParen
    · simp only [callExtent, hopen, opening.kind_bare.trans hopen, if_true]
      exact groupExtent_bare (some function) opening after
    · have hbare : opening.bare.kind ≠ .openParen := hopen
      simp only [callExtent, if_neg hopen, if_neg hbare]
      rfl

/-- A negation in front keeps what is found in bare lexemes. -/
theorem withoutRegion_negated {bared found : Except Fault (Extent × List Placed)}
    (h : withoutRegion bared = (withoutRegion found).map bareResult) :
    withoutRegion (bared.map fun (extent, rest) ↦ (extent.negated, rest)) =
      (withoutRegion (found.map fun (extent, rest) ↦ (extent.negated, rest))).map bareResult := by
  rw [withoutRegion_map, withoutRegion_map, h]
  cases found <;> rfl

/-- The extent of a leaf depends on the kinds, and so does the cause of its fault. -/
theorem extentOf_bare (item : Placed) (rest : List Placed) :
    withoutRegion (extentOf item.bare (rest.map Placed.bare)) =
      (withoutRegion (extentOf item rest)).map bareResult := by
  -- an extent is found by looking at kinds alone, in the same order in both sources
  induction rest generalizing item with
  | nil =>
    rw [List.map_nil, extentOf.eq_def, extentOf.eq_def item, item.kind_bare]
    cases item.kind.value? with
    | some operand => rfl
    | none =>
      cases item.kind.function? with
      | some function => rfl
      | none => by_cases hnegative : item.kind = .negative <;> simp [hnegative] <;> rfl
  | cons next after ih =>
    rw [List.map_cons, extentOf.eq_def, extentOf.eq_def item, item.kind_bare]
    cases item.kind.value? with
    | some operand => rfl
    | none =>
      cases item.kind.function? with
      | some function => exact callExtent_bare function item (next :: after)
      | none =>
        by_cases hnegative : item.kind = .negative
        · by_cases hopen : next.kind = .openParen
          · simp only [hnegative, hopen, next.kind_bare.trans hopen, if_true]
            exact withoutRegion_negated (groupExtent_bare none next after)
          · have hbare : next.bare.kind ≠ .openParen := hopen
            simp only [hnegative, if_true, if_neg hopen, if_neg hbare]
            cases hbegins : next.kind.beginsLeaf with
            | true =>
              have hbegins : next.bare.kind.beginsLeaf = true := hbegins
              simp only [hbegins, if_true]
              exact withoutRegion_negated (ih next)
            | false =>
              have hbegins : next.bare.kind.beginsLeaf = false := hbegins
              simp only [hbegins, Bool.false_eq_true, if_false]
              rfl
        · simp only [if_neg hnegative]
          rfl

/-! ### Gathering -/

namespace Source

/-- The leaf of a bare extent, if its contents have the same verdict. -/
theorem withoutRegion_leafOutcome_bare (source other : Source) (extent : Extent)
    (hcontents : (other.gather 0 (extent.ending.contents.map Placed.bare)).verdict =
      (source.gather 0 extent.ending.contents).verdict) :
    withoutRegion (other.leafOutcome extent.bare) = withoutRegion (source.leafOutcome extent) := by
  obtain ⟨negations, ending⟩ := extent
  cases ending with
  | value operand => rfl
  | group function opening closing contents =>
    have hgather : withoutRegion (other.gather 0 (contents.map Placed.bare)).outcome =
      withoutRegion (source.gather 0 contents).outcome := hcontents
    show withoutRegion (Except.map (Extent.leaf (Extent.bare _)) _) =
      withoutRegion (Except.map (Extent.leaf _) _)
    rw [Extent.leaf_bare, withoutRegion_map, withoutRegion_map, withoutRegion_bind,
      withoutRegion_bind, hgather]
    congr 2
    funext gathered
    rw [Gathered.outcome_build, Gathered.outcome_build]
    exact verdict_assemble _ _ gathered.pool _

/-- What is gathered from bare lexemes is what is gathered from the lexemes, for any source. -/
theorem verdict_gather_bare (source other : Source) (depth : Nat) (items : List Placed) :
    (other.gather depth (items.map Placed.bare)).verdict = (source.gather depth items).verdict := by
  unfold Recorded.verdict
  induction depth, items using reading_induction with
  | nil depth => rw [List.map_nil, gather_nil, gather_nil]
  | leaf depth item rest hbegins ih =>
    have hbare : item.bare.kind.beginsLeaf = true := hbegins
    rw [List.map_cons, source.outcome_gather_leaf depth hbegins,
      other.outcome_gather_leaf depth hbare, withoutRegion_bind, withoutRegion_bind, extentOf_bare]
    cases hextent : extentOf item rest with
    | error fault =>
      -- what would be read after the fault differs, so the outcomes are compared as faults
      show Except.error fault.cause = Except.error fault.cause
      rfl
    | ok result =>
      obtain ⟨extent, after⟩ := result
      obtain ⟨ihcontents, ihafter⟩ := ih extent after hextent
      have hleaf := withoutRegion_leafOutcome_bare source other extent ihcontents
      show withoutRegion ((other.leafOutcome extent.bare).bind _) =
        withoutRegion ((source.leafOutcome extent).bind _)
      rw [withoutRegion_bind, withoutRegion_bind, hleaf]
      congr 1
      funext leaf
      rw [withoutRegion_map, withoutRegion_map]
      exact congrArg _ ihafter
  | operator depth item rest op hitem ih =>
    have hbare : item.bare.kind = op.lexemeKind := hitem
    rw [List.map_cons, source.gather_operator depth hitem, other.gather_operator depth hbare,
      Recorded.outcome_map, Recorded.outcome_map, withoutRegion_map, withoutRegion_map]
    exact congrArg _ ih
  | openParen depth item rest hitem ih =>
    have hbare : item.bare.kind = .openParen := hitem
    rw [List.map_cons, source.gather_openParen depth hitem, other.gather_openParen depth hbare]
    exact ih
  | closeParen depth item rest hitem ih =>
    have hbare : item.bare.kind = .closeParen := hitem
    rw [List.map_cons, source.gather_closeParen depth hitem, other.gather_closeParen depth hbare]
    exact ih

end Source

/-! ### Reading -/

/-- The verdict on lexemes of the given kinds. -/
def verdictOf (kinds : List Lexeme.Kind) : Except Cause Expr :=
  (Source.read ⟨kinds.map Lexeme.Kind.bare, 0⟩).verdict

/-- The verdict on lexemes is the verdict on their kinds. -/
theorem verdict_read (lexemes : List Lexeme) (length : Nat) :
    (Source.read ⟨lexemes, length⟩).verdict = verdictOf (lexemes.map Lexeme.kind) := by
  have hbalance := balanceFault?_bare [] (placeFrom 0 lexemes)
  unfold verdictOf Recorded.verdict
  rw [Source.outcome_read, Source.outcome_read, ← map_bare_placeFrom]
  rw [List.map_nil] at hbalance
  cases hfault : balanceFault? [] (placeFrom 0 lexemes) with
  | some fault =>
    rw [hfault] at hbalance
    obtain ⟨bared, hbared, hcause⟩ := Option.map_eq_some_iff.1 hbalance
    rw [hbared]
    exact congrArg Except.error hcause.symm
  | none =>
    rw [hfault, Option.map_none, Option.map_eq_none_iff] at hbalance
    rw [hbalance, withoutRegion_bind, withoutRegion_bind]
    have hgather := Source.verdict_gather_bare ⟨lexemes, length⟩
      ⟨(lexemes.map Lexeme.kind).map Lexeme.Kind.bare, 0⟩ 0 (placeFrom 0 lexemes)
    unfold Recorded.verdict at hgather
    rw [hgather]
    congr 1
    funext gathered
    exact verdict_assemble _ _ gathered.pool _

end Nabla.Formula
