import Nabla.Formula.Reader
import Nabla.Proofs.Formula.PositionReading

/-!
# Unbalanced parentheses are found once

The reader of lexemes reports unbalanced parentheses exactly if the parentheses of the lexemes are
not well nested, and it reports the first closing one without a partner or, if there is none, the
last opening one without (`parse_unbalanced`). So the balance check is the only place where they are
found: behind it every range that is read is well nested, every group is closed, and no closing
parenthesis comes where none is open.
-/

namespace Nabla.Formula

variable {mode : Mode} {text : List Char} {fault : Fault}

/-! ### Faults behind the balance check -/

/-- The fault is about parentheses. -/
def Fault.IsUnbalanced (fault : Fault) : Prop :=
  ∃ opening, fault.cause = .unbalancedParentheses opening

/-- An assembly finds no fault about parentheses. -/
theorem not_isUnbalanced_of_assemble {regions : Regions} {pool : OperandPool}
    {order : List Occurrence} (h : (assemble regions pool order).outcome = .error fault) :
    ¬fault.IsUnbalanced := by
  rintro ⟨opening, hcause⟩
  induction order generalizing pool with
  | nil =>
    change pool.single regions = .error fault at h
    unfold OperandPool.single at h
    split at h <;> cases h <;> cases hcause
  | cons occurrence rest ih =>
    rw [outcome_assemble_cons] at h
    cases hbuilt : pool.build? occurrence with
    | none =>
      rw [hbuilt] at h
      cases h
      unfold OperandPool.missing at hcause
      split at hcause <;> cases hcause
    | some built =>
      rw [hbuilt] at h
      exact ih h

/-- Building finds no fault about parentheses. -/
theorem not_isUnbalanced_of_build {gathered : Gathered} {regions : Regions} {start stop : Nat}
    (h : (gathered.build regions start stop).outcome = .error fault) : ¬fault.IsUnbalanced := by
  rw [Gathered.outcome_build] at h
  exact not_isUnbalanced_of_assemble h

/-- A group that is closed is no fault. -/
theorem groupExtent_ne_error {function : Option Function} {opening : Placed} {after : List Placed}
    (h : ∃ group, splitGroup? 0 after = some group) :
    groupExtent function opening after ≠ .error fault := by
  obtain ⟨group, hgroup⟩ := h
  unfold groupExtent
  rw [hgroup]
  exact nofun

/-- A leaf that the check has passed lacks no parenthesis. -/
theorem not_isUnbalanced_of_extentOf {opened : List Placed} {item : Placed} {rest : List Placed}
    (hbalance : balanceFault? opened (item :: rest) = none) (hbegins : item.kind.beginsLeaf = true)
    (h : extentOf item rest = .error fault) : ¬fault.IsUnbalanced := by
  rintro ⟨opening, hcause⟩
  induction rest generalizing item with
  | nil =>
    unfold extentOf callExtent at h
    split at h
    · cases h
    · cases h
      cases hcause
    · split at h <;> cases h <;> cases hcause
  | cons next after ih =>
    -- the check closes every parenthesis, so a group behind the first lexeme is closed too
    have hgroup (hopening : next.kind = .openParen) :
        ∃ group, splitGroup? 0 after = some group :=
      exists_group_of_balanceFault? hbalance hbegins hopening
    unfold extentOf callExtent at h
    split at h
    · cases h
    · simp only at h
      split at h
      · exact groupExtent_ne_error (hgroup ‹_›) h
      · cases h
        cases hcause
    · split at h
      · simp only at h
        split at h
        · exact groupExtent_ne_error (hgroup ‹_›) (eq_error_of_map_eq_error h)
        · split at h
          · obtain ⟨hopen, hclose⟩ := Lexeme.Kind.ne_paren_of_beginsLeaf hbegins
            rw [balanceFault?_other hopen hclose] at hbalance
            exact ih hbalance ‹_› (eq_error_of_map_eq_error h)
          · cases h
            cases hcause
      · cases h
        cases hcause

namespace Source

variable {source : Source}

/-- What follows the check is no fault about parentheses. -/
theorem not_isUnbalanced_of_gather {opened items : List Placed} {depth : Nat}
    (hbalance : balanceFault? opened items = none)
    (h : (source.gather depth items).outcome = .error fault) : ¬fault.IsUnbalanced := by
  -- the check has passed what is left, with some parentheses open before it
  induction depth, items using reading_induction generalizing opened with
  | nil depth =>
    rw [gather_nil] at h
    cases h
  | leaf depth item rest hbegins ih =>
    rw [source.outcome_gather_leaf depth hbegins] at h
    rcases exists_of_bind_eq_error h with h | ⟨⟨extent, after⟩, hextent, h⟩
    · exact not_isUnbalanced_of_extentOf hbalance hbegins h
    · obtain ⟨ihcontents, ihafter⟩ := ih extent after hextent
      have howns := owns_of_extentOf hextent
      rw [howns.balanceFault?] at hbalance
      rcases exists_of_bind_eq_error h with h | ⟨leaf, hleaf, h⟩
      · unfold leafOutcome at h
        split at h
        · cases h
        · rename_i hending
          have hcontents := howns.balanceFault?_contents
          rw [hending] at ihcontents hcontents
          rcases exists_of_bind_eq_error (eq_error_of_map_eq_error h) with h | ⟨gathered, -, h⟩
          · exact ihcontents hcontents h
          · exact not_isUnbalanced_of_build h
      · exact ihafter hbalance (eq_error_of_map_eq_error h)
  | operator depth item rest op hitem ih =>
    have hother := Lexeme.Kind.lexemeKind_ne_paren op
    rw [← hitem] at hother
    rw [balanceFault?_other hother.1 hother.2] at hbalance
    rw [source.gather_operator depth hitem] at h
    exact ih hbalance (eq_error_of_map_eq_error h)
  | openParen depth item rest hitem ih =>
    rw [balanceFault?_openParen hitem] at hbalance
    rw [source.gather_openParen depth hitem] at h
    exact ih hbalance h
  | closeParen depth item rest hitem ih =>
    rw [source.gather_closeParen depth hitem] at h
    cases opened with
    | nil =>
      rw [balanceFault?_closing hitem] at hbalance
      cases hbalance
    | cons last outer =>
      rw [balanceFault?_closeParen hitem] at hbalance
      exact ih hbalance h

/-- No fault in a range that is well nested is about parentheses. -/
theorem not_isUnbalanced_of_readRange {start stop : Nat}
    (hnested : WellNested (source.kindsIn start stop))
    (h : (source.readRange start stop).outcome = .error fault) : ¬fault.IsUnbalanced := by
  rw [← map_kind_window, ← balanceFault?_eq_none_iff] at hnested
  rw [readRange, Recorded.outcome_andThen] at h
  rcases exists_of_bind_eq_error h with h | ⟨gathered, -, h⟩
  · exact not_isUnbalanced_of_gather hnested h
  · exact not_isUnbalanced_of_build h

/-- A lexeme that stands behind some others has their number as its index. -/
theorem spanAt_of_placeFrom_eq {before after : List Placed} {item : Placed}
    (h : placeFrom 0 source.lexemes = before ++ item :: after) :
    source.spanAt before.length = item.span := by
  have hlexemes := map_lexeme_placeFrom 0 source.lexemes
  rw [h, List.map_append, List.map_cons] at hlexemes
  have hitem : source.lexemes[before.length]? = some item.lexeme := by simp [← hlexemes]
  rw [spanAt, hitem]
  rfl

/-- The kinds between both ends are all kinds. -/
theorem kindsIn_zero_length (source : Source) :
    source.kindsIn 0 source.lexemes.length = source.lexemes.map Lexeme.kind := by
  rw [kindsIn, List.drop_zero, Nat.sub_zero, List.take_of_length_le (List.length_map _).le]

/-- The check finds nothing exactly if the lexemes are well nested. -/
theorem balanceFault?_placeFrom_eq_none_iff :
    balanceFault? [] (placeFrom 0 source.lexemes) = none ↔
      WellNested (source.lexemes.map Lexeme.kind) := by
  rw [balanceFault?_eq_none_iff, map_kind_placeFrom]

/-- Well nested lexemes are read as a range. -/
theorem read_eq_readRange (h : WellNested (source.lexemes.map Lexeme.kind)) :
    source.read = source.readRange 0 source.lexemes.length := by
  rw [read, checkBalance, balanceFault?_placeFrom_eq_none_iff.2 h]
  rfl

/-- In well nested lexemes no fault about parentheses is found. -/
theorem not_isUnbalanced_of_read (hnested : WellNested (source.lexemes.map Lexeme.kind))
    (h : source.read.outcome = .error fault) : ¬fault.IsUnbalanced := by
  rw [read_eq_readRange hnested] at h
  rw [← kindsIn_zero_length] at hnested
  exact not_isUnbalanced_of_readRange hnested h

/-- In lexemes that are not well nested the culprit is reported. -/
theorem exists_culprit (h : ¬WellNested (source.lexemes.map Lexeme.kind)) :
    ∃ opening index, Culprit (source.lexemes.map Lexeme.kind) opening index ∧
      source.read.outcome = .error ⟨.unbalancedParentheses opening, [source.spanAt index]⟩ := by
  have hreports := reports_balanceFault? (placeFrom 0 source.lexemes)
  cases hbalance : balanceFault? [] (placeFrom 0 source.lexemes) with
  | none => exact absurd (balanceFault?_placeFrom_eq_none_iff.1 hbalance) h
  | some fault =>
    rw [hbalance] at hreports
    obtain ⟨opening, before, item, after, hitems, rfl, hculprit⟩ := hreports
    rw [map_kind_placeFrom] at hculprit
    refine ⟨opening, before.length, hculprit, ?_⟩
    rw [outcome_read, hbalance, spanAt_of_placeFrom_eq hitems]

/-- Well nested lexemes are read by a strict reader. -/
theorem rangeAt?_strict (h : WellNested (source.lexemes.map Lexeme.kind)) :
    source.rangeAt? true (source.lexemes.length + 1) 0 source.lexemes.length =
      some (source.readRange 0 source.lexemes.length) := by
  rw [← kindsIn_zero_length] at h
  exact rangeAt?_eq (Nat.zero_le _) (Nat.le_refl _) (Nat.lt_succ_self _) fun _ ↦ h

end Source

/-! ### Texts -/

/-- Unbalanced parentheses are found once, and exactly. Of a text without lexical faults they are
reported if and only if the parentheses of its lexemes are not well nested, at the first closing one
without a partner or, if every closing one has a partner, at the last opening one without. If they
are well nested, a strict reader refuses nothing: every range that is read is well nested, every
group is closed, and no closing parenthesis comes where none is open. -/
theorem parse_unbalanced (h : (lex mode text).fault = none) :
    let source : Source := ⟨(lex mode text).lexemes, Text.byteLength text⟩
    let kinds := source.lexemes.map Lexeme.kind
    ((∃ opening spans, Reader.token.parse mode text =
          .error ⟨.unbalancedParentheses opening, spans⟩) ↔ ¬WellNested kinds) ∧
      (∀ opening spans,
        Reader.token.parse mode text = .error ⟨.unbalancedParentheses opening, spans⟩ →
          ∃ index, Culprit kinds opening index ∧ spans = [source.spanAt index]) ∧
      (WellNested kinds →
        Reader.token.parse mode text = (source.readRange 0 source.lexemes.length).outcome ∧
          source.rangeAt? true (source.lexemes.length + 1) 0 source.lexemes.length =
            some (source.readRange 0 source.lexemes.length)) := by
  intro source kinds
  have hparse : Reader.token.parse mode text = source.read.outcome := parse_token_eq_read h
  rw [hparse]
  by_cases hnested : WellNested kinds
  · have hnone (opening : Bool) (spans : List Text.Span) :
        source.read.outcome ≠ .error ⟨.unbalancedParentheses opening, spans⟩ :=
      fun hfault ↦ Source.not_isUnbalanced_of_read hnested hfault ⟨opening, rfl⟩
    refine ⟨iff_of_false ?_ (not_not_intro hnested), fun opening spans hfault ↦
      absurd hfault (hnone opening spans), fun _ ↦ ?_⟩
    · rintro ⟨opening, spans, hfault⟩
      exact hnone opening spans hfault
    · rw [Source.read_eq_readRange hnested]
      exact ⟨rfl, Source.rangeAt?_strict hnested⟩
  · obtain ⟨opening, index, hculprit, hfault⟩ := Source.exists_culprit hnested
    rw [hfault]
    refine ⟨iff_of_true ⟨opening, _, rfl⟩ hnested, fun _ _ hsame ↦ ?_,
      fun hothers ↦ absurd hothers hnested⟩
    cases hsame
    exact ⟨index, hculprit, rfl⟩

/-- In `(x)) + (y` the second closing parenthesis is reported, and not the last opening one. The
parentheses of `-sin((x))` are well nested, and a strict reader reads it. -/
theorem parse_unbalanced_texts :
    let source : Source := ⟨(lex .multiVariable "-sin((x))".toList).lexemes, 9⟩
    (lex .multiVariable "(x)) + (y".toList).fault = none ∧
      Reader.token.parse .multiVariable "(x)) + (y".toList =
        .error ⟨.unbalancedParentheses false, [⟨3, 4⟩]⟩ ∧
      ¬WellNested ((lex .multiVariable "(x)) + (y".toList).lexemes.map Lexeme.kind) ∧
      (lex .multiVariable "-sin((x))".toList).fault = none ∧
      WellNested (source.lexemes.map Lexeme.kind) ∧
      source.rangeAt? true (source.lexemes.length + 1) 0 source.lexemes.length =
        some (source.readRange 0 source.lexemes.length) := by
  intro source
  have hfault : (lex .multiVariable "(x)) + (y".toList).fault = none := by decide +kernel
  have hparse : Reader.token.parse .multiVariable "(x)) + (y".toList =
      .error ⟨.unbalancedParentheses false, [⟨3, 4⟩]⟩ := by decide +kernel
  have hclosed : (lex .multiVariable "-sin((x))".toList).fault = none := by decide +kernel
  have hnested : WellNested (source.lexemes.map Lexeme.kind) := by decide +kernel
  exact ⟨hfault, hparse, (parse_unbalanced hfault).1.1 ⟨_, _, hparse⟩, hclosed, hnested,
    ((parse_unbalanced hclosed).2.2 hnested).2⟩

end Nabla.Formula
