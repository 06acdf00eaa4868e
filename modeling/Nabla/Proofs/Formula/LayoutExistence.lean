import Nabla.Proofs.Formula.LayoutReading
import Nabla.Proofs.Outcomes

/-!
# Lexemes that have a layout

Lexemes with matching parentheses whose leaves and operators can be gathered have a layout. The
induction follows the reader: inside parentheses that are still open, the lexemes are one layout for
each of them and one more, with closing parentheses in between.
-/

namespace Nabla.Formula

/-- What the search for a closing parenthesis finds: the balance check closes the same parentheses,
up to the closing one and inside the contents. -/
theorem balanceFault?_splitGroup? {depth : Nat} {items : List Placed} {group : Group}
    (h : splitGroup? depth items = some group) :
    group.closing.kind = .closeParen ∧ ∀ opened : List Placed, opened.length = depth →
      (∀ last base, balanceFault? (opened ++ last :: base) items = balanceFault? base group.rest) ∧
        balanceFault? opened group.contents = none := by
  induction items generalizing depth group with
  | nil => cases h
  | cons item rest ih =>
    by_cases hopen : item.kind = .openParen
    · -- one more parenthesis is open for the search and for the balance check
      rw [splitGroup?_openParen hopen] at h
      obtain ⟨inner, hinner, rfl⟩ := Option.map_eq_some_iff.1 h
      obtain ⟨hclosing, hbalance⟩ := ih hinner
      refine ⟨hclosing, fun opened hlength ↦ ?_⟩
      obtain ⟨hrest, hcontents⟩ := hbalance (item :: opened) (by simp [hlength])
      refine ⟨fun last base ↦ ?_, ?_⟩
      · rw [balanceFault?_openParen hopen]
        exact hrest last base
      · show balanceFault? opened (item :: inner.contents) = none
        rw [balanceFault?_openParen hopen]
        exact hcontents
    · by_cases hclose : item.kind = .closeParen
      · cases depth with
        | zero =>
          rw [splitGroup?_closing hclose] at h
          cases h
          refine ⟨hclose, fun opened hlength ↦ ?_⟩
          obtain rfl := List.length_eq_zero_iff.1 hlength
          exact ⟨fun last base ↦ balanceFault?_closeParen hclose last base rest, rfl⟩
        | succ depth =>
          rw [splitGroup?_closeParen hclose] at h
          obtain ⟨inner, hinner, rfl⟩ := Option.map_eq_some_iff.1 h
          obtain ⟨hclosing, hbalance⟩ := ih hinner
          refine ⟨hclosing, fun opened hlength ↦ ?_⟩
          obtain ⟨first, others, rfl⟩ := List.exists_cons_of_length_eq_add_one hlength
          obtain ⟨hrest, hcontents⟩ := hbalance others (by simpa using hlength)
          refine ⟨fun last base ↦ ?_, ?_⟩
          · rw [List.cons_append, balanceFault?_closeParen hclose]
            exact hrest last base
          · show balanceFault? (first :: others) (item :: inner.contents) = none
            rw [balanceFault?_closeParen hclose]
            exact hcontents
      · rw [splitGroup?_other hopen hclose] at h
        obtain ⟨inner, hinner, rfl⟩ := Option.map_eq_some_iff.1 h
        obtain ⟨hclosing, hbalance⟩ := ih hinner
        refine ⟨hclosing, fun opened hlength ↦ ?_⟩
        obtain ⟨hrest, hcontents⟩ := hbalance opened hlength
        refine ⟨fun last base ↦ ?_, ?_⟩
        · rw [balanceFault?_other hopen hclose]
          exact hrest last base
        · show balanceFault? opened (item :: inner.contents) = none
          rw [balanceFault?_other hopen hclose]
          exact hcontents

/-! ### The lexemes of a leaf -/

/-- `Owns items extent rest` says that the items begin with a leaf of the given extent, and that the
rest follows it. -/
inductive Owns : List Placed → Extent → List Placed → Prop where
  | value {item : Placed} {operand : Expr} {rest : List Placed} :
      item.kind.value? = some operand → Owns (item :: rest) ⟨0, .value operand⟩ rest
  | owned {item opening : Placed} {after : List Placed} {group : Group} (opener : Opener) :
      item.kind = opener.kind → opening.kind = .openParen → splitGroup? 0 after = some group →
      Owns (item :: opening :: after)
        (opener.extent opening.index group.closing.index group.contents) group.rest
  | negated {item : Placed} {items rest : List Placed} {extent : Extent} :
      item.kind = .negative → Owns items extent rest → Owns (item :: items) extent.negated rest

/-- The extent of a group is what the lexemes are split into. -/
theorem exists_of_groupExtent {function : Option Function} {opening : Placed}
    {after : List Placed} {result : Extent × List Placed}
    (h : groupExtent function opening after = .ok result) :
    ∃ group, splitGroup? 0 after = some group ∧
      result = (⟨0, .group function opening.index group.closing.index group.contents⟩,
        group.rest) := by
  unfold groupExtent at h
  split at h
  · rename_i group hgroup
    cases h
    exact ⟨group, hgroup, rfl⟩
  · cases h

/-- A function name is an opener. -/
theorem exists_opener {kind : Lexeme.Kind} {function : Function}
    (h : kind.function? = some function) :
    ∃ opener : Opener, kind = opener.kind ∧ ∀ opening closing contents,
      opener.extent opening closing contents =
        ⟨0, .group (some function) opening closing contents⟩ := by
  cases kind <;> cases h
  · exact ⟨.sine, rfl, fun _ _ _ ↦ rfl⟩
  · exact ⟨.cosine, rfl, fun _ _ _ ↦ rfl⟩

/-- An extent that is found is that of a leaf. -/
theorem owns_of_extentOf {item : Placed} {rest after : List Placed} {extent : Extent}
    (h : extentOf item rest = .ok (extent, after)) : Owns (item :: rest) extent after := by
  -- only a negation goes on with the next lexeme, as the function does
  induction rest generalizing item extent after with
  | nil =>
    unfold extentOf at h
    split at h
    · rename_i hvalue
      cases h
      exact .value hvalue
    · cases h
    · split at h <;> cases h
  | cons next others ih =>
    unfold extentOf at h
    split at h
    · rename_i hvalue
      cases h
      exact .value hvalue
    · rename_i function hvalue hfunction
      unfold callExtent at h
      split at h
      · rename_i opening following heq
        cases heq
        split at h
        · rename_i hopening
          obtain ⟨group, hgroup, hresult⟩ := exists_of_groupExtent h
          obtain ⟨opener, hkind, hextent⟩ := exists_opener hfunction
          cases hresult
          rw [← hextent]
          exact .owned opener hkind hopening hgroup
        · cases h
      · cases h
    · split at h
      · rename_i hnegative
        simp only at h
        split at h
        · rename_i hopening
          obtain ⟨inner, hinner, hresult⟩ := exists_of_map_eq_ok h
          obtain ⟨group, hgroup, rfl⟩ := exists_of_groupExtent hinner
          cases hresult
          exact .owned .negation hnegative hopening hgroup
        · split at h
          · obtain ⟨inner, hinner, hresult⟩ := exists_of_map_eq_ok h
            cases hresult
            exact .negated hnegative (ih hinner)
          · cases h
      · cases h

/-- The balance check passes over a leaf. -/
theorem Owns.balanceFault? {items rest : List Placed} {extent : Extent}
    (h : Owns items extent rest) (opened : List Placed) :
    balanceFault? opened items = balanceFault? opened rest := by
  induction h with
  | value hvalue =>
    obtain ⟨-, hopen, hclose⟩ := Lexeme.Kind.beginsLeaf_of_value? hvalue
    exact balanceFault?_other hopen hclose opened _
  | @owned item opening after group opener hitem hopening hgroup =>
    have hother := opener.kind_ne_paren
    rw [← hitem] at hother
    rw [balanceFault?_other hother.1 hother.2, balanceFault?_openParen hopening]
    exact ((balanceFault?_splitGroup? hgroup).2 [] rfl).1 opening opened
  | negated hitem _ ih =>
    rw [balanceFault?_other, ih] <;> rw [hitem] <;> exact Lexeme.Kind.noConfusion

/-- The contents of a leaf are balanced. -/
theorem Owns.balanceFault?_contents {items rest : List Placed} {extent : Extent}
    (h : Owns items extent rest) : Formula.balanceFault? [] extent.ending.contents = none := by
  induction h with
  | value => rfl
  | @owned item opening after group opener hitem hopening hgroup =>
    have hcontents := ((balanceFault?_splitGroup? hgroup).2 [] rfl).2
    cases opener <;> exact hcontents
  | negated _ _ ih => exact ih

/-- A leaf has a layout if its contents have one. -/
theorem Owns.exists_layout {items rest : List Placed} {extent : Extent} (h : Owns items extent rest)
    {contents following : Layout} {others : List Lexeme.Kind}
    (hcontents : extent.ending.contents.map Placed.kind = contents.kinds)
    (hrest : rest.map Placed.kind = following.kinds ++ others) (negations : Nat) :
    ∃ layout : Layout, List.replicate negations .negative ++ items.map Placed.kind =
      layout.kinds ++ others := by
  induction h generalizing negations with
  | @value item operand rest hvalue =>
    refine ⟨.value negations item.kind operand hvalue following, ?_⟩
    simp [Layout.kinds, hrest]
  | @owned item opening after group opener hitem hopening hgroup =>
    refine ⟨.owned negations opener contents following, ?_⟩
    have hinner : group.contents.map Placed.kind = contents.kinds := by
      cases opener <;> exact hcontents
    rw [splitGroup?_eq_some hgroup]
    simp [Layout.kinds, hitem, hopening, hinner, hrest, (balanceFault?_splitGroup? hgroup).1]
  | negated hitem _ ih =>
    obtain ⟨layout, hlayout⟩ := ih hcontents hrest (negations + 1)
    refine ⟨layout, ?_⟩
    rw [← hlayout, List.map_cons, hitem, List.replicate_succ', List.append_assoc]
    rfl

/-! ### Lexemes that are read -/

namespace Source

variable {source : Source} {depth : Nat} {item : Placed} {rest : List Placed} {gathered : Gathered}

/-- Gathering begins with a leaf only if its extent is found and its contents are an expression. -/
theorem exists_of_gather_leaf (hbegins : item.kind.beginsLeaf = true)
    (h : (source.gather depth (item :: rest)).result? = some gathered) :
    ∃ extent after leaf others, extentOf item rest = .ok (extent, after) ∧
      source.leaf? extent = some leaf ∧ (source.gather depth after).result? = some others := by
  have houtcome := Recorded.outcome_eq_ok_iff.2 h
  rw [source.outcome_gather_leaf depth hbegins] at houtcome
  obtain ⟨⟨extent, after⟩, hextent, houtcome⟩ := exists_of_bind_eq_ok houtcome
  obtain ⟨leaf, hleaf, houtcome⟩ := exists_of_bind_eq_ok houtcome
  obtain ⟨others, hothers, -⟩ := exists_of_map_eq_ok houtcome
  refine ⟨extent, after, leaf, others, hextent, ?_, Recorded.outcome_eq_ok_iff.1 hothers⟩
  rw [← toOption_leafOutcome, hleaf]
  rfl

/-- The contents of a leaf that is read are gathered. -/
theorem exists_of_leaf? {extent : Extent} {leaf : Expr} (h : source.leaf? extent = some leaf) :
    ∃ inner, (source.gather 0 extent.ending.contents).result? = some inner := by
  unfold leaf? at h
  cases hending : extent.ending with
  | value operand => exact ⟨.empty, by rw [Ending.contents, gather_nil, Recorded.result?_done]⟩
  | group function opening closing contents =>
    rw [hending] at h
    obtain ⟨argument, hargument, -⟩ := Option.map_eq_some_iff.1 h
    obtain ⟨inner, hinner, -⟩ := Option.bind_eq_some_iff.1 hargument
    exact ⟨inner, hinner⟩

end Source

/-- A lexeme that begins no leaf is an operator or a parenthesis. -/
theorem Lexeme.Kind.operator_or_paren {kind : Lexeme.Kind} (h : kind.beginsLeaf = false) :
    (∃ op : Operator, kind = op.lexemeKind) ∨ kind = .openParen ∨ kind = .closeParen := by
  cases kind with
  | openParen => exact .inr (.inl rfl)
  | closeParen => exact .inr (.inr rfl)
  | minus => exact .inl ⟨.sub, rfl⟩
  | plus => exact .inl ⟨.add, rfl⟩
  | times => exact .inl ⟨.mul, rfl⟩
  | divide => exact .inl ⟨.div, rfl⟩
  | power => exact .inl ⟨.pow, rfl⟩
  | symbol name => cases h
  | number numeral => cases h
  | negative => cases h
  | sine => cases h
  | cosine => cases h

/-- Induction along a reading. A leaf is read by its contents and by what follows it, and any other
lexeme by what follows it, at the depth that the lexeme leaves. -/
@[elab_as_elim]
theorem reading_induction {motive : Nat → List Placed → Prop} (nil : ∀ depth, motive depth [])
    (leaf : ∀ depth item rest, item.kind.beginsLeaf = true →
      (∀ extent after, extentOf item rest = .ok (extent, after) →
        motive 0 extent.ending.contents ∧ motive depth after) → motive depth (item :: rest))
    (operator : ∀ depth item rest (op : Operator), item.kind = op.lexemeKind →
      motive depth rest → motive depth (item :: rest))
    (openParen : ∀ depth item rest, item.kind = .openParen →
      motive (depth + 1) rest → motive depth (item :: rest))
    (closeParen : ∀ depth item rest, item.kind = .closeParen →
      motive (depth - 1) rest → motive depth (item :: rest))
    (depth : Nat) (items : List Placed) : motive depth items := by
  have hall (count depth : Nat) (items : List Placed) (hcount : items.length ≤ count) :
      motive depth items := by
    induction count generalizing depth items with
    | zero =>
      obtain rfl := List.length_eq_zero_iff.1 (Nat.le_zero.1 hcount)
      exact nil depth
    | succ count ih =>
      cases items with
      | nil => exact nil depth
      | cons item rest =>
        have hrest : rest.length ≤ count := Nat.le_of_succ_le_succ hcount
        cases hbegins : item.kind.beginsLeaf with
        | true =>
          refine leaf depth item rest hbegins fun extent after hextent ↦ ?_
          obtain ⟨hcontents, hafter⟩ := fitsIn_extentOf hextent
          exact ⟨ih 0 _ (Nat.le_trans hcontents hrest), ih depth _ (Nat.le_trans hafter hrest)⟩
        | false =>
          rcases Lexeme.Kind.operator_or_paren hbegins with ⟨op, hitem⟩ | hitem | hitem
          · exact operator depth item rest op hitem (ih depth rest hrest)
          · exact openParen depth item rest hitem (ih (depth + 1) rest hrest)
          · exact closeParen depth item rest hitem (ih (depth - 1) rest hrest)
  exact hall items.length depth items (Nat.le_refl _)

/-- The kinds of the layouts that open parentheses are closed between. -/
def closedKinds (layouts : List Layout) : List Lexeme.Kind :=
  layouts.flatMap fun layout ↦ .closeParen :: layout.kinds

/-- Inside parentheses that the lexemes close, what is gathered is one layout and another one after
each closing parenthesis. -/
theorem exists_layouts (source : Source) {opened items : List Placed} {depth : Nat}
    {gathered : Gathered} (hbalance : balanceFault? opened items = none)
    (hgather : (source.gather depth items).result? = some gathered) :
    ∃ (layout : Layout) (layouts : List Layout), layouts.length = opened.length ∧
      items.map Placed.kind = layout.kinds ++ closedKinds layouts := by
  induction depth, items using reading_induction generalizing opened gathered with
  | nil depth =>
    rw [balanceFault?, Option.map_eq_none_iff, List.head?_eq_none_iff] at hbalance
    subst hbalance
    exact ⟨.nil, [], rfl, rfl⟩
  | leaf depth item rest hbegins ih =>
    obtain ⟨extent, after, leaf, others, hextent, hleaf, hothers⟩ :=
      Source.exists_of_gather_leaf hbegins hgather
    obtain ⟨inner, hinner⟩ := Source.exists_of_leaf? hleaf
    obtain ⟨ihcontents, ihafter⟩ := ih extent after hextent
    have howns := owns_of_extentOf hextent
    rw [howns.balanceFault?] at hbalance
    -- nothing is open around the contents of a leaf, so they are a single layout
    obtain ⟨contents, layouts, hlength, hcontents⟩ :=
      ihcontents howns.balanceFault?_contents hinner
    obtain rfl := List.length_eq_zero_iff.1 hlength
    obtain ⟨following, layouts, hlength, hfollowing⟩ := ihafter hbalance hothers
    obtain ⟨layout, hlayout⟩ := howns.exists_layout
      (by rw [hcontents, closedKinds, List.flatMap_nil, List.append_nil]) hfollowing 0
    exact ⟨layout, layouts, hlength, hlayout⟩
  | operator depth item rest op hitem ih =>
    have hother := Lexeme.Kind.lexemeKind_ne_paren op
    rw [← hitem] at hother
    rw [balanceFault?_other hother.1 hother.2] at hbalance
    rw [source.gather_operator depth hitem, Recorded.result?_map] at hgather
    obtain ⟨others, hothers, -⟩ := Option.map_eq_some_iff.1 hgather
    obtain ⟨layout, layouts, hlength, hrest⟩ := ih hbalance hothers
    exact ⟨.operator op layout, layouts, hlength, by simp [Layout.kinds, hitem, hrest]⟩
  | openParen depth item rest hitem ih =>
    -- the first of the layouts inside is the contents, and the second follows the group
    rw [balanceFault?_openParen hitem] at hbalance
    rw [source.gather_openParen depth hitem] at hgather
    obtain ⟨contents, layouts, hlength, hrest⟩ := ih hbalance hgather
    obtain ⟨following, layouts, rfl⟩ := List.exists_cons_of_length_eq_add_one hlength
    refine ⟨.group contents following, layouts, by simpa using hlength, ?_⟩
    simp [Layout.kinds, closedKinds, hitem, hrest]
  | closeParen depth item rest hitem ih =>
    rw [source.gather_closeParen depth hitem] at hgather
    cases opened with
    | nil =>
      rw [balanceFault?_closing hitem] at hbalance
      cases hbalance
    | cons last outer =>
      rw [balanceFault?_closeParen hitem] at hbalance
      obtain ⟨layout, layouts, hlength, hrest⟩ := ih hbalance hgather
      refine ⟨.nil, layout :: layouts, by simpa using hlength, ?_⟩
      simp [Layout.kinds, closedKinds, hitem, hrest]

/-- Lexemes that are read have a layout. -/
theorem exists_layout_of_read {lexemes : List Lexeme} {length : Nat} {e : Expr}
    (h : (Source.read ⟨lexemes, length⟩).result? = some e) :
    ∃ layout : Layout, lexemes.map Lexeme.kind = layout.kinds := by
  have hbalance : balanceFault? [] (placeFrom 0 lexemes) = none := by
    cases hfault : balanceFault? [] (placeFrom 0 lexemes) with
    | none => rfl
    | some fault =>
      rw [Recorded.result?, Source.outcome_read, hfault] at h
      cases h
  rw [Source.result?_read hbalance] at h
  obtain ⟨gathered, hgathered, -⟩ := Option.bind_eq_some_iff.1 h
  obtain ⟨layout, layouts, hlength, hkinds⟩ := exists_layouts _ hbalance hgathered
  obtain rfl := List.length_eq_zero_iff.1 hlength
  exact ⟨layout, by simpa [closedKinds] using hkinds⟩

end Nabla.Formula
