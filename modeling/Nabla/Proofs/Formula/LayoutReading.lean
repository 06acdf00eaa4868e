import Nabla.Proofs.Formula.Layout

/-!
# Reading a layout

What `gather` makes of the lexemes of a layout: the sequence `Layout.elements?`. The extent of a
leaf is found by its negations, and its contents are the lexemes of an inner layout, so the proof is
an induction on the layout with any lexemes after it.
-/

namespace Nabla.Formula

/-! ### The extent of a leaf -/

/-- Negations in two groups. -/
theorem negate_add (count more : Nat) (operand : Expr) :
    negate (count + more) operand = negate count (negate more operand) := by
  induction count with
  | zero => rw [Nat.zero_add, negate]
  | succ count ih => rw [Nat.succ_add, negate, negate, ih]

/-- An extent with more negations in front. -/
def Extent.negatedBy (extent : Extent) (count : Nat) : Extent :=
  { extent with negations := count + extent.negations }

/-- More negations in front of an extent negate its leaf. -/
theorem Extent.leaf_negatedBy (extent : Extent) (count : Nat) (contents : Expr) :
    (extent.negatedBy count).leaf contents = negate count (extent.leaf contents) :=
  negate_add count extent.negations _

section Extents

variable {item next opening closing : Placed} {rest after contents : List Placed}

/-- A value is a leaf of its own. -/
theorem extentOf_value {operand : Expr} (h : item.kind.value? = some operand) :
    extentOf item rest = .ok (⟨0, .value operand⟩, rest) := by
  rw [extentOf.eq_def]
  simp only [h]

/-- Nested contents end at the closing parenthesis behind them. -/
theorem groupExtent_eq (hclosing : closing.kind = .closeParen) (hnested : Nested contents)
    (function : Option Function) :
    groupExtent function opening (contents ++ closing :: rest) =
      .ok (⟨0, .group function opening.index closing.index contents⟩, rest) := by
  rw [groupExtent, hnested.splitGroup?_eq hclosing]

/-- The extent of a call or of a negated group. -/
theorem extentOf_opener {opener : Opener} (hitem : item.kind = opener.kind)
    (hopening : opening.kind = .openParen) (hclosing : closing.kind = .closeParen)
    (hnested : Nested contents) :
    extentOf item (opening :: (contents ++ closing :: rest)) =
      .ok (opener.extent opening.index closing.index contents, rest) := by
  have hgroup (function : Option Function) :
      groupExtent function opening (contents ++ closing :: rest) = .ok (_, rest) :=
    groupExtent_eq hclosing hnested function
  rw [extentOf.eq_def, hitem]
  cases opener with
  | sine => simp [Opener.kind, Lexeme.Kind.value?, Lexeme.Kind.function?, callExtent, hopening,
      hgroup, Opener.extent]
  | cosine => simp [Opener.kind, Lexeme.Kind.value?, Lexeme.Kind.function?, callExtent, hopening,
      hgroup, Opener.extent]
  | negation => simp [Opener.kind, Lexeme.Kind.value?, Lexeme.Kind.function?, hopening, hgroup,
      Opener.extent, Except.map, Extent.negated]

/-- The extent of a leaf with a negation in front. -/
theorem extentOf_negative (hitem : item.kind = .negative) (hnext : next.kind.beginsLeaf = true) :
    extentOf item (next :: after) =
      (extentOf next after).map fun (extent, rest) ↦ (extent.negated, rest) := by
  have hne : next.kind ≠ .openParen := fun h ↦ by rw [h] at hnext; cases hnext
  rw [extentOf.eq_def]
  simp [hitem, Lexeme.Kind.value?, Lexeme.Kind.function?, hne, hnext]

/-- The extent of a leaf with negations in front. -/
theorem extentOf_negations {negations : List Lexeme} {count : Nat} (index : Nat) {extent : Extent}
    (h : extentOf next after = .ok (extent, rest))
    (hnegations : negations.map Lexeme.kind = List.replicate count .negative)
    (hnext : next.kind.beginsLeaf = true) (hindex : next.index = index + count) :
    ∃ first others, placeFrom index negations ++ next :: after = first :: others ∧
      first.index = index ∧ first.kind.beginsLeaf = true ∧
      extentOf first others = .ok (extent.negatedBy count, rest) := by
  -- from the leaf outwards: each negation begins a leaf again, which the next one negates
  induction count generalizing negations index with
  | zero =>
    obtain rfl := List.map_eq_nil_iff.1 hnegations
    refine ⟨next, after, rfl, hindex, hnext, ?_⟩
    rw [h, Extent.negatedBy, Nat.zero_add]
  | succ count ih =>
    obtain ⟨negation, others, rfl, hnegation, hothers⟩ := List.map_eq_cons_iff.1 hnegations
    obtain ⟨first, following, hfollowing, -, hbegins, hextent⟩ :=
      ih (index + 1) hothers (by omega)
    refine ⟨⟨index, negation⟩, first :: following, ?_, rfl, ?_, ?_⟩
    · rw [placeFrom, List.cons_append, hfollowing]
    · rw [Placed.kind, hnegation]
      rfl
    · rw [extentOf_negative (show Placed.kind ⟨index, negation⟩ = _ from hnegation) hbegins,
        hextent]
      simp only [Except.map, Extent.negated, Extent.negatedBy]
      rw [show count + extent.negations + 1 = count + 1 + extent.negations by omega]

end Extents

/-! ### Gathering -/

namespace Source

variable (source : Source) (depth : Nat) {item : Placed} {rest : List Placed}

/-- What reading a leaf of the given extent comes to: the contents are read first. -/
def leafOutcome (extent : Extent) : Except Fault Expr :=
  match extent.ending with
  | .value operand => .ok (extent.leaf operand)
  | .group _ opening closing contents =>
      ((source.gather 0 contents).outcome.bind fun gathered ↦
        (gathered.build (source.regions (opening + 1) closing) (opening + 1) closing).outcome).map
          extent.leaf

/-- Gathering begins with the extent of a leaf, its contents come next, and then the rest. -/
theorem outcome_gather_leaf (hbegins : item.kind.beginsLeaf = true) :
    (source.gather depth (item :: rest)).outcome =
      (extentOf item rest).bind fun (extent, after) ↦
        (source.leafOutcome extent).bind fun leaf ↦
          (source.gather depth after).outcome.map (·.addLeaf item.index leaf) := by
  rw [gather]
  simp only [hbegins, if_true]
  split
  · rename_i fault hfault
    rw [hfault]
    rfl
  · rename_i extent after hextent
    rw [hextent]
    show _ = (source.leafOutcome extent).bind _
    split <;> rename_i hending <;> rw [leafOutcome, hending]
    · rw [Recorded.outcome_andThen, Recorded.outcome_done]
      rfl
    · rename_i contents
      simp only [Recorded.outcome_andThen, Recorded.outcome_map]
      generalize (source.gather 0 contents).outcome.bind _ = argument
      cases argument <;> rfl

/-- The leaf that an extent stands for, with its contents read. -/
def leaf? (extent : Extent) : Option Expr :=
  match extent.ending with
  | .value operand => some (extent.leaf operand)
  | .group _ _ _ contents =>
      ((source.gather 0 contents).result?.bind Gathered.tree?).map extent.leaf

/-- The leaf of an extent, whatever its faults. -/
theorem toOption_leafOutcome (extent : Extent) :
    (source.leafOutcome extent).toOption = source.leaf? extent := by
  unfold leafOutcome leaf?
  cases extent.ending with
  | value operand => rfl
  | group function opening closing contents =>
    show (Except.map _ _).toOption = Option.map _ (Option.bind (Except.toOption _) _)
    cases (source.gather 0 contents).outcome with
    | error fault => rfl
    | ok gathered =>
      show ((gathered.build _ _ _).map _).result? = Option.map _ gathered.tree?
      rw [Recorded.result?_map, Gathered.result?_build]

/-- The leaf of a call or of a negated group, with further negations in front. -/
theorem leaf?_opener (opener : Opener) (count opening closing : Nat) (contents : List Placed) :
    source.leaf? ((opener.extent opening closing contents).negatedBy count) =
      ((source.gather 0 contents).result?.bind Gathered.tree?).map fun argument ↦
        negate count (opener.apply argument) := by
  have hleaf : ((opener.extent opening closing contents).negatedBy count).leaf =
      fun argument ↦ negate count (opener.apply argument) := by
    funext argument
    rw [Extent.leaf_negatedBy, Opener.leaf_extent]
  unfold leaf?
  rw [hleaf]
  cases opener <;> rfl

/-- A leaf is added to what is gathered behind it. -/
theorem result?_gather_leaf {extent : Extent} {after : List Placed}
    (hbegins : item.kind.beginsLeaf = true) (h : extentOf item rest = .ok (extent, after)) :
    (source.gather depth (item :: rest)).result? =
      (source.leaf? extent).bind fun leaf ↦
        (source.gather depth after).result?.map (·.addLeaf item.index leaf) := by
  rw [Recorded.result?, source.outcome_gather_leaf depth hbegins, h, ← toOption_leafOutcome]
  show ((source.leafOutcome extent).bind _).toOption = _
  cases source.leafOutcome extent with
  | error fault => rfl
  | ok leaf => exact Recorded.result?_map _ (source.gather depth after)

/-- A leaf with negations in front is added at the index of the first negation. -/
theorem result?_gather_negations {next : Placed} {after : List Placed} {negations : List Lexeme}
    {count : Nat} (index : Nat) {extent : Extent} (h : extentOf next after = .ok (extent, rest))
    (hnegations : negations.map Lexeme.kind = List.replicate count .negative)
    (hnext : next.kind.beginsLeaf = true) (hindex : next.index = index + count) :
    (source.gather depth (placeFrom index negations ++ next :: after)).result? =
      (source.leaf? (extent.negatedBy count)).bind fun leaf ↦
        (source.gather depth rest).result?.map (·.addLeaf index leaf) := by
  obtain ⟨first, others, hitems, hfirst, hbegins, hextent⟩ :=
    extentOf_negations index h hnegations hnext hindex
  rw [hitems, source.result?_gather_leaf depth hbegins hextent, hfirst]

/-- There is nothing to gather at the end. -/
theorem gather_nil : source.gather depth [] = .done .empty := by
  rw [gather]

/-- An operator is added to what is gathered behind it. -/
theorem gather_operator {operator : Operator} (h : item.kind = operator.lexemeKind) :
    source.gather depth (item :: rest) =
      (source.gather depth rest).map (·.addOperator (.ofDepth item.index operator depth)) := by
  rw [gather]
  simp [h]

/-- Behind an opening parenthesis operators are one deeper. -/
theorem gather_openParen (h : item.kind = .openParen) :
    source.gather depth (item :: rest) = source.gather (depth + 1) rest := by
  rw [gather]
  simp [h, Lexeme.Kind.beginsLeaf, Lexeme.Kind.isValue, Lexeme.Kind.isFunction,
    Lexeme.Kind.function?, Lexeme.Kind.operator?]

/-- Behind a closing parenthesis operators are one less deep. -/
theorem gather_closeParen (h : item.kind = .closeParen) :
    source.gather depth (item :: rest) = source.gather (depth - 1) rest := by
  rw [gather]
  simp [h, Lexeme.Kind.beginsLeaf, Lexeme.Kind.isValue, Lexeme.Kind.isFunction,
    Lexeme.Kind.function?, Lexeme.Kind.operator?]

/-- The lexemes of a call or of a negated group, with negations in front, are read as a leaf. Their
contents stand behind the opening parenthesis. -/
theorem result?_gather_owned {negations inner others : List Lexeme} {name opening closing : Lexeme}
    {count : Nat} (index : Nat) {opener : Opener}
    (hnegations : negations.map Lexeme.kind = List.replicate count .negative)
    (hname : name.kind = opener.kind) (hopening : opening.kind = .openParen)
    (hclosing : closing.kind = .closeParen)
    (hnested : Nested (placeFrom (index + count + 2) inner)) :
    (source.gather depth
        (placeFrom index (negations ++ name :: opening :: (inner ++ closing :: others)) ++
          rest)).result? =
      (((source.gather 0 (placeFrom (index + count + 2) inner)).result?.bind
          Gathered.tree?).map fun argument ↦ negate count (opener.apply argument)).bind fun leaf ↦
        (source.gather depth (placeFrom (index + count + 3 + inner.length) others ++
          rest)).result?.map (·.addLeaf index leaf) := by
  have hlength : negations.length = count := by simpa using congrArg List.length hnegations
  have hkind : Placed.kind ⟨index + count, name⟩ = opener.kind := hname
  have hplaced :
      placeFrom index (negations ++ name :: opening :: (inner ++ closing :: others)) ++ rest =
      placeFrom index negations ++ ⟨index + count, name⟩ :: ⟨index + count + 1, opening⟩ ::
        (placeFrom (index + count + 2) inner ++ ⟨index + count + 2 + inner.length, closing⟩ ::
          (placeFrom (index + count + 3 + inner.length) others ++ rest)) := by
    simp only [placeFrom_append, placeFrom, hlength, List.append_assoc, List.cons_append]
    rw [show index + count + 1 + 1 + inner.length + 1 = index + count + 3 + inner.length by omega]
  have hopener : extentOf ⟨index + count, name⟩ (⟨index + count + 1, opening⟩ ::
        (placeFrom (index + count + 2) inner ++ ⟨index + count + 2 + inner.length, closing⟩ ::
          (placeFrom (index + count + 3 + inner.length) others ++ rest))) =
      .ok (opener.extent _ _ _, _) :=
    extentOf_opener hkind hopening hclosing hnested
  rw [hplaced, source.result?_gather_negations depth index hopener hnegations
    (by rw [hkind, opener.beginsLeaf_kind]) rfl, source.leaf?_opener]

/-- Reading is checking the parentheses, gathering all lexemes and assembling them. -/
theorem outcome_read :
    source.read.outcome =
      match balanceFault? [] (placeFrom 0 source.lexemes) with
      | some fault => .error fault
      | none =>
          (source.gather 0 (placeFrom 0 source.lexemes)).outcome.bind fun gathered ↦
            (assemble (source.regions 0 source.lexemes.length) gathered.pool
              (constructionOrder gathered.operators)).outcome := by
  have hitems : ((placeFrom 0 source.lexemes).drop 0).take (source.lexemes.length - 0) =
      placeFrom 0 source.lexemes := by
    rw [List.drop_zero, Nat.sub_zero]
    exact List.take_of_length_le (Nat.le_of_eq (length_placeFrom 0 source.lexemes))
  rw [read, Recorded.outcome_andThen, Recorded.outcome_ofExcept, checkBalance]
  cases balanceFault? [] (placeFrom 0 source.lexemes) with
  | some fault => rfl
  | none =>
    show (source.readRange 0 source.lexemes.length).outcome = _
    rw [readRange, hitems, Recorded.outcome_andThen]
    simp only [Gathered.outcome_build]

variable {source} in
/-- Lexemes with matching parentheses are read as the tree of what is gathered from them. -/
theorem result?_read (hbalance : balanceFault? [] (placeFrom 0 source.lexemes) = none) :
    source.read.result? =
      (source.gather 0 (placeFrom 0 source.lexemes)).result?.bind Gathered.tree? := by
  rw [Recorded.result?, outcome_read, hbalance, Recorded.result?]
  cases (source.gather 0 (placeFrom 0 source.lexemes)).outcome with
  | error fault => rfl
  | ok gathered => exact result?_assemble _ gathered.pool _

end Source

/-- Reading the lexemes of a layout puts its leaves and operators in front of what follows. -/
theorem Layout.result?_gather (source : Source) (layout : Layout) {lexemes : List Lexeme}
    (h : lexemes.map Lexeme.kind = layout.kinds) (depth index : Nat) (rest : List Placed) :
    (source.gather depth (placeFrom index lexemes ++ rest)).result? =
      (layout.elements? depth index).bind fun elements ↦
        (source.gather depth rest).result?.map (·.prepend elements) := by
  induction layout generalizing lexemes depth index rest with
  | nil =>
    obtain rfl := List.map_eq_nil_iff.1 h
    cases hrest : (source.gather depth rest).result? <;> simp [elements?, placeFrom, hrest]
  | value negations kind operand reads following ih =>
    obtain ⟨negs, others, rfl, hnegs, hothers⟩ := List.map_eq_append_iff.1 h
    obtain ⟨lexeme, others, rfl, rfl, hfollowing⟩ := List.map_eq_cons_iff.1 hothers
    have hlength : negs.length = negations := by simpa using congrArg List.length hnegs
    have hvalue : extentOf ⟨index + negations, lexeme⟩
        (placeFrom (index + negations + 1) others ++ rest) = .ok (⟨0, .value operand⟩, _) :=
      extentOf_value reads
    rw [placeFrom_append, hlength, placeFrom, List.append_assoc, List.cons_append,
      source.result?_gather_negations depth index hvalue hnegs
        (Lexeme.Kind.beginsLeaf_of_value? reads).1 rfl,
      ih hfollowing, elements?]
    show Option.map _ _ = _
    rw [Extent.leaf_negatedBy]
    cases following.elements? depth (index + negations + 1) <;>
      cases (source.gather depth rest).result? <;> rfl
  | owned negations opener contents following ihcontents ih =>
    obtain ⟨negs, others, rfl, hnegs, hothers⟩ := List.map_eq_append_iff.1 h
    obtain ⟨name, others, rfl, hname, hothers⟩ := List.map_eq_cons_iff.1 hothers
    obtain ⟨opening, others, rfl, hopening, hothers⟩ := List.map_eq_cons_iff.1 hothers
    obtain ⟨inner, others, rfl, hinner, hothers⟩ := List.map_eq_append_iff.1 hothers
    obtain ⟨closing, others, rfl, hclosing, hfollowing⟩ := List.map_eq_cons_iff.1 hothers
    have hwidth : inner.length = contents.width := by
      rw [Layout.width, ← hinner, List.length_map]
    have hnested : Nested (placeFrom (index + negations + 2) inner) := by
      refine contents.nested ?_
      rw [map_kind_placeFrom, hinner]
    -- the contents are read on their own, from depth zero and with nothing after them
    have hinnerResult := ihcontents hinner 0 (index + negations + 2) []
    rw [List.append_nil] at hinnerResult
    rw [source.result?_gather_owned depth index hnegs hname hopening hclosing hnested,
      ih hfollowing, elements?, hinnerResult, hwidth]
    cases contents.elements? 0 (index + negations + 2) with
    | none => rfl
    | some inner =>
      have htree : ((source.gather 0 []).result?.map (·.prepend inner)).bind Gathered.tree? =
          (Gathered.ofElements inner).tree? := by
        rw [Source.gather_nil]
        rfl
      simp only [Option.bind_some, htree]
      cases (Gathered.ofElements inner).tree? <;>
        cases following.elements? depth (index + negations + 3 + contents.width) <;>
        cases (source.gather depth rest).result? <;> rfl
  | operator op following ih =>
    obtain ⟨lexeme, others, rfl, hlexeme, hfollowing⟩ := List.map_eq_cons_iff.1 h
    rw [placeFrom, List.cons_append,
      source.gather_operator depth (show Placed.kind ⟨index, lexeme⟩ = _ from hlexeme),
      Recorded.result?_map,
      ih hfollowing, elements?]
    cases following.elements? depth (index + 1) <;>
      cases (source.gather depth rest).result? <;> rfl
  | group contents following ihcontents ih =>
    obtain ⟨opening, others, rfl, hopening, hothers⟩ := List.map_eq_cons_iff.1 h
    obtain ⟨inner, others, rfl, hinner, hothers⟩ := List.map_eq_append_iff.1 hothers
    obtain ⟨closing, others, rfl, hclosing, hfollowing⟩ := List.map_eq_cons_iff.1 hothers
    have hwidth : inner.length = contents.width := by
      rw [Layout.width, ← hinner, List.length_map]
    rw [placeFrom, List.cons_append,
      source.gather_openParen depth (show Placed.kind ⟨index, opening⟩ = _ from hopening),
      placeFrom_append, List.append_assoc, ihcontents hinner, placeFrom, List.cons_append,
      source.gather_closeParen _ (show Placed.kind ⟨_, closing⟩ = _ from hclosing),
      Nat.add_sub_cancel,
      ih hfollowing, hwidth, elements?, show index + 1 + contents.width + 1 =
        index + 2 + contents.width by omega]
    cases contents.elements? (depth + 1) (index + 1) with
    | none => rfl
    | some inner =>
      cases following.elements? depth (index + 2 + contents.width) <;>
        cases (source.gather depth rest).result? <;>
        simp [Gathered.prepend_append]

/-- Reading all lexemes of a layout gives the tree of its leaves and operators. -/
theorem Layout.result?_read (layout : Layout) {lexemes : List Lexeme}
    (h : lexemes.map Lexeme.kind = layout.kinds) (length : Nat) :
    (Source.read ⟨lexemes, length⟩).result? =
      (layout.elements? 0 0).bind fun elements ↦ (Gathered.ofElements elements).tree? := by
  have hnested : Nested (placeFrom 0 lexemes) := by
    refine layout.nested ?_
    rw [map_kind_placeFrom, h]
  have hbalance := hnested.balanceFault?_append [] []
  rw [List.append_nil, balanceFault?, List.head?_nil, Option.map_none] at hbalance
  have hgather := layout.result?_gather ⟨lexemes, length⟩ h 0 0 []
  rw [List.append_nil, Source.gather_nil] at hgather
  rw [Source.result?_read hbalance, hgather]
  cases layout.elements? 0 0 <;> rfl

/-! ### Places of elements -/

/-- A sequence increases and stands between two indices. -/
structure Spread (start stop : Nat) (elements : List Element) : Prop where
  increasing : Increasing elements
  bounds : ∀ element ∈ elements, start ≤ element.index ∧ element.index < stop

namespace Spread

variable {start middle stop : Nat} {front back : List Element} {element : Element}

/-- No elements lie in any range. -/
theorem nil : Spread start stop [] := ⟨.nil, fun _ h ↦ absurd h List.not_mem_nil⟩

/-- Elements of two ranges next to each other lie in both together. -/
theorem append (middle : Nat) (hstart : start ≤ middle) (hstop : middle ≤ stop)
    (hfront : Spread start middle front)
    (hback : Spread middle stop back) : Spread start stop (front ++ back) := by
  refine ⟨List.pairwise_append.2 ⟨hfront.increasing, hback.increasing, ?_⟩, ?_⟩
  · intro first hfirst last hlast
    exact Nat.lt_of_lt_of_le (hfront.bounds first hfirst).2 (hback.bounds last hlast).1
  · intro element helement
    rcases List.mem_append.1 helement with helement | helement
    · have := hfront.bounds element helement
      omega
    · have := hback.bounds element helement
      omega

/-- An element lies in a range that holds its index. -/
theorem singleton (hstart : start ≤ element.index) (hstop : element.index < stop) :
    Spread start stop [element] := by
  refine ⟨List.pairwise_singleton _ _, fun other hother ↦ ?_⟩
  obtain rfl := List.mem_singleton.1 hother
  exact ⟨hstart, hstop⟩

/-- An element in front of a range lies in the larger one. -/
theorem cons (hstart : start ≤ element.index) (hmiddle : element.index < middle)
    (hstop : middle ≤ stop) (hback : Spread middle stop back) :
    Spread start stop (element :: back) :=
  append middle (by omega) hstop (singleton hstart hmiddle) hback

/-- Elements lie in every larger range. -/
theorem mono {start' stop' : Nat} (h : Spread start stop front) (hstart : start' ≤ start)
    (hstop : stop ≤ stop') : Spread start' stop' front :=
  ⟨h.increasing, fun element helement ↦
    ⟨Nat.le_trans hstart (h.bounds element helement).1,
      Nat.lt_of_lt_of_le (h.bounds element helement).2 hstop⟩⟩

end Spread

/-- The elements of a layout stand between its first lexeme and its last. -/
theorem Layout.spread {layout : Layout} {depth index : Nat} {elements : List Element}
    (h : layout.elements? depth index = some elements) :
    Spread index (index + layout.width) elements := by
  -- each element takes its width off the front of the range
  induction layout generalizing depth index elements with
  | nil =>
    cases h
    exact .nil
  | value negations kind operand reads rest ih =>
    obtain ⟨others, hothers, rfl⟩ := Option.map_eq_some_iff.1 h
    have hwidth : (value negations kind operand reads rest).width = negations + 1 + rest.width := by
      simp [width, kinds]
      omega
    refine .cons (Nat.le_refl _) (?_ : index < index + negations + 1) ?_
      ((ih hothers).mono (Nat.le_refl _) ?_) <;> omega
  | owned negations opener contents rest ihcontents ih =>
    obtain ⟨inner, hinner, h⟩ := Option.bind_eq_some_iff.1 h
    obtain ⟨argument, hargument, h⟩ := Option.bind_eq_some_iff.1 h
    obtain ⟨others, hothers, rfl⟩ := Option.map_eq_some_iff.1 h
    have hwidth : (owned negations opener contents rest).width =
        negations + 3 + contents.width + rest.width := by
      simp [width, kinds]
      omega
    refine .cons (Nat.le_refl _) (?_ : index < index + negations + 3 + contents.width) ?_
      ((ih hothers).mono (Nat.le_refl _) ?_) <;> omega
  | operator op rest ih =>
    obtain ⟨others, hothers, rfl⟩ := Option.map_eq_some_iff.1 h
    have hwidth : (Layout.operator op rest).width = 1 + rest.width := by
      simp [width, kinds]
      omega
    refine .cons (Nat.le_refl _) (?_ : index < index + 1) ?_
      ((ih hothers).mono (Nat.le_refl _) ?_) <;> omega
  | group contents rest ihcontents ih =>
    obtain ⟨inner, hinner, h⟩ := Option.bind_eq_some_iff.1 h
    obtain ⟨others, hothers, rfl⟩ := Option.map_eq_some_iff.1 h
    have hwidth : (group contents rest).width = 2 + contents.width + rest.width := by
      simp [width, kinds]
      omega
    refine .append (index + 2 + contents.width) ?_ ?_
      ((ihcontents hinner).mono ?_ ?_) ((ih hothers).mono (Nat.le_refl _) ?_) <;> omega

end Nabla.Formula
