import Nabla.Proofs.Formula.LexemeRegions
import Nabla.Proofs.Formula.WellNested

/-!
# Reading by positions

The reader again, over positions in the list of lexemes in place of lists that are cut out of it.
Every access to the list is checked, and so is that reading ends: a loop has as many rounds as there
are lexemes left, and ranges nest at most as deep as they are long. A reading that leaves the list
or that is out of rounds is refused.

No reading is refused, and each is that of `Source.readRange` (`Source.rangeAt?_eq`). A strict
reader also refuses ranges that are not well nested, groups without an end, and closing parentheses
where none is open. It refuses nothing in a range that is well nested.
-/

namespace Nabla.Formula

namespace Recorded

variable {α β : Type}

/-- Continue with the result, unless there is a fault. What comes next may be refused. -/
def andThen? (first : Recorded α) (next : α → Option (Recorded β)) : Option (Recorded β) :=
  match first.outcome with
  | .error fault => some ⟨first.events, .error fault⟩
  | .ok result => (next result).map fun second ↦ ⟨first.events ++ second.events, second.outcome⟩

/-- A result may be changed before or after the next stage takes it. -/
theorem andThen_map {γ : Type} (f : α → β) (first : Recorded α) (next : β → Recorded γ) :
    (first.map f).andThen next = first.andThen fun result ↦ next (f result) := by
  unfold andThen map
  cases first.outcome <;> rfl

/-- Nothing is refused if nothing is refused after a result. -/
theorem andThen?_eq_some {first : Recorded α} {next? : α → Option (Recorded β)}
    {next : α → Recorded β}
    (h : ∀ result, first.outcome = .ok result → next? result = some (next result)) :
    first.andThen? next? = some (first.andThen next) := by
  unfold andThen? andThen
  cases hfirst : first.outcome with
  | error fault => rfl
  | ok result =>
    simp only [h result hfirst]
    rfl

end Recorded

/-! ### The reader -/

/-- The number of open parentheses after a closing one. If none is open, it stays zero, which a
strict reader refuses. -/
def closeOne? (strict : Bool) : Nat → Option Nat
  | 0 => if strict then none else some 0
  | depth + 1 => some depth

/-- A strict reader closes a parenthesis if one is open. -/
theorem closeOne?_eq {strict : Bool} {depth : Nat} (h : strict = true → 0 < depth) :
    closeOne? strict depth = some (depth - 1) := by
  cases depth with
  | zero => exact if_neg fun hon ↦ Nat.lt_irrefl 0 (h hon)
  | succ depth => rfl

namespace Source

variable (source : Source)

/-- The kind of the lexeme at an index. -/
def kindAt? (index : Nat) : Option Lexeme.Kind := source.lexemes[index]?.map Lexeme.kind

/-- The kind of the lexeme at an index in front of `stop`. -/
def nextAt? (index stop : Nat) : Option Lexeme.Kind :=
  if index < stop then source.kindAt? index else none

/-- The kinds of the lexemes with indices from `start` up to `stop`. -/
def kindsIn (start stop : Nat) : List Lexeme.Kind :=
  ((source.lexemes.map Lexeme.kind).drop start).take (stop - start)

/-- The region of a range, with checked accesses. -/
def rangeSpan? (start stop : Nat) : Option Text.Span :=
  if start < stop then
    source.lexemes[start]?.bind fun first ↦
      source.lexemes[stop - 1]?.map fun last ↦ ⟨first.span.start, last.span.stop⟩
  else if 0 < start ∧ stop < source.lexemes.length then
    source.lexemes[start - 1]?.bind fun before ↦
      source.lexemes[stop]?.map fun after ↦ ⟨before.span.start, after.span.stop⟩
  else some ⟨0, source.length⟩

variable (strict : Bool)

/-- Search the given number of lexemes for the parenthesis that leaves none open, given how many are
open. The result is its index, if it is found. -/
def closingAt? : (count depth index : Nat) → Option (Option Nat)
  | 0, _, _ => some none
  | count + 1, depth, index =>
      match source.kindAt? index with
      | none => none
      | some .openParen => closingAt? count (depth + 1) (index + 1)
      | some .closeParen =>
          (closeOne? strict depth).bind fun depth ↦
            if depth = 0 then some (some index) else closingAt? count depth (index + 1)
      | some _ => closingAt? count depth (index + 1)

section Range

variable (range : Nat → Nat → Option (Recorded Expr))

/-- Read the group that opens at an index and ends in front of `stop`, given how to read its
contents. The result comes with the index after the group. -/
def groupAt? (opening stop : Nat) : Option (Recorded (Expr × Nat)) :=
  (source.closingAt? strict (stop - opening) 0 opening).bind fun
    | some closing =>
        (range (opening + 1) closing).map fun contents ↦ contents.map (·, closing + 1)
    | none =>
        if strict then none
        else some (.fail ⟨.unbalancedParentheses true, [source.spanAt opening]⟩)

/-- Read the call that begins at an index and ends in front of `stop`. -/
def callAt? (function : Function) (index stop : Nat) : Option (Recorded (Expr × Nat)) :=
  if source.nextAt? (index + 1) stop = some .openParen then
    (source.groupAt? strict range (index + 1) stop).map
      (.map fun (argument, after) ↦ (.call function argument, after))
  else some (.fail ⟨.missingFunctionArgument function, [source.spanAt index]⟩)

/-- Read the leaf that begins at an index and ends in front of `stop`, in the given number of
rounds. The result comes with the index after the leaf. -/
def leafAt? (stop : Nat) : (count index : Nat) → Option (Recorded (Expr × Nat))
  | 0, _ => none
  | count + 1, index =>
      (source.kindAt? index).bind fun kind ↦
        match kind.value?, kind.function? with
        | some operand, _ => some (.done (operand, index + 1))
        | none, some function => source.callAt? strict range function index stop
        | none, none =>
            if kind = .negative then
              match source.nextAt? (index + 1) stop with
              | some next =>
                  if next = .openParen then
                    (source.groupAt? strict range (index + 1) stop).map
                      (.map fun (operand, after) ↦ (.neg operand, after))
                  else if next.beginsLeaf then
                    (leafAt? stop count (index + 1)).map
                      (.map fun (operand, after) ↦ (.neg operand, after))
                  else some (.fail ⟨.missingRightOperand '-', [source.spanAt index]⟩)
              | none => some (.fail ⟨.missingRightOperand '-', [source.spanAt index]⟩)
            else some (.fail ⟨.missingOperator, [source.spanAt index]⟩)

/-- Gather the leaves and operators from an index up to `stop` in the given number of rounds. -/
def gatherAt? (stop : Nat) : (count depth index : Nat) → Option (Recorded Gathered)
  | 0, _, _ => none
  | count + 1, depth, index =>
      if index < stop then
        (source.kindAt? index).bind fun kind ↦
          if kind.beginsLeaf then
            (source.leafAt? strict range stop (stop - index) index).bind fun leaf ↦
              leaf.andThen? fun (leaf, after) ↦
                (gatherAt? stop count depth after).map (.map (·.addLeaf index leaf))
          else
            match kind.operator? with
            | some operator =>
                (gatherAt? stop count depth (index + 1)).map
                  (.map (·.addOperator (.ofDepth index operator depth)))
            | none =>
                if kind = .openParen then gatherAt? stop count (depth + 1) (index + 1)
                else
                  (closeOne? strict depth).bind fun depth ↦ gatherAt? stop count depth (index + 1)
      else some (.done .empty)

end Range

/-- Read the lexemes with indices from `start` up to `stop`. Ranges inside nest no deeper than the
given number. -/
def rangeAt? : (nesting start stop : Nat) → Option (Recorded Expr)
  | 0, _, _ => none
  | nesting + 1, start, stop =>
      if strict ∧ ¬WellNested (source.kindsIn start stop) then none
      else
        (source.gatherAt? strict (rangeAt? nesting) stop (stop - start + 1) 0 start).bind
          fun gathered ↦ gathered.andThen? fun gathered ↦
            (source.rangeSpan? start stop).map fun span ↦
              gathered.build ⟨source.spanAt, span⟩ start stop

end Source

/-! ### What a strict reader needs -/

/-- If the reader is strict, the lexemes ahead close what is open before them. -/
def Closes (strict : Bool) (depth : Nat) (items : List Placed) : Prop :=
  strict = true → ∃ opened : List Placed, opened.length = depth ∧ balanceFault? opened items = none

namespace Closes

variable {strict : Bool} {depth : Nat} {item : Placed} {items rest : List Placed}

/-- What is no parenthesis closes nothing. -/
theorem other (h : Closes strict depth (item :: rest)) (hopen : item.kind ≠ .openParen)
    (hclose : item.kind ≠ .closeParen) : Closes strict depth rest := by
  intro hon
  obtain ⟨opened, hdepth, hbalance⟩ := h hon
  rw [balanceFault?_other hopen hclose] at hbalance
  exact ⟨opened, hdepth, hbalance⟩

/-- What is ahead of an opening parenthesis closes it too. -/
theorem openParen (h : Closes strict depth (item :: rest)) (hitem : item.kind = .openParen) :
    Closes strict (depth + 1) rest := by
  intro hon
  obtain ⟨opened, hdepth, hbalance⟩ := h hon
  rw [balanceFault?_openParen hitem] at hbalance
  exact ⟨item :: opened, congrArg (· + 1) hdepth, hbalance⟩

/-- One parenthesis is open in front of a closing one. -/
theorem closeParen (h : Closes strict depth (item :: rest)) (hitem : item.kind = .closeParen) :
    closeOne? strict depth = some (depth - 1) ∧ Closes strict (depth - 1) rest := by
  have hopened (hon : strict = true) : ∃ opened : List Placed, opened.length + 1 = depth ∧
      balanceFault? opened rest = none := by
    obtain ⟨opened, rfl, hbalance⟩ := h hon
    cases opened with
    | nil =>
      rw [balanceFault?_closing hitem] at hbalance
      cases hbalance
    | cons last outer =>
      rw [balanceFault?_closeParen hitem] at hbalance
      exact ⟨outer, rfl, hbalance⟩
  refine ⟨closeOne?_eq fun hon ↦ ?_, fun hon ↦ ?_⟩
  · obtain ⟨opened, rfl, -⟩ := hopened hon
    exact Nat.succ_pos _
  · obtain ⟨opened, rfl, hbalance⟩ := hopened hon
    exact ⟨opened, rfl, hbalance⟩

/-- A leaf closes all that it opens. -/
theorem owned {extent : Extent} (h : Closes strict depth items) (howns : Owns items extent rest) :
    Closes strict depth rest := by
  intro hon
  obtain ⟨opened, hdepth, hbalance⟩ := h hon
  rw [howns.balanceFault?] at hbalance
  exact ⟨opened, hdepth, hbalance⟩

/-- A group that belongs to a leaf is closed. -/
theorem exists_group {opening : Placed} {after : List Placed}
    (h : Closes strict depth (item :: opening :: after)) (hbegins : item.kind.beginsLeaf = true)
    (hopening : opening.kind = .openParen) (hon : strict = true) :
    ∃ group, splitGroup? 0 after = some group := by
  obtain ⟨opened, -, hbalance⟩ := h hon
  exact exists_group_of_balanceFault? hbalance hbegins hopening

end Closes

/-! ### Windows -/

/-- Lexemes that are left out are left out of those that are placed. -/
theorem drop_placeFrom (index count : Nat) (lexemes : List Lexeme) :
    (placeFrom index lexemes).drop count = placeFrom (index + count) (lexemes.drop count) := by
  induction count generalizing index lexemes with
  | zero => rfl
  | succ count ih =>
    cases lexemes with
    | nil => rfl
    | cons lexeme rest =>
      rw [placeFrom, List.drop_succ_cons, List.drop_succ_cons, ih, Nat.add_right_comm]
      rfl

namespace Source

variable {source : Source} {strict : Bool} {index start stop : Nat} {item : Placed}
  {rest : List Placed}

/-- The lexemes with indices from `start` up to `stop`, which a range is read from. -/
def window (source : Source) (start stop : Nat) : List Placed :=
  ((placeFrom 0 source.lexemes).drop start).take (stop - start)

/-- There is nothing between an index and an earlier one. -/
theorem window_eq_nil (h : stop ≤ start) : source.window start stop = [] := by
  rw [window, Nat.sub_eq_zero_of_le h, List.take_zero]

/-- A window has as many lexemes as it is long. -/
theorem length_window (hstop : stop ≤ source.lexemes.length) :
    (source.window start stop).length = stop - start := by
  rw [window, List.length_take, List.length_drop, length_placeFrom]
  omega

/-- The kinds of a window are those between its ends. -/
theorem map_kind_window (source : Source) (start stop : Nat) :
    (source.window start stop).map Placed.kind = source.kindsIn start stop := by
  rw [window, kindsIn, List.map_take, List.map_drop, map_kind_placeFrom]

/-- A window without its first lexemes begins further to the right. -/
theorem drop_window (source : Source) (start stop count : Nat) :
    (source.window start stop).drop count = source.window (start + count) stop := by
  rw [window, window, List.drop_take, List.drop_drop, Nat.sub_sub]

/-- A window begins with the lexeme at its start. -/
theorem window_of_getElem? {lexeme : Lexeme} (hlt : start < stop)
    (h : source.lexemes[start]? = some lexeme) :
    source.window start stop = ⟨start, lexeme⟩ :: source.window (start + 1) stop := by
  obtain ⟨hstart, rfl⟩ := List.getElem?_eq_some_iff.1 h
  rw [window, window, drop_placeFrom, drop_placeFrom, List.drop_eq_getElem_cons hstart, placeFrom,
    show stop - start = stop - (start + 1) + 1 by omega, List.take_succ_cons, Nat.zero_add,
    Nat.zero_add]

/-- What the first lexeme of a window says. -/
theorem window_eq_cons (h : source.window start stop = item :: rest) :
    start < stop ∧ item.index = start ∧ source.lexemes[start]? = some item.lexeme ∧
      source.window (start + 1) stop = rest := by
  have hlt : start < stop := by
    by_contra hle
    rw [window_eq_nil (Nat.not_lt.1 hle)] at h
    cases h
  cases hlexeme : source.lexemes[start]? with
  | none =>
    rw [window, drop_placeFrom, List.drop_eq_nil_of_le (List.getElem?_eq_none_iff.1 hlexeme),
      placeFrom, List.take_nil] at h
    cases h
  | some lexeme =>
    rw [window_of_getElem? hlt hlexeme] at h
    obtain ⟨rfl, rfl⟩ := List.cons.inj h
    exact ⟨hlt, rfl, rfl, rfl⟩

/-- The kind at the start of a window is that of its first lexeme. -/
theorem kindAt?_of_window (h : source.window start stop = item :: rest) :
    source.kindAt? start = some item.kind := by
  rw [kindAt?, (window_eq_cons h).2.2.1]
  rfl

/-- The region at the start of a window is that of its first lexeme. -/
theorem spanAt_of_window (h : source.window start stop = item :: rest) :
    source.spanAt start = item.span := by
  rw [spanAt, (window_eq_cons h).2.2.1]
  rfl

/-- The lexeme that is looked at next is the first one of a window. -/
theorem nextAt?_eq (hstop : stop ≤ source.lexemes.length) :
    source.nextAt? index stop = (source.window index stop).head?.map Placed.kind := by
  unfold nextAt?
  split
  · rename_i hlt
    have hindex := List.getElem?_eq_getElem (Nat.lt_of_lt_of_le hlt hstop)
    rw [window_of_getElem? hlt hindex, kindAt?, hindex]
    rfl
  · rename_i hle
    rw [window_eq_nil (Nat.not_lt.1 hle)]
    rfl

/-- A window that does not end at its start begins with a lexeme. -/
theorem exists_window_eq_cons (hlt : start < stop) (hstop : stop ≤ source.lexemes.length) :
    ∃ item rest, source.window start stop = item :: rest :=
  ⟨_, _, window_of_getElem? hlt (List.getElem?_eq_getElem (Nat.lt_of_lt_of_le hlt hstop))⟩

/-- A lexeme cuts a window into the windows in front of it and behind it. -/
theorem window_eq_append {front back : List Placed}
    (h : source.window start stop = front ++ item :: back) :
    start ≤ item.index ∧ item.index < stop ∧ source.window start item.index = front ∧
      source.window (item.index + 1) stop = back := by
  induction front generalizing start with
  | nil =>
    obtain ⟨hlt, rfl, -, hback⟩ := window_eq_cons h
    exact ⟨Nat.le_refl _, hlt, window_eq_nil (Nat.le_refl _), hback⟩
  | cons first others ih =>
    obtain ⟨-, rfl, hlexeme, hothers⟩ := window_eq_cons h
    obtain ⟨hle, hlt, hfront, hback⟩ := ih hothers
    refine ⟨Nat.le_of_succ_le hle, hlt, ?_, hback⟩
    rw [window_of_getElem? hle hlexeme, hfront]

/-- The end of a window is a window. -/
theorem window_eq_append_right {front back : List Placed} (hstop : stop ≤ source.lexemes.length)
    (h : source.window start stop = front ++ back) :
    source.window (stop - back.length) stop = back := by
  have hlength := congrArg List.length h
  have hdrop := congrArg (List.drop front.length) h
  rw [length_window hstop, List.length_append] at hlength
  rw [drop_window, List.drop_left] at hdrop
  cases hback : back with
  | nil => exact window_eq_nil (Nat.le_refl _)
  | cons item rest =>
    rw [← hback, ← hdrop]
    congr 1
    have : 0 < back.length := by simp [hback]
    rw [length_window hstop]
    omega

/-! ### Groups -/

/-- The search by positions finds the parenthesis that closes the group. Its depth never falls below
one. -/
theorem closingAt?_eq (strict : Bool) (depth : Nat) {items : List Placed}
    (h : source.window index stop = items) :
    source.closingAt? strict items.length (depth + 1) index =
      some ((splitGroup? depth items).map fun group ↦ group.closing.index) := by
  induction items generalizing depth index with
  | nil => rfl
  | cons item rest ih =>
    obtain ⟨-, rfl, -, hrest⟩ := window_eq_cons h
    rw [List.length_cons]
    by_cases hopen : item.kind = .openParen
    · rw [splitGroup?_openParen hopen, closingAt?, kindAt?_of_window h, hopen]
      simp only [ih (depth + 1) hrest, Option.map_map]
      rfl
    · by_cases hclose : item.kind = .closeParen
      · rw [closingAt?, kindAt?_of_window h, hclose]
        -- at depth zero this is the parenthesis that is sought
        cases depth with
        | zero =>
          rw [splitGroup?_closing hclose]
          rfl
        | succ depth =>
          rw [splitGroup?_closeParen hclose]
          simp only [closeOne?, Option.bind_some, if_neg (Nat.succ_ne_zero depth), ih depth hrest,
            Option.map_map]
          rfl
      · have hstep : source.closingAt? strict (rest.length + 1) (depth + 1) item.index =
            source.closingAt? strict rest.length (depth + 1) (item.index + 1) := by
          rw [closingAt?, kindAt?_of_window h]
          generalize item.kind = kind at hopen hclose
          cases kind <;> first | contradiction | rfl
        rw [splitGroup?_other hopen hclose, hstep, ih depth hrest, Option.map_map]
        rfl

/-- Read what a leaf ends in. -/
def readEnding (source : Source) : Ending → Recorded Expr
  | .value operand => .done operand
  | .group _ opening closing _ => source.readRange (opening + 1) closing

/-- Read a leaf in front of `stop`, given what its extent is found to be. The result comes with the
index after the leaf. -/
def readOwned (source : Source) (stop : Nat) (owned : Except Fault (Extent × List Placed)) :
    Recorded (Expr × Nat) :=
  (Recorded.ofExcept owned).andThen fun (extent, after) ↦
    (source.readEnding extent.ending).map fun contents ↦
      (extent.leaf contents, stop - after.length)

/-- The sign in front of a leaf negates what is read of it. -/
theorem readOwned_negated (source : Source) (stop : Nat)
    (owned : Except Fault (Extent × List Placed)) :
    source.readOwned stop (owned.map fun (extent, after) ↦ (extent.negated, after)) =
      (source.readOwned stop owned).map fun (operand, after) ↦ (.neg operand, after) := by
  cases owned with
  | error fault => rfl
  | ok found =>
    obtain ⟨⟨negations, ending⟩, after⟩ := found
    cases hoperand : (source.readEnding ending).outcome <;>
      simp [readOwned, Recorded.andThen, Recorded.ofExcept, Recorded.map, Extent.negated, hoperand,
        Except.map, Extent.leaf, negate]

/-- A function is applied to the contents of its group. -/
theorem readOwned_call (source : Source) (stop : Nat) (function : Function) (opening : Placed)
    (after : List Placed) :
    source.readOwned stop (groupExtent (some function) opening after) =
      (source.readOwned stop (groupExtent none opening after)).map
        fun (argument, after) ↦ (.call function argument, after) := by
  unfold groupExtent
  cases splitGroup? 0 after with
  | none => rfl
  | some group =>
    cases hoperand : (source.readRange (opening.index + 1) group.closing.index).outcome <;>
      simp [readOwned, readEnding, Recorded.andThen, Recorded.ofExcept, Recorded.map, hoperand,
        Except.map, Extent.leaf, Ending.operand, negate]

/-- The region of a range is found without leaving the list, also if the range ends in front of its
start. -/
theorem rangeSpan?_eq (hstart : start ≤ source.lexemes.length)
    (hstop : stop ≤ source.lexemes.length) :
    source.rangeSpan? start stop = some (source.rangeSpan start stop) := by
  unfold rangeSpan? rangeSpan spanAt
  split
  · rw [List.getElem?_eq_getElem (show start < source.lexemes.length by omega),
      List.getElem?_eq_getElem (show stop - 1 < source.lexemes.length by omega)]
    rfl
  · split
    · rw [List.getElem?_eq_getElem (show start - 1 < source.lexemes.length by omega),
        List.getElem?_eq_getElem (show stop < source.lexemes.length by omega)]
      rfl
    · rfl

/-- How to read ranges is known for all ranges inside a window, or, if the reader is strict, for
those that are well nested. -/
def ReadsInside (source : Source) (strict : Bool) (range : Nat → Nat → Option (Recorded Expr))
    (start stop : Nat) : Prop :=
  ∀ first last, start < first → first ≤ last → last < stop →
    (strict = true → WellNested (source.kindsIn first last)) →
      range first last = some (source.readRange first last)

section Range

variable {range : Nat → Nat → Option (Recorded Expr)} {depth : Nat}

/-- What reads a range reads every range inside it that ends with it. -/
theorem ReadsInside.mono {later : Nat} (h : source.ReadsInside strict range start stop)
    (hle : start ≤ later) : source.ReadsInside strict range later stop :=
  fun first last hfirst ↦ h first last (Nat.lt_of_le_of_lt hle hfirst)

/-- A group is read as its extent says. -/
theorem groupAt?_eq {opening : Placed} {after : List Placed}
    (hstop : stop ≤ source.lexemes.length) (hrange : source.ReadsInside strict range index stop)
    (h : source.window index stop = opening :: after) (hopening : opening.kind = .openParen)
    (hstrict : strict = true → ∃ group, splitGroup? 0 after = some group) :
    source.groupAt? strict range index stop =
      some (source.readOwned stop (groupExtent none opening after)) := by
  have hlength : stop - index = after.length + 1 := by
    rw [← length_window hstop, h, List.length_cons]
  obtain ⟨-, rfl, -, hafter⟩ := window_eq_cons h
  have hclosing : source.closingAt? strict (stop - opening.index) 0 opening.index =
      some ((splitGroup? 0 after).map fun group ↦ group.closing.index) := by
    rw [hlength, closingAt?, kindAt?_of_window h, hopening]
    exact closingAt?_eq strict 0 hafter
  rw [groupAt?, hclosing, groupExtent, Option.bind_some]
  cases hgroup : splitGroup? 0 after with
  | none =>
    -- only a lax reader gets here: a strict one knows that the group is closed
    have hlax : ¬strict = true := fun hon ↦ by
      obtain ⟨group, hsome⟩ := hstrict hon
      cases hgroup.symm.trans hsome
    simp only [Option.map_none, if_neg hlax, spanAt_of_window h]
    rfl
  | some group =>
    rw [splitGroup?_eq_some hgroup] at hafter
    obtain ⟨hle, hclosing, hcontents, hrest⟩ := window_eq_append hafter
    have hnested : WellNested (source.kindsIn (opening.index + 1) group.closing.index) := by
      rw [← map_kind_window, hcontents, ← balanceFault?_eq_none_iff]
      exact ((balanceFault?_splitGroup? hgroup).2 [] rfl).2
    have hnext : group.closing.index + 1 = stop - group.rest.length := by
      rw [← hrest, length_window hstop]
      omega
    simp only [Option.map_some, hrange _ _ (Nat.lt_succ_self _) hle hclosing fun _ ↦ hnested, hnext]
    rfl

/-- A group behind the first lexeme of a leaf is read as its extent says. -/
theorem groupAt?_of_leaf {next : Placed} {after : List Placed}
    (hstop : stop ≤ source.lexemes.length) (hrange : source.ReadsInside strict range index stop)
    (h : source.window index stop = item :: next :: after)
    (hcloses : Closes strict depth (item :: next :: after))
    (hbegins : item.kind.beginsLeaf = true) (hopening : next.kind = .openParen) :
    source.groupAt? strict range (index + 1) stop =
      some (source.readOwned stop (groupExtent none next after)) := by
  obtain ⟨-, -, -, hrest⟩ := window_eq_cons h
  exact groupAt?_eq hstop (hrange.mono (Nat.le_succ index)) hrest hopening
    (hcloses.exists_group hbegins hopening)

/-- A call is read as its extent says. -/
theorem callAt?_eq {function : Function} (hstop : stop ≤ source.lexemes.length)
    (hrange : source.ReadsInside strict range index stop)
    (h : source.window index stop = item :: rest)
    (hcloses : Closes strict depth (item :: rest))
    (hfunction : item.kind.function? = some function) :
    source.callAt? strict range function index stop =
      some (source.readOwned stop (callExtent function item rest)) := by
  obtain ⟨-, -, -, hrest⟩ := window_eq_cons h
  rw [callAt?, nextAt?_eq hstop, hrest, spanAt_of_window h]
  cases rest with
  | nil => rfl
  | cons next after =>
    have hbegins : item.kind.beginsLeaf = true := by
      simp [Lexeme.Kind.beginsLeaf, Lexeme.Kind.isFunction, hfunction]
    rw [List.head?_cons, Option.map_some, callExtent]
    by_cases hopening : next.kind = .openParen
    · rw [if_pos (congrArg some hopening), if_pos hopening,
        groupAt?_of_leaf hstop hrange h hcloses hbegins hopening, readOwned_call, Option.map_some]
    · rw [if_neg fun heq ↦ hopening (Option.some.inj heq), if_neg hopening]
      rfl

/-- A leaf is read as its extent says. -/
theorem leafAt?_eq {count : Nat} (hstop : stop ≤ source.lexemes.length)
    (hrange : source.ReadsInside strict range index stop)
    (h : source.window index stop = item :: rest) (hcount : rest.length < count)
    (hcloses : Closes strict depth (item :: rest)) :
    source.leafAt? strict range stop count index =
      some (source.readOwned stop (extentOf item rest)) := by
  induction count generalizing index item rest with
  | zero => cases hcount
  | succ count ih =>
    obtain ⟨hlt, -, -, hrest⟩ := window_eq_cons h
    rw [leafAt?, kindAt?_of_window h, Option.bind_some, nextAt?_eq hstop, hrest,
      spanAt_of_window h, extentOf.eq_def]
    cases hvalue : item.kind.value? with
    | some operand =>
      have hnext : index + 1 = stop - rest.length := by
        rw [← hrest, length_window hstop]
        omega
      simp only [hnext]
      rfl
    | none =>
      cases hfunction : item.kind.function? with
      | some function => exact callAt?_eq hstop hrange h hcloses hfunction
      | none =>
        by_cases hnegative : item.kind = .negative
        · simp only [if_pos hnegative]
          cases rest with
          | nil => rfl
          | cons next after =>
            have hbegins : item.kind.beginsLeaf = true := by
              rw [hnegative]
              rfl
            simp only [List.head?_cons, Option.map_some]
            by_cases hopening : next.kind = .openParen
            · rw [if_pos hopening, if_pos hopening, readOwned_negated,
                groupAt?_of_leaf hstop hrange h hcloses hbegins hopening, Option.map_some]
            · rw [if_neg hopening, if_neg hopening]
              cases next.kind.beginsLeaf with
              | true =>
                -- the chain of negations goes on behind this one
                obtain ⟨hopen, hclose⟩ := Lexeme.Kind.ne_paren_of_beginsLeaf hbegins
                have hchain := ih (hrange.mono (Nat.le_succ index)) hrest
                  (Nat.lt_of_succ_lt_succ hcount) (hcloses.other hopen hclose)
                rw [if_pos rfl, if_pos rfl, hchain, readOwned_negated, Option.map_some]
              | false => rfl
        · simp only [if_neg hnegative]
          rfl

/-! ### Ranges -/

/-- What follows a leaf in a window is a window, and so is the group that the leaf ends in. -/
theorem window_of_owns {items : List Placed} {extent : Extent}
    (hstop : stop ≤ source.lexemes.length) (h : Owns items extent rest)
    (hitems : source.window index stop = items) :
    source.window (stop - rest.length) stop = rest ∧
      ∀ function opening closing contents,
        extent.ending = .group function opening closing contents →
          source.window (opening + 1) closing = contents := by
  induction h generalizing index with
  | @value item operand rest _ =>
    have hrest : source.window index stop = [item] ++ rest := hitems
    refine ⟨window_eq_append_right hstop hrest, fun _ _ _ _ hending ↦ ?_⟩
    cases hending
  | @owned item opening after group opener _ _ hgroup =>
    obtain ⟨-, -, -, hopening⟩ := window_eq_cons hitems
    obtain ⟨-, hindex, -, hafter⟩ := window_eq_cons hopening
    rw [splitGroup?_eq_some hgroup, ← hindex] at hafter
    obtain ⟨-, -, hcontents, -⟩ := window_eq_append hafter
    refine ⟨?_, fun _ _ _ _ hending ↦ ?_⟩
    · rw [List.append_cons] at hafter
      exact window_eq_append_right hstop hafter
    · cases opener <;> cases hending <;> exact hcontents
  | negated _ _ ih =>
    obtain ⟨-, -, -, hrest⟩ := window_eq_cons hitems
    exact ih hrest

/-- A leaf has an extent, and reading goes on where its extent ends. -/
theorem exists_of_readOwned {leaf : Expr} {after : Nat}
    (h : (source.readOwned stop (extentOf item rest)).outcome = .ok (leaf, after)) :
    ∃ extent following, Owns (item :: rest) extent following ∧ following.length ≤ rest.length ∧
      after = stop - following.length := by
  unfold readOwned at h
  rw [Recorded.outcome_andThen] at h
  obtain ⟨⟨extent, following⟩, hextent, h⟩ := exists_of_bind_eq_ok h
  obtain ⟨contents, -, hresult⟩ := exists_of_map_eq_ok h
  obtain ⟨-, rfl⟩ := Prod.mk.inj hresult
  exact ⟨extent, following, owns_of_extentOf hextent, (fitsIn_extentOf hextent).2, rfl⟩

/-- Gathering begins with a leaf and goes on behind it. -/
theorem gather_leaf (depth : Nat) (hstop : stop ≤ source.lexemes.length)
    (h : source.window index stop = item :: rest) (hbegins : item.kind.beginsLeaf = true) :
    source.gather depth (item :: rest) =
      (source.readOwned stop (extentOf item rest)).andThen fun (leaf, after) ↦
        (source.gather depth (source.window after stop)).map (·.addLeaf item.index leaf) := by
  rw [gather]
  simp only [hbegins, if_true]
  split
  · rename_i fault hfault
    rw [hfault]
    rfl
  · rename_i extent after hextent
    obtain ⟨hafter, hcontents⟩ := window_of_owns hstop (owns_of_extentOf hextent) h
    rw [hextent]
    show _ = ((source.readEnding extent.ending).map _).andThen _
    rw [Recorded.andThen_map]
    simp only [hafter]
    split
    · rename_i operand hending
      rw [hending]
      rfl
    · rename_i opening closing contents hending
      have hgroup := hcontents _ _ _ _ hending
      rw [hending, readEnding, readRange, ← hgroup]
      rfl

/-- The lexemes from an index on are gathered by positions like in the list. A strict reader knows
how many parentheses are open. -/
theorem gatherAt?_eq {count : Nat} (hstop : stop ≤ source.lexemes.length)
    (hrange : source.ReadsInside strict range index stop) (hcount : stop - index < count)
    (hcloses : Closes strict depth (source.window index stop)) :
    source.gatherAt? strict range stop count depth index =
      some (source.gather depth (source.window index stop)) := by
  -- the count stays above the number of lexemes that are left, so it never runs out
  induction count generalizing depth index with
  | zero => cases hcount
  | succ count ih =>
    rw [gatherAt?]
    by_cases hlt : index < stop
    · obtain ⟨item, rest, hitems⟩ := exists_window_eq_cons hlt hstop
      obtain ⟨-, rfl, -, hrest⟩ := window_eq_cons hitems
      have hlength : rest.length < stop - item.index := by
        rw [← length_window hstop, hitems]
        exact Nat.lt_succ_self _
      -- wherever the reading goes on, the rest is again the window up to the same end
      have hlater {depth : Nat} {following : List Placed} (hle : following.length ≤ rest.length)
          (hfollowing : source.window (stop - following.length) stop = following)
          (hcloses : Closes strict depth following) :
          source.gatherAt? strict range stop count depth (stop - following.length) =
            some (source.gather depth following) := by
        rw [← hfollowing] at hcloses
        rw [ih (hrange.mono (by omega)) (by omega) hcloses, hfollowing]
      rw [hitems] at hcloses ⊢
      rw [if_pos hlt, kindAt?_of_window hitems, Option.bind_some]
      cases hbegins : item.kind.beginsLeaf with
      | true =>
        rw [if_pos rfl, leafAt?_eq hstop hrange hitems hlength hcloses, Option.bind_some,
          gather_leaf depth hstop hitems hbegins]
        refine Recorded.andThen?_eq_some fun (leaf, after) houtcome ↦ ?_
        obtain ⟨extent, following, howns, hle, rfl⟩ := exists_of_readOwned houtcome
        have hfollowing := (window_of_owns hstop howns hitems).1
        simp only [hlater hle hfollowing (hcloses.owned howns), hfollowing, Option.map_some]
      | false =>
        have hindex : item.index + 1 = stop - rest.length := by
          rw [← hrest, length_window hstop]
          omega
        have hnext {depth : Nat} (hcloses : Closes strict depth rest) :
            source.gatherAt? strict range stop count depth (item.index + 1) =
              some (source.gather depth rest) := by
          rw [hindex] at hrest ⊢
          exact hlater (Nat.le_refl _) hrest hcloses
        rw [if_neg Bool.false_ne_true]
        rcases Lexeme.Kind.operator_or_paren hbegins with ⟨op, hitem⟩ | hitem | hitem
        · have hother := Lexeme.Kind.lexemeKind_ne_paren op
          rw [← hitem] at hother
          rw [hnext (hcloses.other hother.1 hother.2), source.gather_operator depth hitem, hitem,
            Lexeme.Kind.operator?_lexemeKind]
          rfl
        · rw [hitem, source.gather_openParen depth hitem]
          exact hnext (hcloses.openParen hitem)
        · obtain ⟨hclose, hcloses⟩ := hcloses.closeParen hitem
          rw [hitem, source.gather_closeParen depth hitem]
          show (closeOne? strict depth).bind _ = _
          rw [hclose, Option.bind_some]
          exact hnext hcloses
    · rw [if_neg hlt, window_eq_nil (Nat.not_lt.1 hlt), gather_nil]

end Range

/-- Every range of the list is read by positions as it is read in the list, and nothing is refused.
A strict reader needs a range that is well nested. -/
theorem rangeAt?_eq {nesting : Nat} (hstart : start ≤ source.lexemes.length)
    (hstop : stop ≤ source.lexemes.length) (hnesting : stop - start < nesting)
    (hstrict : strict = true → WellNested (source.kindsIn start stop)) :
    source.rangeAt? strict nesting start stop = some (source.readRange start stop) := by
  induction nesting generalizing start stop with
  | zero => cases hnesting
  | succ nesting ih =>
    have hrange : source.ReadsInside strict (source.rangeAt? strict nesting) start stop :=
      fun first last hfirst hle hlast hnested ↦ ih (by omega) (by omega) (by omega) hnested
    have hgather : source.gatherAt? strict (source.rangeAt? strict nesting) stop (stop - start + 1)
        0 start = some (source.gather 0 (source.window start stop)) := by
      refine gatherAt?_eq hstop hrange (Nat.lt_succ_self _) fun hon ↦ ⟨[], rfl, ?_⟩
      rw [balanceFault?_eq_none_iff, map_kind_window]
      exact hstrict hon
    rw [rangeAt?, if_neg fun h ↦ h.2 (hstrict h.1), hgather, Option.bind_some, readRange]
    refine Recorded.andThen?_eq_some fun gathered _ ↦ ?_
    rw [rangeSpan?_eq hstart hstop]
    rfl

/-- Reading a range is total, for any lexemes and any range of them, also one that ends in front of
its start: no access leaves the list, and ranges nest no deeper than the range is long. A leaf that
is read ends behind its start, and not behind the range. -/
theorem readRange_total (hstart : start ≤ source.lexemes.length)
    (hstop : stop ≤ source.lexemes.length) :
    (∀ nesting, stop - start < nesting →
        source.rangeAt? false nesting start stop = some (source.readRange start stop)) ∧
      ∀ index nesting, index < stop → stop - index ≤ nesting → ∃ recorded,
        source.leafAt? false (source.rangeAt? false nesting) stop (stop - index) index =
            some recorded ∧
          ∀ leaf after, recorded.outcome = .ok (leaf, after) → index < after ∧ after ≤ stop := by
  refine ⟨fun nesting hnesting ↦ rangeAt?_eq hstart hstop hnesting nofun, ?_⟩
  intro index nesting hlt hnesting
  obtain ⟨item, rest, hitems⟩ := exists_window_eq_cons hlt hstop
  have hlength : stop - index = rest.length + 1 := by
    rw [← length_window hstop, hitems, List.length_cons]
  have hrange : source.ReadsInside false (source.rangeAt? false nesting) index stop :=
    fun first last hfirst hle hlast hnested ↦
      rangeAt?_eq (by omega) (by omega) (by omega) hnested
  have hcloses : Closes false 0 (item :: rest) := nofun
  refine ⟨_, leafAt?_eq hstop hrange hitems (by omega) hcloses, fun leaf after houtcome ↦ ?_⟩
  obtain ⟨extent, following, -, hle, rfl⟩ := exists_of_readOwned houtcome
  omega

/-- Of `-sin(x$` four lexemes are kept, and the group that they open is not closed. The range from
the third to the first of them is empty. -/
theorem readRange_total_unclosed :
    let source : Source := ⟨(lex .multiVariable "-sin(x$".toList).lexemes, 7⟩
    3 ≤ source.lexemes.length ∧ 1 ≤ source.lexemes.length ∧
      source.rangeAt? false 1 3 1 = some (source.readRange 3 1) ∧
      (source.readRange 3 1).outcome = .error ⟨.emptyInput, [⟨4, 4⟩]⟩ ∧
      (source.readRange 0 4).outcome = .error ⟨.unbalancedParentheses true, [⟨4, 5⟩]⟩ := by
  intro source
  have hlexemes : source.lexemes.length = 4 := by decide +kernel
  have hreversed := (@readRange_total source 3 1 (by omega) (by omega)).1 1 (by omega)
  have hall := (@readRange_total source 0 4 (by omega) (by omega)).1 5 (by omega)
  have hempty : (source.rangeAt? false 1 3 1).map Recorded.outcome =
      some (.error ⟨.emptyInput, [⟨4, 4⟩]⟩) := by decide +kernel
  have hunclosed : (source.rangeAt? false 5 0 4).map Recorded.outcome =
      some (.error ⟨.unbalancedParentheses true, [⟨4, 5⟩]⟩) := by decide +kernel
  rw [hreversed] at hempty
  rw [hall] at hunclosed
  exact ⟨by omega, by omega, hreversed, Option.some.inj hempty, Option.some.inj hunclosed⟩

end Source

end Nabla.Formula
