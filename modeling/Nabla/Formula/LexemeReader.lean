import Nabla.Formula.Assembly

/-!
# Reading expressions from lexemes

A range of lexemes is read in two steps. First its leaves and its operators are gathered: a leaf is
a value, or a function call or negation together with the lexemes it owns. Parentheses that belong
to no such leaf are not read on their own; they raise the precedence of the operators inside. Then
the operators are built by `Gathered.build`.

The extent of a leaf is found by looking at the lexemes alone (`extentOf`), and only the contents
of a group it ends in are read in turn. Both parts are shorter than the range, so reading ends.
-/

namespace Nabla.Formula

/-- A lexeme and its index in the list it comes from. -/
structure Placed where
  index : Nat
  lexeme : Lexeme
deriving DecidableEq

/-- The kind of a placed lexeme. -/
def Placed.kind (item : Placed) : Lexeme.Kind := item.lexeme.kind

/-- The region of a placed lexeme. -/
def Placed.span (item : Placed) : Text.Span := item.lexeme.span

/-- Lexemes with their indices, from the given index on. -/
def placeFrom (index : Nat) : List Lexeme → List Placed
  | [] => []
  | lexeme :: rest => ⟨index, lexeme⟩ :: placeFrom (index + 1) rest

/-! ### Balance -/

/-- A parenthesis without a partner, given the opening ones that are still to be closed. It is the
first closing one without a partner or, if there is none, the last opening one. -/
def balanceFault? (opened : List Placed) : List Placed → Option Fault
  | [] => opened.head?.map fun item ↦ ⟨.unbalancedParentheses true, [item.span]⟩
  | item :: rest =>
      match item.kind with
      | .openParen => balanceFault? (item :: opened) rest
      | .closeParen =>
          match opened with
          | [] => some ⟨.unbalancedParentheses false, [item.span]⟩
          | _ :: outer => balanceFault? outer rest
      | _ => balanceFault? opened rest

/-! ### Groups -/

/-- What follows an opening parenthesis: the contents of the group, the parenthesis that closes it,
and the rest. -/
structure Group where
  contents : List Placed
  closing : Placed
  rest : List Placed

/-- A group with one more lexeme at the start of its contents. -/
def Group.cons (item : Placed) (group : Group) : Group :=
  { group with contents := item :: group.contents }

/-- The group that lexemes after an opening parenthesis begin with, given how many inner
parentheses are open. -/
def splitGroup? (depth : Nat) : List Placed → Option Group
  | [] => none
  | item :: rest =>
      match item.kind with
      | .openParen => (splitGroup? (depth + 1) rest).map (.cons item)
      | .closeParen =>
          match depth with
          | 0 => some ⟨[], item, rest⟩
          | depth + 1 => (splitGroup? depth rest).map (.cons item)
      | _ => (splitGroup? depth rest).map (.cons item)

/-- A group is cut out of the lexemes without loss. -/
theorem splitGroup?_eq_some {depth : Nat} {items : List Placed} {group : Group}
    (h : splitGroup? depth items = some group) :
    items = group.contents ++ group.closing :: group.rest := by
  induction items generalizing depth group with
  | nil => cases h
  | cons item rest ih =>
    have hcons {depth : Nat} (h : (splitGroup? depth rest).map (.cons item) = some group) :
        item :: rest = group.contents ++ group.closing :: group.rest := by
      obtain ⟨inner, hinner, rfl⟩ := Option.map_eq_some_iff.1 h
      rw [ih hinner]
      rfl
    unfold splitGroup? at h
    split at h
    · exact hcons h
    · split at h
      · cases h
        rfl
      · exact hcons h
    · exact hcons h

/-! ### The extent of a leaf -/

/-- What the negations in front of a leaf end in. -/
inductive Ending where
  /-- A symbol or a number. -/
  | value (operand : Expr)
  /-- A group, which may be the argument of a function. The group stands between the lexemes with
  the given indices. -/
  | group (function : Option Function) (opening closing : Nat) (contents : List Placed)

/-- The lexemes that are still to be read. -/
def Ending.contents : Ending → List Placed
  | .value _ => []
  | .group _ _ _ contents => contents

/-- The lexemes a leaf owns: its negations and what they end in. -/
structure Extent where
  negations : Nat
  ending : Ending

/-- An expression with the given number of negations in front. -/
def negate : Nat → Expr → Expr
  | 0, operand => operand
  | negations + 1, operand => .neg (negate negations operand)

/-- The operand that an ending stands for, given the value it is or the contents it has. -/
def Ending.operand (ending : Ending) (contents : Expr) : Expr :=
  match ending with
  | .group (some function) _ _ _ => .call function contents
  | _ => contents

/-- The leaf that an extent stands for, given the value or the contents it ends in. -/
def Extent.leaf (extent : Extent) (contents : Expr) : Expr :=
  negate extent.negations (extent.ending.operand contents)

/-- Whether a leaf can begin with a lexeme of this kind. -/
def Lexeme.Kind.beginsLeaf (kind : Lexeme.Kind) : Bool :=
  kind.isValue || kind.isFunction || kind == .negative

/-- The extent of a group, given its opening parenthesis and the lexemes after it, and the lexemes
after the group. -/
def groupExtent (function : Option Function) (opening : Placed) (after : List Placed) :
    Except Fault (Extent × List Placed) :=
  match splitGroup? 0 after with
  | some group =>
      .ok (⟨0, .group function opening.index group.closing.index group.contents⟩, group.rest)
  | none => .error ⟨.unbalancedParentheses true, [opening.span]⟩

/-- The extent of a call, given the lexeme that names the function and the lexemes after it. -/
def callExtent (function : Function) (name : Placed) :
    List Placed → Except Fault (Extent × List Placed)
  | opening :: after =>
      if opening.kind = .openParen then groupExtent (some function) opening after
      else .error ⟨.missingFunctionArgument function, [name.span]⟩
  | [] => .error ⟨.missingFunctionArgument function, [name.span]⟩

/-- An extent with one more negation in front. -/
def Extent.negated (extent : Extent) : Extent :=
  { extent with negations := extent.negations + 1 }

/-- The extent of the leaf that begins with a lexeme, given the lexemes after it, and the lexemes
after the leaf. -/
def extentOf (item : Placed) (rest : List Placed) : Except Fault (Extent × List Placed) :=
  match item.kind.value?, item.kind.function? with
  | some operand, _ => .ok (⟨0, .value operand⟩, rest)
  | none, some function => callExtent function item rest
  | none, none =>
      if item.kind = .negative then
        match rest with
        | next :: after =>
            if next.kind = .openParen then
              (groupExtent none next after).map fun (extent, rest) ↦ (extent.negated, rest)
            else if next.kind.beginsLeaf then
              (extentOf next after).map fun (extent, rest) ↦ (extent.negated, rest)
            else .error ⟨.missingRightOperand '-', [item.span]⟩
        | [] => .error ⟨.missingRightOperand '-', [item.span]⟩
      else .error ⟨.missingOperator, [item.span]⟩

/-- The contents of an extent and the lexemes after it fit into the given number of lexemes. -/
def FitsIn (count : Nat) (result : Extent × List Placed) : Prop :=
  result.1.ending.contents.length ≤ count ∧ result.2.length ≤ count

/-- A group has no more lexemes than there are. -/
theorem fitsIn_groupExtent {function : Option Function} {opening : Placed}
    {after : List Placed} {result : Extent × List Placed}
    (h : groupExtent function opening after = .ok result) : FitsIn after.length result := by
  unfold groupExtent at h
  split at h
  · rename_i group hgroup
    cases h
    rw [splitGroup?_eq_some hgroup]
    simp only [FitsIn, Ending.contents, List.length_append, List.length_cons]
    omega
  · cases h

/-- A call has no more lexemes than there are. -/
theorem fitsIn_callExtent {function : Function} {name : Placed} {rest : List Placed}
    {result : Extent × List Placed} (h : callExtent function name rest = .ok result) :
    FitsIn rest.length result := by
  unfold callExtent at h
  split at h
  · split at h
    · have hfits := fitsIn_groupExtent h
      simp only [FitsIn, List.length_cons] at hfits ⊢
      omega
    · cases h
  · cases h

/-- A negation in front does not change what is left to read. -/
theorem fitsIn_negated {count : Nat} {next : Placed} {outcome : Except Fault (Extent × List Placed)}
    {after : List Placed} {result : Extent × List Placed} (hcount : count = (next :: after).length)
    (hfits : ∀ {result}, outcome = .ok result → FitsIn after.length result)
    (h : outcome.map (fun (extent, rest) ↦ (extent.negated, rest)) = .ok result) :
    FitsIn count result := by
  cases outcome with
  | error fault => cases h
  | ok inner =>
    cases h
    have := hfits rfl
    subst hcount
    simp only [FitsIn, Extent.negated, List.length_cons] at this ⊢
    omega

/-- The contents of a leaf and the lexemes after it are shorter than the leaf with the lexemes
after it. -/
theorem fitsIn_extentOf {item : Placed} {rest : List Placed} {result : Extent × List Placed}
    (h : extentOf item rest = .ok result) : FitsIn rest.length result := by
  induction rest generalizing item result with
  | nil =>
    unfold extentOf at h
    split at h
    · cases h
      simp [FitsIn, Ending.contents]
    · exact fitsIn_callExtent h
    · split at h <;> cases h
  | cons next after ih =>
    unfold extentOf at h
    split at h
    · cases h
      simp [FitsIn, Ending.contents]
    · exact fitsIn_callExtent h
    · split at h
      · simp only at h
        split at h
        · exact fitsIn_negated rfl fitsIn_groupExtent h
        · split at h
          · exact fitsIn_negated rfl ih h
          · cases h
      · cases h

/-! ### Reading a range -/

/-- The lexemes that ranges are taken from, and the number of bytes of their text. -/
structure Source where
  lexemes : List Lexeme
  length : Nat

namespace Source

/-- The region of the lexeme at an index, or the end of the text. -/
def spanAt (source : Source) (index : Nat) : Text.Span :=
  match source.lexemes[index]? with
  | some lexeme => lexeme.span
  | none => ⟨source.length, source.length⟩

/-- The region of a range of lexemes. An empty range is widened to the lexemes on both sides of it,
or to the whole text if there are none. -/
def rangeSpan (source : Source) (start stop : Nat) : Text.Span :=
  if start < stop then ⟨(source.spanAt start).start, (source.spanAt (stop - 1)).stop⟩
  else if 0 < start ∧ stop < source.lexemes.length then
    ⟨(source.spanAt (start - 1)).start, (source.spanAt stop).stop⟩
  else ⟨0, source.length⟩

/-- How faults in a range point into the text. -/
def regions (source : Source) (start stop : Nat) : Regions :=
  ⟨source.spanAt, source.rangeSpan start stop⟩

/-- Gather the leaves and operators of a list of lexemes, given the number of parentheses around
them. -/
def gather (source : Source) (depth : Nat) (items : List Placed) : Recorded Gathered :=
  match items with
  | [] => .done .empty
  | item :: rest =>
      if item.kind.beginsLeaf then
        match _ : extentOf item rest with
        | .error fault => .fail fault
        | .ok (extent, after) =>
            (match _ : extent.ending with
              | .value operand => Recorded.done operand
              | .group _ opening closing contents =>
                  (source.gather 0 contents).andThen fun gathered ↦
                    gathered.build (source.regions (opening + 1) closing) (opening + 1) closing
              ).andThen fun contents ↦
            (source.gather depth after).map fun (others : Gathered) ↦
              others.addLeaf item.index (extent.leaf contents)
      else
        match item.kind.operator? with
        | some operator =>
            (source.gather depth rest).map fun (others : Gathered) ↦
              others.addOperator (.ofDepth item.index operator depth)
        | none =>
            source.gather (if item.kind = .openParen then depth + 1 else depth - 1) rest
termination_by items.length
decreasing_by
  all_goals simp only [List.length_cons]
  · have hfits := fitsIn_extentOf ‹_›
    simp only [FitsIn, ‹extent.ending = _›, Ending.contents] at hfits
    omega
  · have hfits := fitsIn_extentOf ‹_›
    simp only [FitsIn] at hfits
    omega
  · omega
  · omega

/-- Read the lexemes with indices from `start` up to `stop`. -/
def readRange (source : Source) (start stop : Nat) : Recorded Expr :=
  let items := ((placeFrom 0 source.lexemes).drop start).take (stop - start)
  (source.gather 0 items).andThen fun gathered ↦
    gathered.build (source.regions start stop) start stop

/-- Check that every parenthesis has a partner. -/
def checkBalance (source : Source) : Except Fault Unit :=
  match balanceFault? [] (placeFrom 0 source.lexemes) with
  | some fault => .error fault
  | none => .ok ()

/-- Read all lexemes. -/
def read (source : Source) : Recorded Expr :=
  (Recorded.ofExcept source.checkBalance).andThen fun _ ↦
    source.readRange 0 source.lexemes.length

end Source

/-- Read an expression through its lexemes. -/
def readLexemes (mode : Mode) (text : List Char) : Recorded Expr :=
  (lexRecorded mode text).andThen fun lexemes ↦ Source.read ⟨lexemes, Text.byteLength text⟩

end Nabla.Formula
