import Nabla.Formula.LexemeReader
import Nabla.Proofs.Formula.Sequence

/-!
# Layouts

The shape of lexemes whose parentheses match and whose leaves are complete: values, negations,
calls, operators and groups in any order. A layout says nothing on whether operators and operands
alternate.

`Layout.elements?` is the sequence of leaves and operators that a layout stands for, by recursion on
its groups, and `Layout.result?_gather` says that reading the lexemes of a layout gives this
sequence. So the search for closing parentheses and the count of open ones are dealt with here,
once.
-/

namespace Nabla

/-- The kind of lexeme that stands for an operator. -/
def Operator.lexemeKind : Operator → Formula.Lexeme.Kind
  | .add => .plus
  | .sub => .minus
  | .mul => .times
  | .div => .divide
  | .pow => .power

end Nabla

namespace Nabla.Formula

/-- The kind of an operator is that of this operator. -/
@[simp] theorem Lexeme.Kind.operator?_lexemeKind (operator : Operator) :
    operator.lexemeKind.operator? = some operator := by
  cases operator <;> rfl

/-- No leaf begins with an operator. -/
@[simp] theorem Lexeme.Kind.beginsLeaf_lexemeKind (operator : Operator) :
    operator.lexemeKind.beginsLeaf = false := by
  cases operator <;> rfl

/-- A value is no parenthesis and begins a leaf. -/
theorem Lexeme.Kind.beginsLeaf_of_value? {kind : Lexeme.Kind} {operand : Expr}
    (h : kind.value? = some operand) :
    kind.beginsLeaf = true ∧ kind ≠ .openParen ∧ kind ≠ .closeParen := by
  cases kind <;> cases h <;> exact ⟨rfl, Kind.noConfusion, Kind.noConfusion⟩

/-- A kind with an operand is a value. -/
theorem Lexeme.Kind.isValue_of_value? {kind : Lexeme.Kind} {operand : Expr}
    (h : kind.value? = some operand) : kind.isValue = true := by
  cases kind <;> cases h <;> rfl

/-- No operator is a parenthesis. -/
theorem Lexeme.Kind.lexemeKind_ne_paren (operator : Operator) :
    operator.lexemeKind ≠ .openParen ∧ operator.lexemeKind ≠ .closeParen := by
  cases operator <;> exact ⟨Kind.noConfusion, Kind.noConfusion⟩

/-- What stands in front of a parenthesis that belongs to a leaf. -/
inductive Opener where
  | sine
  | cosine
  | negation
deriving DecidableEq

namespace Opener

/-- The lexeme in front of the parenthesis. -/
def kind : Opener → Lexeme.Kind
  | sine => .sine
  | cosine => .cosine
  | negation => .negative

/-- What becomes of the contents of the parentheses. -/
def apply : Opener → Expr → Expr
  | sine => .call .sin
  | cosine => .call .cos
  | negation => .neg

/-- The extent of a leaf that an opener begins, with the contents of its parentheses. -/
def extent (opener : Opener) (opening closing : Nat) (contents : List Placed) : Extent :=
  match opener with
  | sine => ⟨0, .group (some .sin) opening closing contents⟩
  | cosine => ⟨0, .group (some .cos) opening closing contents⟩
  | negation => ⟨1, .group none opening closing contents⟩

/-- A leaf can begin with whatever opens a group. -/
theorem beginsLeaf_kind (opener : Opener) : opener.kind.beginsLeaf = true := by
  cases opener <;> rfl

/-- No opener is a parenthesis itself. -/
theorem kind_ne_paren (opener : Opener) :
    opener.kind ≠ .openParen ∧ opener.kind ≠ .closeParen := by
  cases opener <;> exact ⟨Lexeme.Kind.noConfusion, Lexeme.Kind.noConfusion⟩

/-- The leaf of a group is what its opener makes of the contents. -/
theorem leaf_extent (opener : Opener) (opening closing : Nat) (contents : List Placed)
    (argument : Expr) :
    (opener.extent opening closing contents).leaf argument = opener.apply argument := by
  cases opener <;> rfl

end Opener

/-- The shape of lexemes with matching parentheses and complete leaves. -/
inductive Layout where
  | nil
  /-- A value with negations in front. -/
  | value (negations : Nat) (kind : Lexeme.Kind) (operand : Expr)
      (reads : kind.value? = some operand) (rest : Layout)
  /-- A call or a negated group, with further negations in front. -/
  | owned (negations : Nat) (opener : Opener) (contents rest : Layout)
  | operator (op : Operator) (rest : Layout)
  /-- Parentheses that belong to no leaf. -/
  | group (contents rest : Layout)

namespace Layout

/-- The kinds of lexemes that a layout is written with. -/
def kinds : Layout → List Lexeme.Kind
  | nil => []
  | value negations kind _ _ rest => List.replicate negations .negative ++ kind :: rest.kinds
  | owned negations opener contents rest =>
      List.replicate negations .negative ++
        opener.kind :: .openParen :: (contents.kinds ++ .closeParen :: rest.kinds)
  | operator op rest => op.lexemeKind :: rest.kinds
  | group contents rest => .openParen :: (contents.kinds ++ .closeParen :: rest.kinds)

/-- The number of lexemes that a layout is written with. -/
def width (layout : Layout) : Nat := layout.kinds.length

/-- The leaves and operators of a layout, given the number of parentheses around it and the index
of its first lexeme. There are none if the contents of a leaf are no expression. -/
def elements? : Layout → (depth index : Nat) → Option (List Element)
  | nil, _, _ => some []
  | value negations _ operand _ rest, depth, index =>
      (rest.elements? depth (index + negations + 1)).map
        (.leaf index (negate negations operand) :: ·)
  | owned negations opener contents rest, depth, index =>
      (contents.elements? 0 (index + negations + 2)).bind fun inner ↦
      (Gathered.ofElements inner).tree?.bind fun argument ↦
      (rest.elements? depth (index + negations + 3 + contents.width)).map
        (.leaf index (negate negations (opener.apply argument)) :: ·)
  | operator op rest, depth, index =>
      (rest.elements? depth (index + 1)).map (.operator (.ofDepth index op depth) :: ·)
  | group contents rest, depth, index =>
      (contents.elements? (depth + 1) (index + 1)).bind fun inner ↦
      (rest.elements? depth (index + 2 + contents.width)).map (inner ++ ·)

end Layout

/-! ### Placed lexemes -/

/-- The second of two lists of lexemes is placed behind the first one. -/
@[simp] theorem placeFrom_append (index : Nat) (front back : List Lexeme) :
    placeFrom index (front ++ back) =
      placeFrom index front ++ placeFrom (index + front.length) back := by
  induction front generalizing index with
  | nil => rfl
  | cons lexeme rest ih =>
    simp only [List.cons_append, placeFrom, ih, List.length_cons]
    rw [show index + 1 + rest.length = index + (rest.length + 1) by omega]

/-- Placing lexemes keeps their kinds. -/
@[simp] theorem map_kind_placeFrom (index : Nat) (lexemes : List Lexeme) :
    (placeFrom index lexemes).map Placed.kind = lexemes.map Lexeme.kind := by
  induction lexemes generalizing index with
  | nil => rfl
  | cons lexeme rest ih => exact congrArg (lexeme.kind :: ·) (ih (index + 1))

/-- Placing lexemes keeps their number. -/
@[simp] theorem length_placeFrom (index : Nat) (lexemes : List Lexeme) :
    (placeFrom index lexemes).length = lexemes.length := by
  rw [← List.length_map (f := Placed.kind), map_kind_placeFrom, List.length_map]

/-! ### Matching parentheses -/

section Parentheses

variable {item : Placed}

/-- A group inside a group has to be closed first. -/
theorem splitGroup?_openParen (h : item.kind = .openParen) (depth : Nat) (rest : List Placed) :
    splitGroup? depth (item :: rest) = (splitGroup? (depth + 1) rest).map (.cons item) := by
  rw [splitGroup?.eq_def]
  simp only [h]

/-- A closing parenthesis of an inner group belongs to the contents. -/
theorem splitGroup?_closeParen (h : item.kind = .closeParen) (depth : Nat) (rest : List Placed) :
    splitGroup? (depth + 1) (item :: rest) = (splitGroup? depth rest).map (.cons item) := by
  rw [splitGroup?.eq_def]
  simp only [h]

/-- A closing parenthesis ends the group if no inner group is open. -/
theorem splitGroup?_closing (h : item.kind = .closeParen) (rest : List Placed) :
    splitGroup? 0 (item :: rest) = some ⟨[], item, rest⟩ := by
  rw [splitGroup?.eq_def]
  simp only [h]

/-- What is no parenthesis belongs to the contents. -/
theorem splitGroup?_other (hopen : item.kind ≠ .openParen) (hclose : item.kind ≠ .closeParen)
    (depth : Nat) (rest : List Placed) :
    splitGroup? depth (item :: rest) = (splitGroup? depth rest).map (.cons item) := by
  rw [splitGroup?.eq_def]
  split
  · contradiction
  · rename_i heq
    cases heq
    split <;> first | contradiction | rfl

/-- An opening parenthesis is still to be closed. -/
theorem balanceFault?_openParen (h : item.kind = .openParen) (opened rest : List Placed) :
    balanceFault? opened (item :: rest) = balanceFault? (item :: opened) rest := by
  rw [balanceFault?.eq_def]
  simp only [h]

/-- A closing parenthesis is the partner of the last one that is open. -/
theorem balanceFault?_closeParen (h : item.kind = .closeParen) (last : Placed)
    (opened rest : List Placed) :
    balanceFault? (last :: opened) (item :: rest) = balanceFault? opened rest := by
  rw [balanceFault?.eq_def]
  simp only [h]

/-- A closing parenthesis is a fault if none is open. -/
theorem balanceFault?_closing (h : item.kind = .closeParen) (rest : List Placed) :
    balanceFault? [] (item :: rest) = some ⟨.unbalancedParentheses false, [item.span]⟩ := by
  rw [balanceFault?.eq_def]
  simp only [h]

/-- What is no parenthesis is not checked. -/
theorem balanceFault?_other (hopen : item.kind ≠ .openParen) (hclose : item.kind ≠ .closeParen)
    (opened rest : List Placed) :
    balanceFault? opened (item :: rest) = balanceFault? opened rest := by
  rw [balanceFault?.eq_def]
  split
  · contradiction
  · rename_i heq
    cases heq
    split <;> first | contradiction | rfl

end Parentheses

/-- A group with more lexemes at the start of its contents. -/
def Group.prepend (items : List Placed) (group : Group) : Group :=
  { group with contents := items ++ group.contents }

/-- The search for a closing parenthesis and the balance check both pass over the items, whatever
follows and however many parentheses are open. -/
structure Nested (items : List Placed) : Prop where
  splitGroup?_append : ∀ depth rest,
    splitGroup? depth (items ++ rest) = (splitGroup? depth rest).map (.prepend items)
  balanceFault?_append : ∀ opened rest,
    balanceFault? opened (items ++ rest) = balanceFault? opened rest

namespace Nested

/-- No lexemes are nested. -/
theorem nil : Nested [] := by
  refine ⟨fun depth rest ↦ ?_, fun _ _ ↦ rfl⟩
  cases h : splitGroup? depth rest <;> simp [h, Group.prepend]

/-- Nested lexemes behind nested ones are nested. -/
theorem append {front back : List Placed} (hfront : Nested front) (hback : Nested back) :
    Nested (front ++ back) := by
  refine ⟨fun depth rest ↦ ?_, fun opened rest ↦ ?_⟩
  · rw [List.append_assoc, hfront.splitGroup?_append, hback.splitGroup?_append, Option.map_map]
    congr 1
    funext group
    simp [Group.prepend]
  · rw [List.append_assoc, hfront.balanceFault?_append, hback.balanceFault?_append]

/-- A lexeme that is no parenthesis is passed over. -/
theorem single {item : Placed} (hopen : item.kind ≠ .openParen) (hclose : item.kind ≠ .closeParen) :
    Nested [item] :=
  ⟨fun depth rest ↦ splitGroup?_other hopen hclose depth rest,
    fun opened rest ↦ balanceFault?_other hopen hclose opened rest⟩

/-- A group is passed over with its parentheses. -/
theorem group {opening closing : Placed} {contents : List Placed}
    (hopening : opening.kind = .openParen) (hclosing : closing.kind = .closeParen)
    (h : Nested contents) : Nested (opening :: (contents ++ [closing])) := by
  refine ⟨fun depth rest ↦ ?_, fun opened rest ↦ ?_⟩
  · rw [List.cons_append, splitGroup?_openParen hopening, List.append_assoc, h.splitGroup?_append,
      List.singleton_append, splitGroup?_closeParen hclosing, Option.map_map, Option.map_map]
    congr 1
    funext group
    simp [Group.prepend, Group.cons]
  · rw [List.cons_append, balanceFault?_openParen hopening, List.append_assoc,
      h.balanceFault?_append, List.singleton_append, balanceFault?_closeParen hclosing]

/-- The group that nested items and a closing parenthesis make. -/
theorem splitGroup?_eq {contents : List Placed} {closing : Placed} (h : Nested contents)
    (hclosing : closing.kind = .closeParen) (rest : List Placed) :
    splitGroup? 0 (contents ++ closing :: rest) = some ⟨contents, closing, rest⟩ := by
  rw [h.splitGroup?_append, splitGroup?_closing hclosing]
  simp [Group.prepend]

/-- Items without parentheses are passed over. -/
theorem flat {items : List Placed}
    (h : ∀ item ∈ items, item.kind ≠ .openParen ∧ item.kind ≠ .closeParen) : Nested items := by
  induction items with
  | nil => exact .nil
  | cons item rest ih =>
    obtain ⟨hitem, hrest⟩ := List.forall_mem_cons.1 h
    exact (single hitem.1 hitem.2).append (ih hrest)

/-- Signs are nested, since there is no parenthesis among them. -/
theorem replicate_negative {items : List Placed} {count : Nat}
    (h : items.map Placed.kind = List.replicate count .negative) : Nested items := by
  refine flat fun item hitem ↦ ?_
  have hkind : item.kind ∈ List.replicate count .negative := h ▸ List.mem_map_of_mem hitem
  rw [List.eq_of_mem_replicate hkind]
  exact ⟨Lexeme.Kind.noConfusion, Lexeme.Kind.noConfusion⟩

end Nested

/-- The lexemes of a layout are nested. -/
theorem Layout.nested (layout : Layout) {items : List Placed}
    (h : items.map Placed.kind = layout.kinds) : Nested items := by
  induction layout generalizing items with
  | nil =>
    rw [List.map_eq_nil_iff.1 h]
    exact .nil
  | value negations kind operand reads rest ih =>
    obtain ⟨negs, others, rfl, hnegs, hothers⟩ := List.map_eq_append_iff.1 h
    obtain ⟨item, others, rfl, rfl, hrest⟩ := List.map_eq_cons_iff.1 hothers
    obtain ⟨-, hopen, hclose⟩ := Lexeme.Kind.beginsLeaf_of_value? reads
    exact (Nested.replicate_negative hnegs).append ((Nested.single hopen hclose).append (ih hrest))
  | owned negations opener contents rest ihcontents ihrest =>
    obtain ⟨negs, others, rfl, hnegs, hothers⟩ := List.map_eq_append_iff.1 h
    obtain ⟨name, others, rfl, hname, hothers⟩ := List.map_eq_cons_iff.1 hothers
    obtain ⟨opening, others, rfl, hopening, hothers⟩ := List.map_eq_cons_iff.1 hothers
    obtain ⟨inner, others, rfl, hinner, hothers⟩ := List.map_eq_append_iff.1 hothers
    obtain ⟨closing, others, rfl, hclosing, hrest⟩ := List.map_eq_cons_iff.1 hothers
    have hother := opener.kind_ne_paren
    rw [← hname] at hother
    have hsingle : Nested [name] := .single hother.1 hother.2
    have hgroup := (Nested.group hopening hclosing (ihcontents hinner)).append (ihrest hrest)
    simpa using (Nested.replicate_negative hnegs).append (hsingle.append hgroup)
  | operator op rest ih =>
    obtain ⟨item, others, rfl, hitem, hrest⟩ := List.map_eq_cons_iff.1 h
    have hother := Lexeme.Kind.lexemeKind_ne_paren op
    rw [← hitem] at hother
    exact (Nested.single hother.1 hother.2).append (ih hrest)
  | group contents rest ihcontents ihrest =>
    obtain ⟨opening, others, rfl, hopening, hothers⟩ := List.map_eq_cons_iff.1 h
    obtain ⟨inner, others, rfl, hinner, hothers⟩ := List.map_eq_append_iff.1 hothers
    obtain ⟨closing, others, rfl, hclosing, hrest⟩ := List.map_eq_cons_iff.1 hothers
    simpa using (Nested.group hopening hclosing (ihcontents hinner)).append (ihrest hrest)

end Nabla.Formula
