import Nabla.Proofs.Binary32.Sign
import Nabla.Proofs.Formula.LayoutExistence

/-!
# What is read from lexemes

Every expression that is read is built from the values of its lexemes by negations, operators, sines
and cosines. `Source.forall_read` turns this into a principle for properties of expressions, and
`readable_of_readLexemes` applies it: the symbols of what is read are allowed by the mode, its
constants have no sign, and it has no logarithm.
-/

namespace Nabla.Formula

/-! ### Properties of what is read -/

/-- A property that a reader keeps when it builds an expression. -/
structure Kept (property : Expr → Prop) : Prop where
  neg : ∀ {operand}, property operand → property (.neg operand)
  binary : ∀ {left right} (op : Operator), property left → property right →
    property (.binary op left right)
  sin : ∀ {argument}, property argument → property (.call .sin argument)
  cos : ∀ {argument}, property argument → property (.call .cos argument)

variable {property : Expr → Prop}

/-- Negations keep a property that a reader keeps. -/
theorem Kept.negate (hkept : Kept property) {operand : Expr} (h : property operand) (count : Nat) :
    property (Formula.negate count operand) := by
  induction count with
  | zero => exact h
  | succ count ih => exact hkept.neg ih

/-- A group or a call keeps a property that a reader keeps. -/
theorem Kept.apply (hkept : Kept property) {argument : Expr} (h : property argument)
    (opener : Opener) : property (opener.apply argument) := by
  cases opener with
  | sine => exact hkept.sin h
  | cosine => exact hkept.cos h
  | negation => exact hkept.neg h

namespace OperandPool

/-- One operator keeps a property that a reader keeps. -/
theorem forall_build? (hkept : Kept property) {pool built : OperandPool} {occurrence : Occurrence}
    (h : pool.build? occurrence = some built) (hpool : ∀ entry ∈ pool.entries, property entry.2) :
    ∀ entry ∈ built.entries, property entry.2 := by
  obtain ⟨before, left, right, after, hleft, hright, hentries⟩ := build?_eq_some_iff.1 h
  have hbefore : ∀ entry ∈ before ++ [left], property entry.2 := by
    rw [← hleft]
    exact fun entry hentry ↦ hpool entry (mem_of_mem_left hentry)
  have hafter : ∀ entry ∈ right :: after, property entry.2 := by
    rw [← hright]
    exact fun entry hentry ↦ hpool entry (mem_of_mem_right hentry)
  intro entry hentry
  rw [hentries, List.mem_append, List.mem_cons] at hentry
  rcases hentry with hentry | rfl | hentry
  · exact hbefore entry (List.mem_append_left _ hentry)
  · exact hkept.binary _ (hbefore left (by simp)) (hafter right List.mem_cons_self)
  · exact hafter entry (List.mem_cons_of_mem _ hentry)

/-- Several operators keep a property that a reader keeps. -/
theorem forall_buildAll? (hkept : Kept property) {pool built : OperandPool}
    {order : List Occurrence} (h : pool.buildAll? order = some built)
    (hpool : ∀ entry ∈ pool.entries, property entry.2) :
    ∀ entry ∈ built.entries, property entry.2 := by
  unfold buildAll? at h
  induction order generalizing pool with
  | nil =>
    cases h
    exact hpool
  | cons occurrence rest ih =>
    rw [List.foldlM_cons] at h
    obtain ⟨next, hnext, h⟩ := Option.bind_eq_some_iff.1 h
    exact ih h (forall_build? hkept hnext hpool)

end OperandPool

/-- The tree of gathered leaves has a property that all leaves have. -/
theorem Gathered.forall_tree? (hkept : Kept property) {gathered : Gathered} {e : Expr}
    (h : gathered.tree? = some e) (hpool : ∀ entry ∈ gathered.pool.entries, property entry.2) :
    property e := by
  obtain ⟨built, hbuilt, hsingle⟩ := Option.bind_eq_some_iff.1 h
  have hentries := OperandPool.forall_buildAll? hkept hbuilt hpool
  unfold OperandPool.single? at hsingle
  split at hsingle
  · rename_i heq
    cases hsingle
    exact hentries (_, e) (by rw [heq]; exact List.mem_singleton_self _)
  · cases hsingle

/-- The leaves of a layout have a property that all its values have. -/
theorem Layout.forall_leaves (hkept : Kept property) {layout : Layout}
    (hvalues : ∀ kind ∈ layout.kinds, ∀ operand, kind.value? = some operand → property operand)
    {depth index : Nat} {elements : List Element}
    (h : layout.elements? depth index = some elements) :
    ∀ entry ∈ leaves elements, property entry.2 := by
  induction layout generalizing depth index elements with
  | nil =>
    cases h
    exact fun entry hentry ↦ absurd hentry List.not_mem_nil
  | value negations kind operand reads rest ih =>
    obtain ⟨others, hothers, rfl⟩ := Option.map_eq_some_iff.1 h
    have hoperand := hvalues kind (by simp [kinds]) operand reads
    refine List.forall_mem_cons.2 ⟨hkept.negate hoperand negations, ih ?_ hothers⟩
    exact fun kind hkind ↦ hvalues kind (by simp [kinds, hkind])
  | owned negations opener contents rest ihcontents ih =>
    obtain ⟨inner, hinner, h⟩ := Option.bind_eq_some_iff.1 h
    obtain ⟨argument, hargument, h⟩ := Option.bind_eq_some_iff.1 h
    obtain ⟨others, hothers, rfl⟩ := Option.map_eq_some_iff.1 h
    have hleaves := ihcontents (fun kind hkind ↦ hvalues kind (by simp [kinds, hkind])) hinner
    -- the argument is a tree of the contents, so the property comes up from their leaves
    rw [← Gathered.entries_ofElements (Layout.spread hinner).increasing] at hleaves
    have harg := Gathered.forall_tree? hkept hargument hleaves
    refine List.forall_mem_cons.2 ⟨hkept.negate (hkept.apply harg opener) negations, ih ?_ hothers⟩
    exact fun kind hkind ↦ hvalues kind (by simp [kinds, hkind])
  | operator op rest ih =>
    obtain ⟨others, hothers, rfl⟩ := Option.map_eq_some_iff.1 h
    rw [leaves_cons_operator]
    exact ih (fun kind hkind ↦ hvalues kind (by simp [kinds, hkind])) hothers
  | group contents rest ihcontents ih =>
    obtain ⟨inner, hinner, h⟩ := Option.bind_eq_some_iff.1 h
    obtain ⟨others, hothers, rfl⟩ := Option.map_eq_some_iff.1 h
    intro entry hentry
    rw [leaves_append, List.mem_append] at hentry
    rcases hentry with hentry | hentry
    · exact ihcontents (fun kind hkind ↦ hvalues kind (by simp [kinds, hkind])) hinner entry hentry
    · exact ih (fun kind hkind ↦ hvalues kind (by simp [kinds, hkind])) hothers entry hentry

/-- What is read has a property that all values among the lexemes have. -/
theorem Source.forall_read (hkept : Kept property) {lexemes : List Lexeme} {length : Nat} {e : Expr}
    (h : (Source.read ⟨lexemes, length⟩).result? = some e)
    (hvalues : ∀ lexeme ∈ lexemes, ∀ operand, lexeme.kind.value? = some operand →
      property operand) : property e := by
  obtain ⟨layout, hlayout⟩ := exists_layout_of_read h
  rw [layout.result?_read hlayout] at h
  obtain ⟨elements, helements, htree⟩ := Option.bind_eq_some_iff.1 h
  refine Gathered.forall_tree? hkept htree ?_
  rw [Gathered.entries_ofElements (Layout.spread helements).increasing]
  refine Layout.forall_leaves hkept (fun kind hkind ↦ ?_) helements
  rw [← hlayout] at hkind
  obtain ⟨lexeme, hlexeme, rfl⟩ := List.mem_map.1 hkind
  exact hvalues lexeme hlexeme

end Nabla.Formula

/-! ### Readable expressions -/

namespace Nabla

/-- An expression as a text of the mode can denote it: its symbols are allowed, its constants have
no sign, and it has no logarithm. -/
def Expr.Readable (mode : Mode) : Expr → Prop
  | constant value _ => Binary32.ClearSign value
  | symbol name => mode.allows name = true
  | neg operand => operand.Readable mode
  | binary _ left right => left.Readable mode ∧ right.Readable mode
  | call function argument => function ≠ .ln ∧ argument.Readable mode

end Nabla

namespace Nabla.Formula

open Decimal (Numeral)

variable {mode : Mode}

/-- What is built from readable expressions is readable. -/
theorem kept_readable (mode : Mode) : Kept (Expr.Readable mode) where
  neg h := h
  binary _ hleft hright := ⟨hleft, hright⟩
  sin h := ⟨Function.noConfusion, h⟩
  cos h := ⟨Function.noConfusion, h⟩

/-- The value of digits has no sign. -/
theorem clearSign_ofDigits (digits : List Char) (exponent : Int) :
    Binary32.ClearSign (Decimal.ofDigits digits exponent) := by
  unfold Decimal.ofDigits
  split <;> exact Binary32.clearSign_ofScientific _ _ _

/-- The value of a numeral has no sign. -/
theorem clearSign_of_ofChars? {text : List Char} {numeral : Numeral}
    (h : Numeral.ofChars? text = some numeral) : Binary32.ClearSign numeral.value := by
  unfold Numeral.ofChars? at h
  simp only at h
  split at h
  · cases h
  · cases h
    exact clearSign_ofDigits _ _

/-- The value of a token is readable. -/
theorem readable_of_classify {token : Token} {beforeSpace : Bool} {kind : Lexeme.Kind}
    (h : classify mode token beforeSpace = .ok (some kind)) {operand : Expr}
    (hvalue : kind.value? = some operand) : operand.Readable mode := by
  have hsymbol {name : Symbol}
      (h : (symbolKind mode name).map some = (.ok (some kind) : Except Cause _)) :
      operand.Readable mode := by
    unfold symbolKind at h
    by_cases hallowed : mode.allows name = true
    · rw [if_pos hallowed] at h
      cases h
      cases hvalue
      exact hallowed
    · rw [if_neg hallowed] at h
      cases h
  unfold classify at h
  cases htoken : token.kind <;> rw [htoken] at h
  case letterT => exact hsymbol h
  case letterX => exact hsymbol h
  case letterY => exact hsymbol h
  case letterZ => exact hsymbol h
  case numeral =>
    unfold numeralKind at h
    cases hnumeral : Numeral.ofChars? token.text with
    | none =>
      rw [hnumeral] at h
      cases h
    | some numeral =>
      rw [hnumeral] at h
      cases h
      cases hvalue
      exact clearSign_of_ofChars? hnumeral
  case minus =>
    cases h
    cases beforeSpace <;> cases hvalue
  -- the other tokens stand for no lexeme, or for one that is no value
  all_goals
    cases h
    try cases hvalue

/-- The values of tokens are readable. -/
theorem readable_of_classifyAll {tokens : List Token} {lexeme : Lexeme}
    (h : lexeme ∈ (classifyAll mode tokens).1) {operand : Expr}
    (hvalue : lexeme.kind.value? = some operand) : operand.Readable mode := by
  induction tokens with
  | nil => cases h
  | cons token rest ih =>
    unfold classifyAll at h
    split at h
    · cases h
    · exact ih h
    · rename_i kind hkind
      rcases List.mem_cons.1 h with rfl | h
      · exact readable_of_classify hkind hvalue
      · exact ih h

/-- Inserted multiplications are no values, and other lexemes keep their kinds. -/
theorem mem_insertTimes {lexemes : List Lexeme} {distance : Nat} {lexeme : Lexeme}
    (h : lexeme ∈ insertTimes distance lexemes) :
    lexeme.kind = .times ∨ ∃ original ∈ lexemes, lexeme.kind = original.kind := by
  induction lexemes generalizing distance with
  | nil => cases h
  | cons first rest ih =>
    have hrest {distance : Nat} (h : lexeme ∈ insertTimes distance rest) :
        lexeme.kind = .times ∨ ∃ original ∈ first :: rest, lexeme.kind = original.kind :=
      (ih h).imp id fun ⟨original, hmem, heq⟩ ↦ ⟨original, List.mem_cons_of_mem _ hmem, heq⟩
    cases rest with
    | nil =>
      obtain rfl := List.mem_singleton.1 h
      exact .inr ⟨first, List.mem_cons_self, rfl⟩
    | cons next others =>
      unfold insertTimes at h
      split at h
      · rcases List.mem_cons.1 h with rfl | h
        · exact .inr ⟨first, List.mem_cons_self, rfl⟩
        · rcases List.mem_cons.1 h with rfl | h
          · exact .inl rfl
          · exact hrest h
      · rcases List.mem_cons.1 h with rfl | h
        · exact .inr ⟨first, List.mem_cons_self, rfl⟩
        · exact hrest h

/-- What is read from a text is readable in the mode it is read in. -/
theorem readable_of_readLexemes {text : List Char} {e : Expr}
    (h : (readLexemes mode text).outcome = .ok e) : e.Readable mode := by
  rw [Recorded.outcome_eq_ok_iff, readLexemes, Recorded.result?_andThen,
    Option.bind_eq_some_iff] at h
  obtain ⟨lexemes, hlexemes, hread⟩ := h
  refine Source.forall_read (kept_readable mode) hread fun lexeme hlexeme operand hvalue ↦ ?_
  have hlex : lexemes = insertTimes 0 (classifyAll mode (Token.scan text)).1 := by
    have hlexed : (lex mode text).toExcept = .ok lexemes := Recorded.outcome_eq_ok_iff.2 hlexemes
    unfold Lexed.toExcept at hlexed
    split at hlexed
    · cases hlexed
    · cases hlexed
      rfl
  rw [hlex] at hlexeme
  rcases mem_insertTimes hlexeme with htimes | ⟨original, horiginal, hkind⟩
  · rw [htimes] at hvalue
    cases hvalue
  · rw [hkind] at hvalue
    exact readable_of_classifyAll horiginal hvalue

end Nabla.Formula
