import Nabla.Proofs.Expr.Nodes
import Nabla.Proofs.Formula.CharacterSequence

/-!
# Operands are kept

A reading drops, repeats and reorders no operand (`read_keeps_operands`). Building an operator puts
one operand in the place of two neighbours, so the leaves of a pool stay the same from left to
right and the labels of its nodes grow by that of the operator. This holds for any sequence with
increasing indices, whether or not its operators alternate with its operands.
-/

namespace Nabla.Formula

open Nabla.Expr (Label)

/-! ### Leaves and labels of pools and sequences -/

/-- The leaves of the operands of a pool. -/
def entryLeaves (entries : List (Nat × Expr)) : List Expr := entries.flatMap (·.2.leaves)

/-- The labels of the operands of a pool. -/
def entryLabels (entries : List (Nat × Expr)) : List Label := entries.flatMap (·.2.labels)

namespace Element

/-- The leaves of the operand that an element is. -/
def treeLeaves : Element → List Expr
  | leaf _ operand => operand.leaves
  | operator _ => []

/-- The labels of the operand, or of the operator, that an element is. -/
def treeLabels : Element → List Label
  | leaf _ operand => operand.labels
  | operator occurrence => [.binary occurrence.operator]

end Element

/-- The leaves of the operands are those of the elements, in order. -/
theorem entryLeaves_leaves (elements : List Element) :
    entryLeaves (leaves elements) = elements.flatMap Element.treeLeaves := by
  induction elements with
  | nil => rfl
  | cons element rest ih =>
    cases element with
    | leaf index operand => exact congrArg (operand.leaves ++ ·) ih
    | operator occurrence => exact ih

/-- The labels of the operators and operands are those of the elements. -/
theorem entryLabels_leaves_perm (elements : List Element) :
    ((occurrences elements).map (fun occurrence ↦ Label.binary occurrence.operator) ++
      entryLabels (leaves elements)).Perm (elements.flatMap Element.treeLabels) := by
  induction elements with
  | nil => exact .refl _
  | cons element rest ih =>
    rw [List.flatMap_cons]
    cases element with
    | leaf index operand =>
      rw [occurrences_cons_leaf, leaves_cons_leaf]
      refine List.Perm.trans ?_ (ih.append_left operand.labels)
      exact List.perm_append_comm_assoc _ _ _
    | operator occurrence => exact ih.cons (Label.binary occurrence.operator)

/-! ### Building operators -/

namespace OperandPool

/-- An operator away from all operands keeps the leaves and adds its label. -/
theorem keeps_build? {pool built : OperandPool} {occurrence : Occurrence}
    (h : pool.build? occurrence = some built)
    (hne : ∀ entry ∈ pool.entries, entry.1 ≠ occurrence.index) :
    entryLeaves built.entries = entryLeaves pool.entries ∧
      (entryLabels built.entries).Perm
        (.binary occurrence.operator :: entryLabels pool.entries) := by
  obtain ⟨before, left, right, after, hleft, hright, hentries⟩ := build?_eq_some_iff.1 h
  rw [entries_eq_left_append_right hne, hentries, hleft, hright]
  refine ⟨by simp [entryLeaves, Expr.leaves], ?_⟩
  simp only [entryLabels, Expr.labels, List.flatMap_append, List.flatMap_cons, List.flatMap_nil,
    List.append_assoc, List.cons_append]
  exact List.perm_middle

/-- The same of operators at different places, built one after the other. -/
theorem keeps_buildAll? {pool built : OperandPool} {order : List Occurrence}
    (h : pool.buildAll? order = some built)
    (hne : ∀ occurrence ∈ order, ∀ entry ∈ pool.entries, entry.1 ≠ occurrence.index)
    (hdistinct : order.Pairwise fun first second ↦ first.index ≠ second.index) :
    entryLeaves built.entries = entryLeaves pool.entries ∧
      (entryLabels built.entries).Perm
        (order.map (fun occurrence ↦ Label.binary occurrence.operator) ++
          entryLabels pool.entries) := by
  unfold buildAll? at h
  induction order generalizing pool with
  | nil =>
    cases h
    exact ⟨rfl, .refl _⟩
  | cons occurrence rest ih =>
    rw [List.foldlM_cons] at h
    obtain ⟨next, hnext, h⟩ := Option.bind_eq_some_iff.1 h
    obtain ⟨hfirst, hothers⟩ := List.pairwise_cons.1 hdistinct
    obtain ⟨hstepLeaves, hstepLabels⟩ := keeps_build? hnext (hne occurrence List.mem_cons_self)
    -- the new operand stands at the place of its operator, where no other one stands
    obtain ⟨hleaves, hlabels⟩ := ih h (fun other hother entry hentry ↦ by
      rcases mem_of_build? hnext hentry with heq | hmem
      · exact heq ▸ hfirst other hother
      · exact hne other (List.mem_cons_of_mem _ hother) entry hmem) hothers
    refine ⟨hleaves.trans hstepLeaves, hlabels.trans ?_⟩
    exact (hstepLabels.append_left _).trans List.perm_middle

end OperandPool

namespace Increasing

variable {elements : List Element}

/-- The indices of the operators increase if those of all elements do. -/
theorem occurrences (h : Increasing elements) :
    (occurrences elements).Pairwise fun a b ↦ a.index < b.index := by
  refine List.Pairwise.filterMap _ ?_ h
  intro a b hlt first hfirst second hsecond
  cases a <;> cases b <;> cases hfirst <;> cases hsecond
  exact hlt

/-- No leaf stands at the place of an operator. -/
theorem index_ne (h : Increasing elements) {entry : Nat × Expr}
    (hentry : entry ∈ Formula.leaves elements) {occurrence : Occurrence}
    (hoccurrence : occurrence ∈ Formula.occurrences elements) :
    entry.1 ≠ occurrence.index := by
  induction elements with
  | nil => cases hentry
  | cons element rest ih =>
    obtain ⟨hfirst, hrest⟩ := List.pairwise_cons.1 h
    cases element with
    | leaf index operand =>
      rcases List.mem_cons.1 hentry with rfl | hentry
      · exact Nat.ne_of_lt (hfirst _ (mem_of_mem_occurrences hoccurrence))
      · exact ih hrest hentry hoccurrence
    | operator other =>
      rcases List.mem_cons.1 hoccurrence with rfl | hoccurrence
      · exact Nat.ne_of_gt (forall_mem_leaves (occurrence.index < ·) hfirst entry hentry)
      · exact ih hrest hentry hoccurrence

end Increasing

/-- The tree of a sequence has its leaves, in their order, and its labels. -/
theorem Gathered.keeps_tree? {elements : List Element} {e : Expr}
    (h : (ofElements elements).tree? = some e) (hincreasing : Increasing elements) :
    e.leaves = elements.flatMap Element.treeLeaves ∧
      e.labels.Perm (elements.flatMap Element.treeLabels) := by
  obtain ⟨built, hbuilt, element, -, hentries⟩ := exists_of_tree? h hincreasing
  have horder := constructionOrder_perm (occurrences elements)
  have hdistinct : (constructionOrder (occurrences elements)).Pairwise
      fun first second ↦ first.index ≠ second.index :=
    horder.symm.pairwise (hincreasing.occurrences.imp Nat.ne_of_lt) Ne.symm
  have hne : ∀ occurrence ∈ constructionOrder (occurrences elements),
      ∀ entry ∈ (ofElements elements).pool.entries, entry.1 ≠ occurrence.index := by
    intro occurrence hoccurrence entry hentry
    rw [entries_ofElements hincreasing] at hentry
    exact hincreasing.index_ne hentry (horder.mem_iff.1 hoccurrence)
  obtain ⟨hleaves, hlabels⟩ := OperandPool.keeps_buildAll? hbuilt hne hdistinct
  rw [hentries, entries_ofElements hincreasing] at hleaves hlabels
  constructor
  · rw [← entryLeaves_leaves, ← hleaves]
    exact (List.append_nil _).symm
  · have hsingle : entryLabels [(element.index, e)] = e.labels := List.append_nil _
    rw [hsingle] at hlabels
    exact (hlabels.trans ((horder.map _).append_right _)).trans (entryLabels_leaves_perm elements)

/-! ### Lexemes -/

/-- The label of the node that a lexeme stands for. -/
def Lexeme.Kind.label? : Lexeme.Kind → Option Label
  | negative => some .neg
  | sine => some (.call .sin)
  | cosine => some (.call .cos)
  | kind => kind.operator?.map .binary

/-- The label of a call, or of the negation of a group. -/
def Opener.label : Opener → Label
  | sine => .call .sin
  | cosine => .call .cos
  | negation => .neg

/-- Signs are no values. -/
theorem filterMap_value?_negations (count : Nat) :
    (List.replicate count .negative).filterMap Lexeme.Kind.value? = [] :=
  List.filterMap_eq_nil_iff.2 fun _ hkind ↦ by rw [List.eq_of_mem_replicate hkind]; rfl

/-- Each sign is a negation. -/
theorem filterMap_label?_negations (count : Nat) :
    (List.replicate count .negative).filterMap Lexeme.Kind.label? = List.replicate count .neg :=
  List.filterMap_replicate_of_some rfl

/-- Negations have the leaves of their operand. -/
theorem leaves_negate (count : Nat) (operand : Expr) :
    (negate count operand).leaves = operand.leaves := by
  induction count with
  | zero => rfl
  | succ count ih => exact ih

/-- Negations come in front of the labels of their operand. -/
theorem labels_negate (count : Nat) (operand : Expr) :
    (negate count operand).labels = List.replicate count .neg ++ operand.labels := by
  induction count with
  | zero => rfl
  | succ count ih => exact congrArg (Label.neg :: ·) ih

/-- A group or a call has the leaves of its contents. -/
theorem Opener.leaves_apply (opener : Opener) (operand : Expr) :
    (opener.apply operand).leaves = operand.leaves := by
  cases opener <;> rfl

/-- A group or a call comes in front of the labels of its contents. -/
theorem Opener.labels_apply (opener : Opener) (operand : Expr) :
    (opener.apply operand).labels = opener.label :: operand.labels := by
  cases opener <;> rfl

/-- A sequence keeps the values of kinds, in their order, and their labels. -/
structure Keeps (kinds : List Lexeme.Kind) (elements : List Element) : Prop where
  leaves : elements.flatMap Element.treeLeaves = kinds.filterMap Lexeme.Kind.value?
  labels : (elements.flatMap Element.treeLabels).Perm (kinds.filterMap Lexeme.Kind.label?)

namespace Keeps

variable {kinds others : List Lexeme.Kind} {elements following : List Element}

/-- Sequences that keep their kinds do so one behind the other. -/
theorem append (h : Keeps kinds elements) (hothers : Keeps others following) :
    Keeps (kinds ++ others) (elements ++ following) := by
  constructor
  · rw [List.flatMap_append, h.leaves, hothers.leaves, List.filterMap_append]
  · rw [List.flatMap_append, List.filterMap_append]
    exact h.labels.append hothers.labels

/-- The leaf of a value with negations in front. -/
theorem value {kind : Lexeme.Kind} {operand : Expr} (h : kind.value? = some operand)
    (negations index : Nat) :
    Keeps (List.replicate negations .negative ++ [kind])
      [.leaf index (negate negations operand)] := by
  have hoperand : operand.leaves = [operand] ∧ operand.labels = [] := by
    cases kind <;> cases h <;> exact ⟨rfl, rfl⟩
  have hlabel : kind.label? = none := by
    cases kind <;> cases h <;> rfl
  constructor
  · rw [List.filterMap_append, filterMap_value?_negations, List.nil_append,
      List.filterMap_cons_some h]
    simp [Element.treeLeaves, leaves_negate, hoperand.1]
  · rw [List.filterMap_append, filterMap_label?_negations, List.filterMap_cons_none hlabel]
    simp [Element.treeLabels, labels_negate, hoperand.2]

/-- The leaf of a call or of a negated group, with further negations in front. -/
theorem owned (h : Keeps kinds elements) {argument : Expr}
    (htree : (Gathered.ofElements elements).tree? = some argument)
    (hincreasing : Increasing elements) (negations index : Nat) (opener : Opener) :
    Keeps (List.replicate negations .negative ++
        opener.kind :: .openParen :: (kinds ++ [.closeParen]))
      [.leaf index (negate negations (opener.apply argument))] := by
  obtain ⟨hleaves, hlabels⟩ := Gathered.keeps_tree? htree hincreasing
  have hopener : opener.kind.value? = none ∧ opener.kind.label? = some opener.label := by
    cases opener <;> exact ⟨rfl, rfl⟩
  constructor
  · rw [List.filterMap_append, filterMap_value?_negations, List.nil_append,
      List.filterMap_cons_none hopener.1, List.filterMap_cons_none rfl, List.filterMap_append]
    simp [Element.treeLeaves, leaves_negate, opener.leaves_apply, hleaves, h.leaves,
      Lexeme.Kind.value?]
  · have hcontents : (kinds ++ [Lexeme.Kind.closeParen]).filterMap Lexeme.Kind.label? =
        kinds.filterMap Lexeme.Kind.label? := by
      rw [List.filterMap_append]
      exact List.append_nil _
    have hlabel : (negate negations (opener.apply argument)).labels =
        List.replicate negations .neg ++ opener.label :: argument.labels := by
      rw [labels_negate, opener.labels_apply]
    rw [List.filterMap_append, filterMap_label?_negations, List.filterMap_cons_some hopener.2,
      List.filterMap_cons_none rfl, hcontents]
    show (List.flatMap Element.treeLabels [_]).Perm _
    rw [List.flatMap_singleton, Element.treeLabels, hlabel]
    exact ((hlabels.trans h.labels).cons _).append_left _

end Keeps

/-- The elements of a layout keep its values and labels. -/
theorem Layout.keeps {layout : Layout} {depth index : Nat} {elements : List Element}
    (h : layout.elements? depth index = some elements) : Keeps layout.kinds elements := by
  induction layout generalizing depth index elements with
  | nil =>
    cases h
    exact ⟨rfl, .refl _⟩
  | value negations kind operand reads rest ih =>
    obtain ⟨others, hothers, rfl⟩ := Option.map_eq_some_iff.1 h
    simpa [kinds] using (Keeps.value reads negations index).append (ih hothers)
  | owned negations opener contents rest ihcontents ih =>
    obtain ⟨inner, hinner, h⟩ := Option.bind_eq_some_iff.1 h
    obtain ⟨argument, hargument, h⟩ := Option.bind_eq_some_iff.1 h
    obtain ⟨others, hothers, rfl⟩ := Option.map_eq_some_iff.1 h
    have howned := (ihcontents hinner).owned hargument (Layout.spread hinner).increasing negations
      index opener
    simpa [kinds] using howned.append (ih hothers)
  | operator op rest ih =>
    obtain ⟨others, hothers, rfl⟩ := Option.map_eq_some_iff.1 h
    have hsingle : Keeps [op.lexemeKind] [.operator (.ofDepth index op depth)] := by
      constructor
      · cases op <;> rfl
      · cases op <;> exact .refl _
    exact hsingle.append (ih hothers)
  | group contents rest ihcontents ih =>
    obtain ⟨inner, hinner, h⟩ := Option.bind_eq_some_iff.1 h
    obtain ⟨others, hothers, rfl⟩ := Option.map_eq_some_iff.1 h
    have hparen (kind : Lexeme.Kind) (hvalue : kind.value? = none) (hlabel : kind.label? = none) :
        Keeps [kind] [] := by
      constructor <;> simp [hvalue, hlabel]
    have hgroup := (hparen .openParen rfl rfl).append ((ihcontents hinner).append
      ((hparen .closeParen rfl rfl).append (ih hothers)))
    simpa [kinds] using hgroup

/-! ### Readings of lexemes -/

/-- What only one element is mapped to is counted as that element. -/
theorem count_filterMap_eq {α β : Type} [DecidableEq α] [DecidableEq β] {f : α → Option β} {a : α}
    {b : β} (h : ∀ x, f x = some b ↔ x = a) (list : List α) :
    (list.filterMap f).count b = list.count a := by
  induction list with
  | nil => rfl
  | cons x rest ih =>
    by_cases hx : x = a
    · rw [List.filterMap_cons_some ((h x).2 hx), hx, List.count_cons_self, List.count_cons_self, ih]
    · rw [List.count_cons_of_ne hx, ← ih]
      cases hf : f x with
      | none => rw [List.filterMap_cons_none hf]
      | some y =>
        have hy : y ≠ b := fun hyb ↦ hx ((h x).1 (hf.trans (congrArg some hyb)))
        rw [List.filterMap_cons_some hf, List.count_cons_of_ne hy]

/-- A kind stands for the label of the operator, the negation or the function it is written for. -/
theorem Lexeme.Kind.label?_eq_some_iff (kind : Lexeme.Kind) :
    (∀ op, kind.label? = some (.binary op) ↔ kind = op.lexemeKind) ∧
      (kind.label? = some .neg ↔ kind = .negative) ∧
      (kind.label? = some (.call .sin) ↔ kind = .sine) ∧
      (kind.label? = some (.call .cos) ↔ kind = .cosine) ∧ kind.label? ≠ some (.call .ln) := by
  refine ⟨fun op ↦ ?_, ?_⟩
  · cases kind <;> cases op <;> simp [label?, operator?, Operator.lexemeKind]
  · cases kind <;> simp [label?, operator?]

/-- Whether a lexeme is a parenthesis. -/
def Lexeme.Kind.isParen (kind : Lexeme.Kind) : Bool := kind == .openParen || kind == .closeParen

/-- A lexeme is a value, has a label, or is a parenthesis. -/
theorem countP_isParen (kinds : List Lexeme.Kind) :
    kinds.countP (fun kind ↦ !kind.isParen) =
      (kinds.filterMap Lexeme.Kind.value?).length +
        (kinds.filterMap Lexeme.Kind.label?).length := by
  rw [List.length_filterMap_eq_countP, List.length_filterMap_eq_countP]
  induction kinds with
  | nil => rfl
  | cons kind rest ih =>
    have hone : (if (!kind.isParen) = true then 1 else 0) =
        (if kind.value?.isSome = true then 1 else 0) +
          (if kind.label?.isSome = true then 1 else 0) := by
      cases kind <;> rfl
    rw [List.countP_cons, List.countP_cons, List.countP_cons, ih, hone]
    omega

/-- A tree has the operands of lexemes of the given kinds, in their order, and a node for each of
the others but the parentheses. -/
structure KeepsKinds (kinds : List Lexeme.Kind) (e : Expr) : Prop where
  leaves : e.leaves = kinds.filterMap Lexeme.Kind.value?
  operators : ∀ op, e.countOf (.binary op) = kinds.count op.lexemeKind
  negations : e.countOf .neg = kinds.count .negative
  sines : e.countOf (.call .sin) = kinds.count .sine
  cosines : e.countOf (.call .cos) = kinds.count .cosine
  logarithms : e.countOf (.call .ln) = 0
  size : e.nodeCount = kinds.countP fun kind ↦ !kind.isParen

/-- The tree of a sequence keeps the kinds that the sequence keeps. -/
theorem Keeps.keepsKinds {kinds : List Lexeme.Kind} {elements : List Element} {e : Expr}
    (h : Keeps kinds elements) (htree : (Gathered.ofElements elements).tree? = some e)
    (hincreasing : Increasing elements) : KeepsKinds kinds e := by
  obtain ⟨hleaves, hlabels⟩ := Gathered.keeps_tree? htree hincreasing
  have hperm := hlabels.trans h.labels
  have hcount {label : Label} {kind : Lexeme.Kind}
      (hkind : ∀ other : Lexeme.Kind, other.label? = some label ↔ other = kind) :
      e.countOf label = kinds.count kind :=
    (hperm.count_eq label).trans (count_filterMap_eq hkind kinds)
  refine ⟨hleaves.trans h.leaves, fun op ↦ hcount fun kind ↦ kind.label?_eq_some_iff.1 op,
    hcount fun kind ↦ kind.label?_eq_some_iff.2.1, hcount fun kind ↦ kind.label?_eq_some_iff.2.2.1,
    hcount fun kind ↦ kind.label?_eq_some_iff.2.2.2.1, ?_, ?_⟩
  · refine (hperm.count_eq _).trans (List.count_eq_zero.2 fun hmem ↦ ?_)
    obtain ⟨kind, -, hkind⟩ := List.mem_filterMap.1 hmem
    exact kind.label?_eq_some_iff.2.2.2.2 hkind
  · rw [e.nodeCount_eq, hleaves, h.leaves, hperm.length_eq, countP_isParen]

/-- The tree of lexemes keeps them. -/
theorem keepsKinds_of_read {lexemes : List Lexeme} {length : Nat} {e : Expr}
    (h : (Source.read ⟨lexemes, length⟩).outcome = .ok e) :
    KeepsKinds (lexemes.map Lexeme.kind) e := by
  have hresult := Recorded.outcome_eq_ok_iff.1 h
  obtain ⟨layout, hkinds⟩ := exists_layout_of_read hresult
  rw [layout.result?_read hkinds] at hresult
  obtain ⟨elements, helements, htree⟩ := Option.bind_eq_some_iff.1 hresult
  rw [hkinds]
  exact (Layout.keeps helements).keepsKinds htree (Layout.spread helements).increasing

/-! ### Readings of characters -/

variable {mode : Mode}

/-- A tree has the leaves of the runs of a text, in their order, and a node for each of its operator
characters. -/
structure KeepsRuns (mode : Mode) (text : List Char) (e : Expr) : Prop where
  leaves : (leafRuns none 0 text).map (fun run ↦ leafOfText mode run.text) = e.leaves.map .ok
  operators : ∀ op, e.countOf (.binary op) = text.count op.character
  negations : e.countOf .neg = 0
  functions : ∀ function, e.countOf (.call function) = 0
  size : e.nodeCount =
    (leafRuns none 0 text).length + text.countP fun c ↦ (Operator.ofCharacter? c).isSome

/-- The text of a run stands for a single leaf. -/
theorem leaves_of_leafOfText {text : List Char} {operand : Expr}
    (h : leafOfText mode text = .ok operand) :
    operand.leaves = [operand] ∧ operand.labels = [] := by
  unfold leafOfText at h
  split at h
  · split at h <;> cases h
    exact ⟨rfl, rfl⟩
  · split at h
    · split at h <;> cases h
      exact ⟨rfl, rfl⟩
    · cases h

/-- The operands of runs are the leaves that the runs stand for. -/
theorem keeps_leavesOfRuns {runs : List LeafRun} {found : List (Nat × Expr)}
    (h : leavesOfRuns mode runs = .ok found) :
    runs.map (fun run ↦ leafOfText mode run.text) = (entryLeaves found).map .ok ∧
      entryLabels found = [] := by
  induction runs generalizing found with
  | nil =>
    cases h
    exact ⟨rfl, rfl⟩
  | cons run rest ih =>
    obtain ⟨before, after, hrun, hrest, rfl⟩ :=
      exists_of_leavesOfRuns_append (show leavesOfRuns mode ([run] ++ rest) = .ok found from h)
    obtain ⟨hleaves, hlabels⟩ := ih hrest
    obtain ⟨operand, hleaf, rfl⟩ := exists_of_leavesOfRuns_singleton hrun
    obtain ⟨hoperandLeaves, hoperandLabels⟩ := leaves_of_leafOfText hleaf
    constructor
    · rw [List.map_cons, hleaves, hleaf]
      simp [entryLeaves, hoperandLeaves]
    · rw [entryLabels, List.flatMap_append, ← entryLabels, ← entryLabels, hlabels]
      simp [entryLabels, hoperandLabels]

/-- A character that is passed is no operator. -/
theorem ofCharacter?_of_isPassed {c : Char} (h : IsPassed c) : Operator.ofCharacter? c = none := by
  cases hop : Operator.ofCharacter? c with
  | none => rfl
  | some op =>
    rw [Operator.character_of_ofCharacter? hop] at h
    exact absurd h (not_isPassed_character op)

/-- The operators that are found are the operator characters of the text. -/
theorem map_operator_scanOperators {opened : List Text.Span} {position : Nat} {text : List Char}
    {operators : List Occurrence} (h : scanOperators opened position text = .ok operators) :
    operators.map Occurrence.operator = text.filterMap Operator.ofCharacter? := by
  induction text generalizing opened position operators with
  | nil =>
    cases opened with
    | nil =>
      cases h
      rfl
    | cons last outer => cases h
  | cons c rest ih =>
    rcases cases_of_scanOperators h with ⟨hpassed, hrest⟩ | ⟨rfl, hrest⟩ |
      ⟨rfl, last, outer, rfl, hrest⟩ | ⟨op, others, rfl, hrest, rfl⟩
    · rw [List.filterMap_cons_none (ofCharacter?_of_isPassed hpassed)]
      exact ih hrest
    · exact ih hrest
    · exact ih hrest
    · rw [List.filterMap_cons_some (Operator.ofCharacter?_character op), ← ih hrest]
      rfl

/-- The tree of a text keeps the leaves of its runs and its operator characters. -/
theorem keepsRuns_of_parse {text : List Char} {e : Expr}
    (h : Reader.direct.parse mode text = .ok e) : KeepsRuns mode text e := by
  have hresult : (readCharacters mode text).result? = some e := Recorded.outcome_eq_ok_iff.1 h
  obtain ⟨elements, hscanned, htree⟩ := exists_scanned hresult
  obtain ⟨hleaves, hlabels⟩ := Gathered.keeps_tree? htree hscanned.spread.increasing
  obtain ⟨hruns, hnone⟩ := keeps_leavesOfRuns hscanned.leaves
  rw [entryLeaves_leaves, ← hleaves] at hruns
  -- the leaves have no labels, so all labels are those of the operators
  have hperm : e.labels.Perm
      (text.filterMap fun c ↦ (Operator.ofCharacter? c).map Label.binary) := by
    refine hlabels.trans ((entryLabels_leaves_perm elements).symm.trans ?_)
    rw [hnone, List.append_nil, ← List.map_filterMap,
      ← map_operator_scanOperators hscanned.operators, List.map_map]
    exact .refl _
  have hbinary : ∀ label ∈ e.labels, ∃ op, Label.binary op = label := by
    intro label hlabel
    obtain ⟨c, -, hc⟩ := List.mem_filterMap.1 (hperm.mem_iff.1 hlabel)
    obtain ⟨op, -, hop⟩ := Option.map_eq_some_iff.1 hc
    exact ⟨op, hop⟩
  refine ⟨hruns, fun op ↦ ?_, ?_, fun function ↦ ?_, ?_⟩
  · refine (hperm.count_eq _).trans (count_filterMap_eq (fun c ↦ ?_) text)
    refine ⟨fun hc ↦ ?_, fun heq ↦ by rw [heq, Operator.ofCharacter?_character]; rfl⟩
    obtain ⟨other, hother, heq⟩ := Option.map_eq_some_iff.1 hc
    rw [Operator.character_of_ofCharacter? hother, Label.binary.inj heq]
  · exact List.count_eq_zero.2 fun hmem ↦ nomatch hbinary _ hmem
  · exact List.count_eq_zero.2 fun hmem ↦ nomatch hbinary _ hmem
  · have hlength : e.leaves.length = (leafRuns none 0 text).length := by
      simpa using (congrArg List.length hruns).symm
    rw [e.nodeCount_eq, hlength, hperm.length_eq, List.length_filterMap_eq_countP]
    simp only [Option.isSome_map]

/-- No reading drops, repeats or reorders an operand: the tree of lexemes keeps these, and the tree
of characters keeps their runs and operators. -/
theorem read_keeps_operands :
    (∀ lexemes length e, (Source.read ⟨lexemes, length⟩).outcome = .ok e →
      KeepsKinds (lexemes.map Lexeme.kind) e) ∧
    ∀ mode text e, Reader.direct.parse mode text = .ok e → KeepsRuns mode text e :=
  ⟨fun _ _ _ h ↦ keepsKinds_of_read h, fun _ _ _ h ↦ keepsRuns_of_parse h⟩

/-- The lexemes of `x () + -y` are kept although a group is empty, and so are the runs and operators
of `x (-) y`. -/
theorem read_keeps_operands_odd_groups :
    KeepsKinds [.symbol .x, .openParen, .closeParen, .plus, .negative, .symbol .y]
        (.binary .add (.symbol .x) (.neg (.symbol .y))) ∧
      KeepsRuns .multiVariable "x (-) y".toList (.binary .sub (.symbol .x) (.symbol .y)) := by
  let lexemes : List Lexeme :=
    [.symbol .x, .openParen, .closeParen, .plus, .negative, .symbol .y].map (⟨·, 0, ⟨0, 0⟩, false⟩)
  let layout : Layout := .value 0 (.symbol .x) (.symbol .x) rfl
    (.group .nil (.operator .add (.value 1 (.symbol .y) (.symbol .y) rfl .nil)))
  have hread : (Source.read ⟨lexemes, 9⟩).outcome =
      .ok (.binary .add (.symbol .x) (.neg (.symbol .y))) := by
    refine Recorded.outcome_eq_ok_iff.2 ?_
    rw [layout.result?_read rfl]
    rfl
  have hparse : Reader.direct.parse .multiVariable "x (-) y".toList =
      .ok (.binary .sub (.symbol .x) (.symbol .y)) := by
    rfl
  exact ⟨read_keeps_operands.1 lexemes 9 _ hread, read_keeps_operands.2 _ _ _ hparse⟩

end Nabla.Formula
