import Nabla.Proofs.Formula.LayoutExistence
import Nabla.Proofs.Formula.Verdict

/-!
# Well nested parentheses

Parentheses are well nested if they pair up, one pair inside another or behind it. The balance check
finds no fault exactly there (`balanceFault?_eq_none_iff`). A fault is the first closing parenthesis
without a partner or, if every closing one has a partner, the last opening one without
(`culprit_of_balanceFault?`).

What the check has passed is described by `Pending`: well nested parts with an opening parenthesis
between each two of them. These parentheses are the stack of the check.
-/

namespace Nabla.Formula

/-- Lexemes whose parentheses pair up. -/
inductive WellNested : List Lexeme.Kind → Prop where
  | nil : WellNested []
  | other {kind : Lexeme.Kind} {rest : List Lexeme.Kind} (hopen : kind ≠ .openParen)
      (hclose : kind ≠ .closeParen) (hrest : WellNested rest) : WellNested (kind :: rest)
  | group {contents rest : List Lexeme.Kind} (hcontents : WellNested contents)
      (hrest : WellNested rest) : WellNested (.openParen :: (contents ++ .closeParen :: rest))

/-- The parentheses at two indices are partners: the lexemes between them are well nested. -/
def Partners (kinds : List Lexeme.Kind) (opening closing : Nat) : Prop :=
  ∃ before inner after, kinds = before ++ .openParen :: (inner ++ .closeParen :: after) ∧
    WellNested inner ∧ before.length = opening ∧ before.length + 1 + inner.length = closing

/-- The parenthesis at an index has a partner. -/
def Paired (kinds : List Lexeme.Kind) (index : Nat) : Prop :=
  ∃ other, Partners kinds index other ∨ Partners kinds other index

/-- A parenthesis of the given kind has no partner. -/
def Unpaired (kinds : List Lexeme.Kind) (paren : Lexeme.Kind) (index : Nat) : Prop :=
  kinds[index]? = some paren ∧ ¬Paired kinds index

/-- The parenthesis that is reported: the first closing one without a partner or, if every closing
one has a partner, the last opening one without. -/
def Culprit (kinds : List Lexeme.Kind) (opening : Bool) (index : Nat) : Prop :=
  if opening then
    (∀ place, ¬Unpaired kinds .closeParen place) ∧ Unpaired kinds .openParen index ∧
      ∀ later, index < later → ¬Unpaired kinds .openParen later
  else
    Unpaired kinds .closeParen index ∧
      ∀ earlier, earlier < index → ¬Unpaired kinds .closeParen earlier

variable {kinds front back inner : List Lexeme.Kind}

/-! ### Well nested lexemes -/

namespace WellNested

/-- Well nested kinds behind well nested ones are well nested. -/
theorem append (hfront : WellNested front) (hback : WellNested back) :
    WellNested (front ++ back) := by
  induction hfront with
  | nil => exact hback
  | other hopen hclose _ ih => exact .other hopen hclose ih
  | @group contents rest hcontents _ _ ih =>
    rw [List.cons_append, List.append_assoc, List.cons_append]
    exact .group hcontents ih

/-- There are as many closing parentheses as opening ones. -/
theorem count_eq (h : WellNested kinds) : kinds.count .closeParen = kinds.count .openParen := by
  induction h with
  | nil => rfl
  | other hopen hclose _ ih => rwa [List.count_cons_of_ne hopen, List.count_cons_of_ne hclose]
  | group _ _ ihcontents ihrest =>
    rw [List.count_cons_of_ne Lexeme.Kind.noConfusion, List.count_append, List.count_cons_self,
      ihcontents, ihrest, List.count_cons_self, List.count_append,
      List.count_cons_of_ne Lexeme.Kind.noConfusion]
    omega

/-- No part at the start has more closing parentheses than opening ones. -/
theorem count_le (h : WellNested (front ++ back)) :
    front.count .closeParen ≤ front.count .openParen := by
  generalize hkinds : front ++ back = kinds at h
  induction h generalizing front back with
  | nil =>
    obtain ⟨rfl, -⟩ := List.append_eq_nil_iff.1 hkinds
    exact Nat.le_refl _
  | other hopen hclose _ ih =>
    rcases List.append_eq_cons_iff.1 hkinds with ⟨rfl, -⟩ | ⟨others, rfl, hrest⟩
    · exact Nat.le_refl _
    · rw [List.count_cons_of_ne hopen, List.count_cons_of_ne hclose]
      exact ih hrest.symm
  | group hcontents _ ihcontents ihrest =>
    rcases List.append_eq_cons_iff.1 hkinds with ⟨rfl, -⟩ | ⟨others, rfl, hothers⟩
    · exact Nat.le_refl _
    · -- the part ends in the contents, or behind the closing parenthesis
      rw [List.count_cons_self, List.count_cons_of_ne Lexeme.Kind.noConfusion]
      rcases List.append_eq_append_iff.1 hothers.symm with ⟨left, rfl, -⟩ | ⟨behind, rfl, hbehind⟩
      · exact Nat.le_succ_of_le (ihcontents rfl)
      · rcases List.append_eq_cons_iff.1 hbehind.symm with ⟨rfl, -⟩ | ⟨last, rfl, hlast⟩
        · rw [List.append_nil, hcontents.count_eq]
          exact Nat.le_succ _
        · have := ihrest hlast.symm
          rw [List.count_append, List.count_append, List.count_cons_self,
            List.count_cons_of_ne Lexeme.Kind.noConfusion, hcontents.count_eq]
          omega

end WellNested

/-! ### Partners -/

/-- Partners are the same in a longer list. -/
theorem Paired.append {index : Nat} (h : Paired kinds index) (front back : List Lexeme.Kind) :
    Paired (front ++ (kinds ++ back)) (front.length + index) := by
  have hpartners {opening closing : Nat} (h : Partners kinds opening closing) :
      Partners (front ++ (kinds ++ back)) (front.length + opening) (front.length + closing) := by
    obtain ⟨before, inner, after, rfl, hinner, rfl, rfl⟩ := h
    refine ⟨front ++ before, inner, after ++ back, by simp, hinner, List.length_append, ?_⟩
    rw [List.length_append]
    omega
  obtain ⟨other, h | h⟩ := h
  · exact ⟨_, .inl (hpartners h)⟩
  · exact ⟨_, .inr (hpartners h)⟩

/-- A parenthesis keeps its partner whatever follows. -/
theorem Paired.append_right {index : Nat} (h : Paired kinds index) (back : List Lexeme.Kind) :
    Paired (kinds ++ back) index := by
  have happend := h.append [] back
  rwa [List.length_nil, Nat.zero_add] at happend

/-- Every parenthesis of well nested lexemes has a partner. -/
theorem WellNested.paired (h : WellNested kinds) {index : Nat} {paren : Lexeme.Kind}
    (hparen : paren = .openParen ∨ paren = .closeParen) (hindex : kinds[index]? = some paren) :
    Paired kinds index := by
  induction h generalizing index with
  | nil => cases hindex
  | @other kind rest hopen hclose _ ih =>
    cases index with
    | zero =>
      cases hindex
      rcases hparen with rfl | rfl
      · exact absurd rfl hopen
      · exact absurd rfl hclose
    | succ index =>
      have hpaired := (ih hindex).append [kind] []
      rwa [List.append_nil, List.length_singleton, Nat.add_comm 1] at hpaired
  | @group contents rest hcontents _ ihcontents ihrest =>
    have hgroup : Partners (.openParen :: (contents ++ .closeParen :: rest)) 0
        (1 + contents.length) := ⟨[], contents, rest, rfl, hcontents, rfl, by simp⟩
    cases index with
    | zero => exact ⟨_, .inl hgroup⟩
    | succ index =>
      rw [List.getElem?_cons_succ, List.getElem?_append] at hindex
      split at hindex
      · have hpaired := (ihcontents hindex).append [.openParen] (.closeParen :: rest)
        rwa [List.length_singleton, Nat.add_comm 1] at hpaired
      · rename_i hle
        -- the index is that of the closing parenthesis, or one behind the group
        obtain ⟨later, rfl⟩ := Nat.exists_eq_add_of_le (Nat.not_lt.1 hle)
        rw [Nat.add_sub_cancel_left] at hindex
        cases later with
        | zero => exact ⟨0, .inr (by rwa [Nat.add_zero, Nat.add_comm])⟩
        | succ later =>
          have hpaired := (ihrest hindex).append (.openParen :: (contents ++ [.closeParen])) []
          simpa [Nat.add_assoc, Nat.add_comm, Nat.add_left_comm] using hpaired

/-- Every parenthesis of well nested lexemes has a partner, also behind one that is open. -/
theorem WellNested.paired_behind (h : WellNested inner) {index : Nat} {paren : Lexeme.Kind}
    (hparen : paren = .openParen ∨ paren = .closeParen) (hlt : front.length < index)
    (hindex : (front ++ .openParen :: inner)[index]? = some paren) :
    Paired (front ++ .openParen :: inner) index := by
  obtain ⟨place, rfl⟩ := Nat.exists_eq_add_of_lt hlt
  rw [Nat.add_assoc, List.getElem?_append_right (Nat.le_add_right _ _), Nat.add_sub_cancel_left,
    List.getElem?_cons_succ] at hindex
  have hpaired := (h.paired hparen hindex).append (front ++ [.openParen]) []
  rwa [List.append_nil, ← List.append_cons, List.length_append, List.length_singleton,
    Nat.add_right_comm] at hpaired

/-- What stands in front of the closing one of two partners, and behind it. -/
theorem Partners.exists_closing {opening closing : Nat} (h : Partners kinds opening closing) :
    ∃ before inner after, kinds = (before ++ .openParen :: inner) ++ .closeParen :: after ∧
      WellNested inner ∧ (before ++ .openParen :: inner).length = closing := by
  obtain ⟨before, inner, after, rfl, hinner, -, hclosing⟩ := h
  refine ⟨before, inner, after, by simp, hinner, ?_⟩
  rw [List.length_append, List.length_cons]
  omega

/-- A closing parenthesis behind well nested lexemes has no partner. -/
theorem WellNested.unpaired_closeParen (h : WellNested front) (rest : List Lexeme.Kind) :
    Unpaired (front ++ .closeParen :: rest) .closeParen front.length := by
  refine ⟨by simp, ?_⟩
  rintro ⟨other, ⟨before, inner, after, hkinds, -, hlength, -⟩ | hpartners⟩
  · cases (List.append_inj hkinds hlength.symm).2
  · obtain ⟨before, inner, after, hkinds, hinner, hlength⟩ := hpartners.exists_closing
    obtain ⟨rfl, -⟩ := List.append_inj hkinds hlength.symm
    -- what is in front of the other parenthesis has as many closing ones as opening ones already
    have hbefore := h.count_le
    have hall := h.count_eq
    rw [List.count_append, List.count_append, List.count_cons_self,
      List.count_cons_of_ne Lexeme.Kind.noConfusion, hinner.count_eq] at hall
    omega

/-- An opening parenthesis in front of well nested lexemes has no partner. -/
theorem WellNested.unpaired_openParen (h : WellNested inner) (front : List Lexeme.Kind) :
    Unpaired (front ++ .openParen :: inner) .openParen front.length := by
  refine ⟨by simp, ?_⟩
  rintro ⟨other, ⟨before, contents, after, hkinds, hcontents, hlength, -⟩ | hpartners⟩
  · obtain ⟨-, hinner⟩ := List.append_inj hkinds hlength.symm
    obtain ⟨-, rfl⟩ := List.cons.inj hinner
    rw [List.append_cons] at h
    have hcount := h.count_le
    rw [List.count_append, List.count_append, List.count_singleton_self, hcontents.count_eq,
      List.count_singleton, if_neg] at hcount
    · omega
    · decide
  · obtain ⟨before, contents, after, hkinds, -, hlength⟩ := hpartners.exists_closing
    cases (List.append_inj hkinds hlength.symm).2

/-! ### The balance check -/

/-- Lexemes with some parentheses that are still open, the last one first. Between these the lexemes
are well nested. -/
inductive Pending : List Placed → List Placed → Prop where
  | closed {front : List Placed} (h : WellNested (front.map Placed.kind)) : Pending [] front
  | opened {opened front inner : List Placed} {item : Placed} (hfront : Pending opened front)
      (hitem : item.kind = .openParen) (hinner : WellNested (inner.map Placed.kind)) :
      Pending (item :: opened) (front ++ item :: inner)

namespace Pending

variable {opened front back : List Placed} {item : Placed}

/-- Well nested lexemes come behind. -/
theorem append (h : Pending opened front) (hback : WellNested (back.map Placed.kind)) :
    Pending opened (front ++ back) := by
  cases h with
  | closed hfront =>
    refine .closed ?_
    rw [List.map_append]
    exact hfront.append hback
  | opened hfront hitem hinner =>
    rw [List.append_assoc, List.cons_append]
    refine .opened hfront hitem ?_
    rw [List.map_append]
    exact hinner.append hback

/-- A closing parenthesis is the partner of the last one that is open. -/
theorem closeParen {last : Placed} (h : Pending (last :: opened) front)
    (hitem : item.kind = .closeParen) : Pending opened (front ++ [item]) := by
  cases h with
  | opened hfront hlast hinner =>
    rw [List.append_assoc, List.cons_append]
    refine hfront.append ?_
    rw [List.map_cons, hlast, List.map_append, List.map_singleton, hitem]
    exact .group hinner .nil

/-- Every closing parenthesis has a partner. -/
theorem paired (h : Pending opened front) {index : Nat}
    (hindex : (front.map Placed.kind)[index]? = some .closeParen) :
    Paired (front.map Placed.kind) index := by
  induction h with
  | closed h => exact h.paired (.inr rfl) hindex
  | @opened opened front inner item _ hitem hinner ih =>
    rw [List.map_append, List.map_cons, hitem] at hindex ⊢
    rcases Nat.lt_trichotomy index (front.map Placed.kind).length with hlt | rfl | hlt
    · rw [List.getElem?_append_left hlt] at hindex
      exact (ih hindex).append_right _
    · simp at hindex
    · exact hinner.paired_behind (.inr rfl) hlt hindex

end Pending

/-- What a fault of the check, or its absence, says about the lexemes that are checked. -/
def Reports (items : List Placed) : Option Fault → Prop
  | none => WellNested (items.map Placed.kind)
  | some fault => ∃ opening before item after, items = before ++ item :: after ∧
      fault = ⟨.unbalancedParentheses opening, [item.span]⟩ ∧
      Culprit (items.map Placed.kind) opening before.length

/-- A closing parenthesis is reported if nothing is open. -/
theorem reports_closing {front : List Placed} (h : WellNested (front.map Placed.kind))
    {item : Placed} (hitem : item.kind = .closeParen) (rest : List Placed) :
    Reports (front ++ item :: rest) (some ⟨.unbalancedParentheses false, [item.span]⟩) := by
  refine ⟨false, front, item, rest, rfl, rfl, ?_⟩
  rw [List.map_append, List.map_cons, hitem, ← List.length_map (f := Placed.kind)]
  refine ⟨h.unpaired_closeParen _, fun earlier hlt hunpaired ↦ hunpaired.2 ?_⟩
  have hindex := hunpaired.1
  rw [List.getElem?_append_left hlt] at hindex
  exact (h.paired (.inr rfl) hindex).append_right _

/-- The last parenthesis that is open at the end is reported. -/
theorem reports_opened {opened front : List Placed} {last : Placed}
    (h : Pending (last :: opened) front) :
    Reports front (some ⟨.unbalancedParentheses true, [last.span]⟩) := by
  have hclosing (place : Nat) : ¬Unpaired (front.map Placed.kind) .closeParen place :=
    fun hunpaired ↦ hunpaired.2 (h.paired hunpaired.1)
  cases h with
  | @opened _ front inner _ _ hlast hinner =>
    refine ⟨true, front, last, inner, rfl, rfl, hclosing, ?_⟩
    rw [List.map_append, List.map_cons, hlast, ← List.length_map (f := Placed.kind)]
    exact ⟨hinner.unpaired_openParen _,
      fun later hlt hunpaired ↦ hunpaired.2 (hinner.paired_behind (.inl rfl) hlt hunpaired.1)⟩

/-- What the check reports about the lexemes it has passed and those that follow. -/
theorem Pending.reports {opened front : List Placed} (h : Pending opened front)
    (items : List Placed) : Reports (front ++ items) (balanceFault? opened items) := by
  induction items generalizing opened front with
  | nil =>
    rw [List.append_nil, balanceFault?]
    cases opened with
    | nil =>
      cases h with
      | closed h => exact h
    | cons last outer => exact reports_opened h
  | cons item rest ih =>
    by_cases hopen : item.kind = .openParen
    · rw [balanceFault?_openParen hopen, List.append_cons]
      exact ih (.opened h hopen .nil)
    · by_cases hclose : item.kind = .closeParen
      · cases opened with
        | nil =>
          rw [balanceFault?_closing hclose]
          cases h with
          | closed h => exact reports_closing h hclose rest
        | cons last outer =>
          rw [balanceFault?_closeParen hclose, List.append_cons]
          exact ih (h.closeParen hclose)
      · rw [balanceFault?_other hopen hclose, List.append_cons]
        exact ih (h.append (.other hopen hclose .nil))

/-- What the check reports about lexemes. -/
theorem reports_balanceFault? (items : List Placed) : Reports items (balanceFault? [] items) :=
  @Pending.reports [] [] (.closed .nil) items

/-- Well nested lexemes are passed as a whole. -/
theorem WellNested.nested {items : List Placed} (h : WellNested (items.map Placed.kind)) :
    Nested items := by
  generalize hkinds : items.map Placed.kind = kinds at h
  induction h generalizing items with
  | nil =>
    obtain rfl := List.map_eq_nil_iff.1 hkinds
    exact .nil
  | other hopen hclose _ ih =>
    obtain ⟨item, rest, rfl, rfl, hrest⟩ := List.map_eq_cons_iff.1 hkinds
    exact (Nested.single hopen hclose).append (ih hrest)
  | group _ _ ihcontents ihrest =>
    obtain ⟨opening, others, rfl, hopening, hothers⟩ := List.map_eq_cons_iff.1 hkinds
    obtain ⟨contents, others, rfl, hcontents, hothers⟩ := List.map_eq_append_iff.1 hothers
    obtain ⟨closing, rest, rfl, hclosing, hrest⟩ := List.map_eq_cons_iff.1 hothers
    have hgroup := (Nested.group hopening hclosing (ihcontents hcontents)).append (ihrest hrest)
    rwa [List.cons_append, List.append_assoc, List.singleton_append] at hgroup

/-- The check finds no fault exactly if the lexemes are well nested. -/
theorem balanceFault?_eq_none_iff {items : List Placed} :
    balanceFault? [] items = none ↔ WellNested (items.map Placed.kind) := by
  constructor
  · intro hbalance
    have hreports := reports_balanceFault? items
    rwa [hbalance] at hreports
  · intro h
    have hbalance := h.nested.balanceFault?_append [] []
    rwa [List.append_nil] at hbalance

/-- Lexemes that the check passes close what is open before them. -/
theorem exists_splitGroup? {opened items : List Placed} {depth : Nat}
    (h : balanceFault? opened items = none) (hdepth : depth < opened.length) :
    ∃ group, splitGroup? depth items = some group := by
  -- fewer parentheses are to be closed by the search than by the check, at every step
  induction items generalizing opened depth with
  | nil =>
    rw [balanceFault?, Option.map_eq_none_iff, List.head?_eq_none_iff] at h
    subst h
    cases hdepth
  | cons item rest ih =>
    have hcons {opened : List Placed} {depth : Nat} (h : balanceFault? opened rest = none)
        (hdepth : depth < opened.length) :
        ∃ group, (splitGroup? depth rest).map (Group.cons item) = some group := by
      obtain ⟨group, hgroup⟩ := ih h hdepth
      exact ⟨group.cons item, by rw [hgroup, Option.map_some]⟩
    by_cases hopen : item.kind = .openParen
    · rw [splitGroup?_openParen hopen]
      rw [balanceFault?_openParen hopen] at h
      exact hcons h (Nat.succ_lt_succ hdepth)
    · by_cases hclose : item.kind = .closeParen
      · cases depth with
        | zero => exact ⟨_, splitGroup?_closing hclose rest⟩
        | succ depth =>
          obtain ⟨last, outer, rfl⟩ := List.exists_cons_of_length_pos (Nat.zero_lt_of_lt hdepth)
          rw [splitGroup?_closeParen hclose]
          rw [balanceFault?_closeParen hclose] at h
          exact hcons h (Nat.lt_of_succ_lt_succ hdepth)
      · rw [splitGroup?_other hopen hclose]
        rw [balanceFault?_other hopen hclose] at h
        exact hcons h hdepth

/-- No parenthesis begins a leaf. -/
theorem Lexeme.Kind.ne_paren_of_beginsLeaf {kind : Lexeme.Kind} (h : kind.beginsLeaf = true) :
    kind ≠ .openParen ∧ kind ≠ .closeParen := by
  constructor <;> rintro rfl <;> cases h

/-- A group that belongs to a leaf is closed. -/
theorem exists_group_of_balanceFault? {opened after : List Placed} {item opening : Placed}
    (h : balanceFault? opened (item :: opening :: after) = none)
    (hbegins : item.kind.beginsLeaf = true) (hopening : opening.kind = .openParen) :
    ∃ group, splitGroup? 0 after = some group := by
  obtain ⟨hopen, hclose⟩ := Lexeme.Kind.ne_paren_of_beginsLeaf hbegins
  rw [balanceFault?_other hopen hclose, balanceFault?_openParen hopening] at h
  exact exists_splitGroup? h (Nat.succ_pos opened.length)

/-- Whether lexemes are well nested can be checked. -/
instance : DecidablePred WellNested := fun kinds ↦
  decidable_of_iff (balanceFault? [] (placeFrom 0 (kinds.map Lexeme.Kind.bare)) = none) <| by
    rw [balanceFault?_eq_none_iff, map_kind_placeFrom, List.map_map]
    exact iff_of_eq (congrArg WellNested (List.map_id kinds))

end Nabla.Formula
