import Nabla.Proofs.Formula.FlatReading
import Nabla.Proofs.Formula.Verdict
import Nabla.Proofs.Formula.WrittenTimes
import Nabla.Proofs.Text.Regions

/-!
# Regions of the faults of lexemes

Every fault of the reader of lexemes points at a region of the text that can be shown
(`visibleIn_readLexemes`). The regions of tokens can be shown, those of lexemes are regions of
tokens, and every other region is that of a lexeme, or reaches from a lexeme to a later one.
-/

namespace Nabla.Formula

open Text (Span)

variable {mode : Mode} {text : List Char}

/-! ### Faults of assemblies -/

namespace Gathered

/-- An index is that of a leaf or of an operator. -/
inductive HasIndex (gathered : Gathered) : Nat → Prop where
  | leaf {index : Nat} {operand : Expr} (hentry : (index, operand) ∈ gathered.pool.entries) :
      HasIndex gathered index
  | operator {occurrence : Occurrence} (hoccurrence : occurrence ∈ gathered.operators) :
      HasIndex gathered occurrence.index

variable {gathered : Gathered} {index place : Nat}

/-- A new leaf brings its own index. -/
theorem hasIndex_of_addLeaf {leaf : Expr} (h : (gathered.addLeaf place leaf).HasIndex index) :
    index = place ∨ gathered.HasIndex index := by
  cases h with
  | leaf hentry =>
    rcases OperandPool.mem_of_mem_insert hentry with heq | hentry
    · cases heq
      exact .inl rfl
    · exact .inr (.leaf hentry)
  | operator hoccurrence => exact .inr (.operator hoccurrence)

/-- A new operator brings its own index. -/
theorem hasIndex_of_addOperator {occurrence : Occurrence}
    (h : (gathered.addOperator occurrence).HasIndex index) :
    index = occurrence.index ∨ gathered.HasIndex index := by
  cases h with
  | leaf hentry => exact .inr (.leaf hentry)
  | operator hoccurrence =>
    rcases List.mem_cons.1 hoccurrence with rfl | hoccurrence
    · exact .inl rfl
    · exact .inr (.operator hoccurrence)

/-- The result of an operator stands at the index of the operator. -/
theorem hasIndex_of_build? {pool built : OperandPool} {occurrence : Occurrence}
    {rest : List Occurrence} (hbuilt : pool.build? occurrence = some built)
    (h : HasIndex ⟨built, rest⟩ index) : HasIndex ⟨pool, occurrence :: rest⟩ index := by
  cases h with
  | @leaf index operand hentry =>
    rcases OperandPool.mem_of_build? hbuilt hentry with heq | hentry
    · cases heq
      exact .operator List.mem_cons_self
    · exact .leaf hentry
  | operator hoccurrence => exact .operator (List.mem_cons_of_mem _ hoccurrence)

end Gathered

/-- A fault of an assembly points at an operand, at an operator, or at the region for an assembly
without operands. -/
theorem spans_of_assemble {regions : Regions} {pool : OperandPool} {order : List Occurrence}
    {fault : Fault} (h : (assemble regions pool order).outcome = .error fault) :
    fault.spans = [regions.ofEmpty] ∨
      ∃ index, Gathered.HasIndex ⟨pool, order⟩ index ∧ fault.spans = [regions.ofIndex index] := by
  induction order generalizing pool with
  | nil =>
    change pool.single regions = .error fault at h
    unfold OperandPool.single at h
    split at h
    · cases h
      exact .inl rfl
    · cases h
    · rename_i first second operand others hentries
      cases h
      have hentry : (second, operand) ∈ pool.entries := by
        rw [hentries]
        exact List.mem_cons_of_mem _ List.mem_cons_self
      exact .inr ⟨second, .leaf hentry, rfl⟩
  | cons occurrence rest ih =>
    rw [outcome_assemble_cons] at h
    cases hbuilt : pool.build? occurrence with
    | none =>
      rw [hbuilt] at h
      cases h
      exact .inr ⟨occurrence.index, .operator List.mem_cons_self, rfl⟩
    | some built =>
      rw [hbuilt] at h
      refine (ih h).imp_right ?_
      rintro ⟨index, hindex, hspans⟩
      exact ⟨index, Gathered.hasIndex_of_build? hbuilt hindex, hspans⟩

/-- The same of the tree of a range. -/
theorem Gathered.spans_of_build {gathered : Gathered} {regions : Regions} {start stop : Nat}
    {fault : Fault} (h : (gathered.build regions start stop).outcome = .error fault) :
    fault.spans = [regions.ofEmpty] ∨
      ∃ index, gathered.HasIndex index ∧ fault.spans = [regions.ofIndex index] := by
  rw [outcome_build] at h
  refine (spans_of_assemble h).imp_right ?_
  rintro ⟨index, hindex, hspans⟩
  refine ⟨index, ?_, hspans⟩
  cases hindex with
  | leaf hentry => exact .leaf hentry
  | operator hoccurrence =>
    exact .operator ((constructionOrder_perm gathered.operators).mem_iff.1 hoccurrence)

/-! ### Tokens and lexemes -/

/-- Regions that can be shown in a text, one after the other from a position on. -/
structure Located (text : List Char) (position : Nat) (spans : List Span) : Prop where
  shows : ∀ span ∈ spans, span.ShowsIn text
  ordered : spans.Pairwise fun first second ↦ first.start ≤ second.start
  after : ∀ span ∈ spans, position ≤ span.start

namespace Located

variable {position next : Nat} {span : Span} {spans others : List Span}

/-- There are no regions. -/
theorem nil : Located text position [] :=
  ⟨fun _ h ↦ absurd h List.not_mem_nil, .nil, fun _ h ↦ absurd h List.not_mem_nil⟩

/-- A region in front of those that begin behind its start. -/
theorem cons (hspan : span.ShowsIn text) (hposition : position ≤ span.start)
    (hnext : span.start ≤ next) (h : Located text next spans) :
    Located text position (span :: spans) := by
  have hstart : ∀ other ∈ spans, span.start ≤ other.start :=
    fun other hother ↦ Nat.le_trans hnext (h.after other hother)
  refine ⟨List.forall_mem_cons.2 ⟨hspan, h.shows⟩, List.pairwise_cons.2 ⟨hstart, h.ordered⟩,
    List.forall_mem_cons.2 ⟨hposition, fun other hother ↦ ?_⟩⟩
  exact Nat.le_trans hposition (hstart other hother)

/-- The regions behind the first one begin behind its start. -/
theorem tail (h : Located text position (span :: spans)) : Located text span.start spans :=
  ⟨(List.forall_mem_cons.1 h.shows).2, (List.pairwise_cons.1 h.ordered).2,
    (List.pairwise_cons.1 h.ordered).1⟩

/-- Some of the regions are located as well. -/
theorem sublist (h : Located text position spans) (hothers : others.Sublist spans) :
    Located text position others :=
  ⟨fun span hspan ↦ h.shows span (hothers.subset hspan), h.ordered.sublist hothers,
    fun span hspan ↦ h.after span (hothers.subset hspan)⟩

end Located

/-- The tokens of a text are located in it. -/
theorem located_scanFrom (front text : List Char) :
    Located (front ++ text) (Text.byteLength front)
      ((Token.scanFrom (Text.byteLength front) text).map Token.span) := by
  match text with
  | [] =>
    rw [Token.scanFrom]
    exact .nil
  | c :: rest =>
    let count := (Token.first c rest).2
    let taken := c :: rest.take count
    have htext : front ++ c :: rest = front ++ (taken ++ rest.drop count) := by
      rw [List.cons_append, List.take_append_drop]
    have hdrop : (rest.drop count).length < (c :: rest).length := by
      rw [List.length_drop, List.length_cons]
      omega
    have hrest := located_scanFrom (front ++ taken) (rest.drop count)
    rw [List.append_assoc, ← htext, Text.byteLength_append] at hrest
    rw [Token.scanFrom_cons (show Token.first c rest = (_, count) from rfl), List.map_cons]
    refine .cons ?_ (Nat.le_refl _) (Nat.le_add_right _ (Text.byteLength taken)) hrest
    rw [htext]
    exact .ofChars front (rest.drop count) (List.cons_ne_nil c _)
termination_by text.length
decreasing_by exact hdrop

/-- Lexemes have regions of tokens, and so has a fault among the tokens. -/
theorem spans_of_classifyAll (mode : Mode) (tokens : List Token) :
    ((classifyAll mode tokens).1.map Lexeme.span).Sublist (tokens.map Token.span) ∧
      ∀ fault ∈ (classifyAll mode tokens).2, ∃ token ∈ tokens, fault.spans = [token.span] := by
  induction tokens with
  | nil => exact ⟨.slnil, fun _ h ↦ absurd h (Option.not_mem_none _)⟩
  | cons token rest ih =>
    obtain ⟨hlexemes, hfault⟩ := ih
    rw [classifyAll]
    split
    · rename_i cause hclassify
      refine ⟨List.nil_sublist _, fun fault hmem ↦ ?_⟩
      cases hmem
      exact ⟨token, List.mem_cons_self, rfl⟩
    · exact ⟨hlexemes.cons _, fun fault hmem ↦ List.exists_mem_cons_of_exists (hfault fault hmem)⟩
    · exact ⟨hlexemes.cons_cons _,
        fun fault hmem ↦ List.exists_mem_cons_of_exists (hfault fault hmem)⟩

/-- An inserted multiplication has the region of the lexeme after it. -/
theorem Located.insertTimesAfter {position : Nat} {lexemes : List Lexeme}
    (h : Located text position (lexemes.map Lexeme.span)) (last : Option Lexeme.Kind)
    (distance : Nat) :
    Located text position ((insertTimesAfter last distance lexemes).map Lexeme.span) := by
  induction lexemes generalizing position last distance with
  | nil => exact .nil
  | cons lexeme rest ih =>
    have hspan := h.shows lexeme.span List.mem_cons_self
    have hposition := h.after lexeme.span List.mem_cons_self
    rw [Formula.insertTimesAfter]
    split
    · exact .cons hspan hposition (Nat.le_refl _)
        (.cons hspan (Nat.le_refl _) (Nat.le_refl _) (ih h.tail _ _))
    · exact .cons hspan hposition (Nat.le_refl _) (ih h.tail _ _)

/-- The lexemes of a text are located in it, and a fault among its tokens can be shown. -/
theorem located_lex (mode : Mode) (text : List Char) :
    Located text 0 ((lex mode text).lexemes.map Lexeme.span) ∧
      ∀ fault ∈ (lex mode text).fault, fault.ShowsIn text := by
  have htokens := located_scanFrom [] text
  obtain ⟨hlexemes, hfault⟩ := spans_of_classifyAll mode (Token.scan text)
  constructor
  · show Located text 0 ((insertTimes 0 (classifyAll mode (Token.scan text)).1).map Lexeme.span)
    rw [insertTimes_eq_insertTimesAfter]
    exact (htokens.sublist hlexemes).insertTimesAfter none 0
  · intro fault hmem
    obtain ⟨token, htoken, hspans⟩ := hfault fault hmem
    exact ⟨token.span, hspans, htokens.shows _ (List.mem_map_of_mem htoken)⟩

/-! ### Faults that point at a lexeme -/

/-- A parenthesis without a partner is one of the lexemes. -/
theorem spans_of_balanceFault? {opened items : List Placed} {fault : Fault}
    (h : balanceFault? opened items = some fault) :
    ∃ item, (item ∈ opened ∨ item ∈ items) ∧ fault.spans = [item.span] := by
  induction items generalizing opened with
  | nil =>
    obtain ⟨item, hitem, rfl⟩ := Option.map_eq_some_iff.1 h
    exact ⟨item, .inl (List.mem_of_head? hitem), rfl⟩
  | cons item rest ih =>
    -- nothing but this lexeme is opened, so a lexeme that is found later is one of these
    have hlater {inner : List Placed} (hinner : ∀ other ∈ inner, other = item ∨ other ∈ opened)
        (h : balanceFault? inner rest = some fault) :
        ∃ other, (other ∈ opened ∨ other ∈ item :: rest) ∧ fault.spans = [other.span] := by
      obtain ⟨other, hother | hother, hspans⟩ := ih h
      · rcases hinner other hother with rfl | hopened
        · exact ⟨other, .inr List.mem_cons_self, hspans⟩
        · exact ⟨other, .inl hopened, hspans⟩
      · exact ⟨other, .inr (List.mem_cons_of_mem _ hother), hspans⟩
    by_cases hopen : item.kind = .openParen
    · rw [balanceFault?_openParen hopen] at h
      exact hlater (fun other hother ↦ List.mem_cons.1 hother) h
    · by_cases hclose : item.kind = .closeParen
      · cases opened with
        | nil =>
          rw [balanceFault?_closing hclose] at h
          cases h
          exact ⟨item, .inr List.mem_cons_self, rfl⟩
        | cons last outer =>
          rw [balanceFault?_closeParen hclose] at h
          exact hlater (fun other hother ↦ .inr (List.mem_cons_of_mem _ hother)) h
      · rw [balanceFault?_other hopen hclose] at h
        exact hlater (fun other hother ↦ .inr hother) h

/-- A group without an end is missed at its opening parenthesis. -/
theorem spans_of_groupExtent {function : Option Function} {opening : Placed} {after : List Placed}
    {fault : Fault} (h : groupExtent function opening after = .error fault) :
    fault.spans = [opening.span] := by
  unfold groupExtent at h
  split at h <;> cases h
  rfl

/-- A leaf that is not complete is missed at one of its lexemes. -/
theorem spans_of_extentOf {item : Placed} {rest : List Placed} {fault : Fault}
    (h : extentOf item rest = .error fault) :
    ∃ other ∈ item :: rest, fault.spans = [other.span] := by
  induction rest generalizing item with
  | nil =>
    unfold extentOf callExtent at h
    split at h
    · cases h
    · cases h
      exact ⟨item, List.mem_cons_self, rfl⟩
    · split at h <;> cases h <;> exact ⟨item, List.mem_cons_self, rfl⟩
  | cons next after ih =>
    have hitem (hspans : fault.spans = [item.span]) :
        ∃ other ∈ item :: next :: after, fault.spans = [other.span] :=
      ⟨item, List.mem_cons_self, hspans⟩
    have hnext (hspans : fault.spans = [next.span]) :
        ∃ other ∈ item :: next :: after, fault.spans = [other.span] :=
      ⟨next, List.mem_cons_of_mem _ List.mem_cons_self, hspans⟩
    unfold extentOf callExtent at h
    split at h
    · cases h
    · simp only at h
      split at h
      · exact hnext (spans_of_groupExtent h)
      · cases h
        exact hitem rfl
    · split at h
      · simp only at h
        split at h
        · exact hnext (spans_of_groupExtent (eq_error_of_map_eq_error h))
        · split at h
          · obtain ⟨other, hother, hspans⟩ := ih (eq_error_of_map_eq_error h)
            exact ⟨other, List.mem_cons_of_mem _ hother, hspans⟩
          · cases h
            exact hitem rfl
      · cases h
        exact hitem rfl

/-! ### The lexemes of a leaf -/

/-- What a group is split into is part of the lexemes. -/
theorem sublist_of_splitGroup? {depth : Nat} {items : List Placed} {group : Group}
    (h : splitGroup? depth items = some group) :
    group.rest.Sublist items ∧ group.contents.Sublist items ∧ group.closing ∈ items := by
  rw [splitGroup?_eq_some h]
  refine ⟨(List.sublist_cons_self _ _).trans (List.sublist_append_right _ _),
    List.sublist_append_left _ _, ?_⟩
  exact List.mem_append_right _ List.mem_cons_self

/-- The contents of a leaf, and what follows it, are some of the lexemes. -/
theorem Owns.sublist {items rest : List Placed} {extent : Extent} (h : Owns items extent rest) :
    rest.Sublist items ∧ extent.ending.contents.Sublist items := by
  induction h with
  | value => exact ⟨List.sublist_cons_self _ _, List.nil_sublist _⟩
  | @owned item opening after group opener hitem hopening hgroup =>
    obtain ⟨hrest, hcontents, -⟩ := sublist_of_splitGroup? hgroup
    refine ⟨(hrest.cons _).cons _, ?_⟩
    cases opener <;> exact (hcontents.cons _).cons _
  | negated _ _ ih => exact ⟨ih.1.cons _, ih.2.cons _⟩

/-- The group that a leaf ends in stands between two of its lexemes. -/
theorem Owns.exists_parens {items rest : List Placed} {extent : Extent}
    (h : Owns items extent rest) {function : Option Function} {opening closing : Nat}
    {contents : List Placed} (hending : extent.ending = .group function opening closing contents) :
    ∃ first last, [first, last].Sublist items ∧ first.index = opening ∧ last.index = closing := by
  induction h with
  | value => cases hending
  | @owned item first after group opener hitem hopening hgroup =>
    obtain ⟨-, -, hclosing⟩ := sublist_of_splitGroup? hgroup
    have hpair : [first, group.closing].Sublist (item :: first :: after) :=
      ((List.singleton_sublist.2 hclosing).cons_cons first).cons item
    cases opener <;> cases hending <;> exact ⟨first, group.closing, hpair, rfl, rfl⟩
  | negated _ _ ih =>
    obtain ⟨first, last, hpair, hfirst, hlast⟩ := ih hending
    exact ⟨first, last, hpair.cons _, hfirst, hlast⟩

/-! ### Regions of a source -/

/-- The lexemes of a source are located in a text. -/
structure Source.LocatedIn (source : Source) (text : List Char) : Prop where
  spans : Located text 0 (source.lexemes.map Lexeme.span)
  length : source.length = Text.byteLength text

namespace Source

variable {source : Source}

/-- The region at an index is that of the lexeme there. -/
theorem spanAt_eq {index : Nat} (h : index < source.lexemes.length) :
    source.spanAt index = source.lexemes[index].span := by
  rw [spanAt, List.getElem?_eq_getElem h]

/-- The region of a placed lexeme is that of its index. -/
theorem spanAt_index {item : Placed} (h : item ∈ placeFrom 0 source.lexemes) :
    item.index < source.lexemes.length ∧ source.spanAt item.index = item.span := by
  have hitem : source.lexemes[item.index]? = some item.lexeme := (getElem?_of_mem_placeFrom h).2
  refine ⟨(List.getElem?_eq_some_iff.1 hitem).1, ?_⟩
  rw [spanAt, hitem]
  rfl

namespace LocatedIn

/-- The region at an index of a lexeme can be shown. -/
theorem showsIn_spanAt (h : source.LocatedIn text) {index : Nat}
    (hindex : index < source.lexemes.length) : (source.spanAt index).ShowsIn text := by
  rw [spanAt_eq hindex]
  exact h.spans.shows _ (List.mem_map_of_mem (List.getElem_mem hindex))

/-- The region of a lexeme can be shown. -/
theorem showsIn_span (h : source.LocatedIn text) {item : Placed}
    (hitem : item ∈ placeFrom 0 source.lexemes) : item.span.ShowsIn text := by
  obtain ⟨hindex, hspan⟩ := spanAt_index hitem
  rw [← hspan]
  exact h.showsIn_spanAt hindex

/-- From a lexeme to the same or a later one. -/
theorem showsIn_through (h : source.LocatedIn text) {first last : Nat} (hle : first ≤ last)
    (hlast : last < source.lexemes.length) :
    (Span.mk (source.spanAt first).start (source.spanAt last).stop).ShowsIn text := by
  have hfirst := Nat.lt_of_le_of_lt hle hlast
  refine (h.showsIn_spanAt hfirst).through (h.showsIn_spanAt hlast) ?_
  rcases Nat.eq_or_lt_of_le hle with rfl | hlt
  · exact Nat.le_refl _
  · have hstarts := List.pairwise_iff_getElem.1 (List.pairwise_map.1 h.spans.ordered)
    rw [spanAt_eq hfirst, spanAt_eq hlast]
    exact hstarts first last hfirst hlast hlt

/-- The region of the contents of a group. If it is empty, the parentheses are shown. -/
theorem showsIn_rangeSpan (h : source.LocatedIn text) {opening closing : Nat}
    (hlt : opening < closing) (hclosing : closing < source.lexemes.length) :
    (source.rangeSpan (opening + 1) closing).ShowsIn text := by
  unfold rangeSpan
  split
  · exact h.showsIn_through (by omega) (by omega)
  · rw [if_pos ⟨Nat.succ_pos opening, hclosing⟩, Nat.add_sub_cancel]
    exact h.showsIn_through (Nat.le_of_lt hlt) hclosing

/-- The region of all lexemes. If there are none, it is the whole text. -/
theorem visibleIn_rangeSpan (h : source.LocatedIn text) :
    (source.rangeSpan 0 source.lexemes.length).VisibleIn text := by
  unfold rangeSpan
  split
  · exact (h.showsIn_through (Nat.zero_le _) (by omega)).visibleIn
  · rw [if_neg (fun hempty ↦ Nat.lt_irrefl 0 hempty.1), h.length]
    exact Span.visibleIn_whole text

end LocatedIn

end Source

/-! ### Faults of a reading -/

namespace Source

variable {source : Source}

/-- What is gathered from lexemes stands at their indices. -/
theorem exists_of_hasIndex {depth : Nat} {items : List Placed} {gathered : Gathered}
    (h : (source.gather depth items).outcome = .ok gathered) {index : Nat}
    (hindex : gathered.HasIndex index) : ∃ item ∈ items, item.index = index := by
  have hlater {item : Placed} {rest : List Placed} (h : ∃ other ∈ rest, other.index = index) :
      ∃ other ∈ item :: rest, other.index = index := by
    obtain ⟨other, hother, heq⟩ := h
    exact ⟨other, List.mem_cons_of_mem _ hother, heq⟩
  induction depth, items using reading_induction generalizing gathered with
  | nil depth =>
    rw [gather_nil] at h
    cases h
    cases hindex with
    | leaf hentry => cases hentry
    | operator hoccurrence => cases hoccurrence
  | leaf depth item rest hbegins ih =>
    rw [source.outcome_gather_leaf depth hbegins] at h
    obtain ⟨⟨extent, after⟩, hextent, h⟩ := exists_of_bind_eq_ok h
    obtain ⟨leaf, -, h⟩ := exists_of_bind_eq_ok h
    obtain ⟨others, hothers, rfl⟩ := exists_of_map_eq_ok h
    -- a leaf stands at its first lexeme; what it owns is gathered apart and leaves no index
    rcases Gathered.hasIndex_of_addLeaf hindex with rfl | hindex
    · exact ⟨item, List.mem_cons_self, rfl⟩
    · obtain ⟨other, hother, heq⟩ := (ih extent after hextent).2 hothers hindex
      exact ⟨other, (owns_of_extentOf hextent).sublist.1.subset hother, heq⟩
  | operator depth item rest op hitem ih =>
    rw [source.gather_operator depth hitem] at h
    obtain ⟨others, hothers, rfl⟩ := exists_of_map_eq_ok h
    rcases Gathered.hasIndex_of_addOperator hindex with rfl | hindex
    · exact ⟨item, List.mem_cons_self, rfl⟩
    · exact hlater (ih hothers hindex)
  | openParen depth item rest hitem ih =>
    rw [source.gather_openParen depth hitem] at h
    exact hlater (ih h hindex)
  | closeParen depth item rest hitem ih =>
    rw [source.gather_closeParen depth hitem] at h
    exact hlater (ih h hindex)

/-- The region of a fault in the contents of a leaf. -/
theorem LocatedIn.showsIn_leafOutcome (hsource : source.LocatedIn text) {items rest : List Placed}
    {extent : Extent} (howns : Owns items extent rest)
    (hitems : items.Sublist (placeFrom 0 source.lexemes)) {fault : Fault}
    (hcontents : (source.gather 0 extent.ending.contents).outcome = .error fault →
      fault.ShowsIn text)
    (h : source.leafOutcome extent = .error fault) : fault.ShowsIn text := by
  unfold leafOutcome at h
  cases hending : extent.ending with
  | value operand =>
    rw [hending] at h
    cases h
  | group function opening closing contents =>
    rw [hending] at h hcontents
    rcases exists_of_bind_eq_error (eq_error_of_map_eq_error h) with h | ⟨gathered, hgathered, h⟩
    · exact hcontents h
    · obtain ⟨first, last, hpair, rfl, rfl⟩ := howns.exists_parens hending
      have hlt : first.index < last.index :=
        List.rel_of_pairwise_cons ((pairwise_placeFrom 0 _).sublist (hpair.trans hitems))
          List.mem_cons_self
      have hlast : last ∈ placeFrom 0 source.lexemes := (hpair.trans hitems).subset (by simp)
      have hsublist := howns.sublist.2
      rw [hending] at hsublist
      rcases Gathered.spans_of_build h with hspans | ⟨index, hindex, hspans⟩
      · exact ⟨_, hspans, hsource.showsIn_rangeSpan hlt (spanAt_index hlast).1⟩
      · obtain ⟨item, hitem, rfl⟩ := exists_of_hasIndex hgathered hindex
        have hmem := (hsublist.trans hitems).subset hitem
        exact ⟨_, hspans, hsource.showsIn_spanAt (spanAt_index hmem).1⟩

/-- A fault in lexemes that are gathered points at some of them. -/
theorem LocatedIn.showsIn_gather (hsource : source.LocatedIn text) {depth : Nat}
    {items : List Placed} (hitems : items.Sublist (placeFrom 0 source.lexemes)) {fault : Fault}
    (h : (source.gather depth items).outcome = .error fault) : fault.ShowsIn text := by
  induction depth, items using reading_induction with
  | nil depth =>
    rw [gather_nil] at h
    cases h
  | leaf depth item rest hbegins ih =>
    rw [source.outcome_gather_leaf depth hbegins] at h
    rcases exists_of_bind_eq_error h with h | ⟨⟨extent, after⟩, hextent, h⟩
    · obtain ⟨other, hother, hspans⟩ := spans_of_extentOf h
      exact ⟨_, hspans, hsource.showsIn_span (hitems.subset hother)⟩
    · obtain ⟨ihcontents, ihafter⟩ := ih extent after hextent
      have howns := owns_of_extentOf hextent
      rcases exists_of_bind_eq_error h with h | ⟨leaf, hleaf, h⟩
      · exact hsource.showsIn_leafOutcome howns hitems
          (ihcontents (howns.sublist.2.trans hitems)) h
      · exact ihafter (howns.sublist.1.trans hitems) (eq_error_of_map_eq_error h)
  | operator depth item rest op hitem ih =>
    rw [source.gather_operator depth hitem] at h
    exact ih (List.sublist_of_cons_sublist hitems) (eq_error_of_map_eq_error h)
  | openParen depth item rest hitem ih =>
    rw [source.gather_openParen depth hitem] at h
    exact ih (List.sublist_of_cons_sublist hitems) h
  | closeParen depth item rest hitem ih =>
    rw [source.gather_closeParen depth hitem] at h
    exact ih (List.sublist_of_cons_sublist hitems) h

/-- Every fault of lexemes can be shown in their text. -/
theorem LocatedIn.visibleIn_read (hsource : source.LocatedIn text) {fault : Fault}
    (h : source.read.outcome = .error fault) : fault.VisibleIn text := by
  rw [outcome_read] at h
  cases hbalance : balanceFault? [] (placeFrom 0 source.lexemes) with
  | some unbalanced =>
    rw [hbalance] at h
    cases h
    obtain ⟨item, hopened | hitem, hspans⟩ := spans_of_balanceFault? hbalance
    · cases hopened
    · exact ⟨_, hspans, (hsource.showsIn_span hitem).visibleIn⟩
  | none =>
    rw [hbalance] at h
    rcases exists_of_bind_eq_error h with h | ⟨gathered, hgathered, h⟩
    · exact (hsource.showsIn_gather (List.Sublist.refl _) h).visibleIn
    · rw [← gathered.outcome_build _ 0 source.lexemes.length] at h
      rcases Gathered.spans_of_build h with hspans | ⟨index, hindex, hspans⟩
      · exact ⟨_, hspans, hsource.visibleIn_rangeSpan⟩
      · obtain ⟨item, hitem, rfl⟩ := exists_of_hasIndex hgathered hindex
        exact ⟨_, hspans, (hsource.showsIn_spanAt (spanAt_index hitem).1).visibleIn⟩

end Source

/-- Every fault of the reader of lexemes can be shown. -/
theorem visibleIn_readLexemes {fault : Fault}
    (h : (readLexemes mode text).outcome = .error fault) : fault.VisibleIn text := by
  obtain ⟨hspans, hfault⟩ := located_lex mode text
  rw [readLexemes, Recorded.outcome_andThen] at h
  rcases exists_of_bind_eq_error h with h | ⟨lexemes, hlexemes, h⟩
  · change (lex mode text).toExcept = .error fault at h
    unfold Lexed.toExcept at h
    split at h
    · rename_i hother
      cases h
      exact (hfault fault hother).visibleIn
    · cases h
  · change (lex mode text).toExcept = .ok lexemes at hlexemes
    unfold Lexed.toExcept at hlexemes
    split at hlexemes
    · cases hlexemes
    · cases hlexemes
      exact Source.LocatedIn.visibleIn_read ⟨hspans, rfl⟩ h

end Nabla.Formula
