import Nabla.Proofs.Expr.NormalForm
import Nabla.Proofs.Formula.LexemeRegions
import Nabla.Proofs.Formula.Operands
import Nabla.Proofs.Formula.RangeRuns

/-!
# The history of a construction

What a reading records as built is the history of its tree: every binary node once, and each after
all that are below it (`trace_replays_construction`). A node is told from its equals by its place.
While a range is assembled, places begin with the index of an operand in the pool, and an operator
moves the places of its operands below its own.
-/

namespace Nabla

/-! ### Places -/

namespace Expr

/-- The node of an expression at a place. A place says which operand to go down to, from the root
on. -/
def at? : List Nat → Expr → Option Expr
  | [], e => some e
  | side :: place, e => e.operands[side]?.bind (at? place)

/-- Whether an expression is a binary operation. -/
def isBinary : Expr → Bool
  | binary .. => true
  | _ => false

end Expr

namespace Formula

/-- A history of the nodes that stand at places: it has all the binary ones, and none after one that
is above it. So it has each of them once. -/
structure History (stands : List Nat → Expr → Prop) (history : List (List Nat × Expr)) : Prop where
  mem_iff : ∀ place node,
    (place, node) ∈ history ↔ stands place node ∧ node.isBinary = true
  upward : history.Pairwise fun earlier later ↦ ¬ earlier.1 <+: later.1

/-- A history of an expression. -/
def HistoryOf (e : Expr) (history : List (List Nat × Expr)) : Prop :=
  History (fun place node ↦ e.at? place = some node) history

/-- A node stands at a place in a pool: below the operand at the index that the place begins with.
-/
def StandsIn (entries : List (Nat × Expr)) (place : List Nat) (node : Expr) : Prop :=
  ∃ entry ∈ entries, ∃ inner, place = entry.1 :: inner ∧ entry.2.at? inner = some node

namespace History

variable {stands others all : List Nat → Expr → Prop} {history following : List (List Nat × Expr)}

/-- Nodes at other places, none of them below an earlier one, go on with a history. -/
theorem append (h : History stands history) (hfollowing : History others following)
    (hiff : ∀ place node, all place node ↔ stands place node ∨ others place node)
    (hbelow : ∀ place node other later, stands place node → others other later →
      ¬ place <+: other) : History all (history ++ following) := by
  refine ⟨fun place node ↦ ?_, List.pairwise_append.2 ⟨h.upward, hfollowing.upward, ?_⟩⟩
  · rw [List.mem_append, h.mem_iff, hfollowing.mem_iff, hiff, or_and_right]
  · rintro ⟨place, node⟩ hearlier ⟨other, later⟩ hlater
    exact hbelow place node other later ((h.mem_iff place node).1 hearlier).1
      ((hfollowing.mem_iff other later).1 hlater).1

/-- A history after a change of places that keeps what is below what. -/
theorem map (h : History stands history) {f : List Nat → List Nat}
    (hstands : ∀ place node, stands place node → all (f place) node)
    (hsource : ∀ place node, all place node → node.isBinary = true →
      ∃ inner, place = f inner ∧ stands inner node)
    (hbelow : ∀ place node other later, stands place node → stands other later →
      f place <+: f other → place <+: other) :
    History all (history.map fun entry ↦ (f entry.1, entry.2)) := by
  refine ⟨fun place node ↦ ⟨fun hmem ↦ ?_, fun ⟨hall, hbinary⟩ ↦ ?_⟩, ?_⟩
  · obtain ⟨⟨inner, node⟩, hentry, heq⟩ := List.mem_map.1 hmem
    cases heq
    obtain ⟨hinner, hbinary⟩ := (h.mem_iff inner node).1 hentry
    exact ⟨hstands inner node hinner, hbinary⟩
  · obtain ⟨inner, rfl, hinner⟩ := hsource place node hall hbinary
    exact List.mem_map.2 ⟨(inner, node), (h.mem_iff inner node).2 ⟨hinner, hbinary⟩, rfl⟩
  · refine List.pairwise_map.2
      (h.upward.imp_of_mem fun {earlier later} hearlier hlater hnot hle ↦ ?_)
    exact hnot (hbelow _ _ _ _ ((h.mem_iff _ _).1 hearlier).1 ((h.mem_iff _ _).1 hlater).1 hle)

/-- The history of a single binary node. -/
theorem singleton {place : List Nat} {node : Expr} (hnode : node.isBinary = true) :
    History (fun other later ↦ other = place ∧ later = node) [(place, node)] := by
  refine ⟨fun other later ↦ ?_, List.pairwise_singleton _ _⟩
  rw [List.mem_singleton, Prod.mk.injEq]
  exact ⟨fun ⟨hplace, hlater⟩ ↦ ⟨⟨hplace, hlater⟩, hlater ▸ hnode⟩, And.left⟩

end History

/-! ### Histories of expressions -/

/-- An expression with one operand that is no binary operation has the history of the operand. -/
theorem HistoryOf.unary {e operand : Expr} {history : List (List Nat × Expr)}
    (h : HistoryOf operand history) (hoperands : e.operands = [operand])
    (hbinary : e.isBinary = false) :
    HistoryOf e (history.map fun entry ↦ (0 :: entry.1, entry.2)) := by
  refine History.map h (fun place node hnode ↦ ?_) (fun place node hnode hnodeBinary ↦ ?_)
    fun place _ other _ _ _ hle ↦ (List.cons_prefix_cons.1 hle).2
  · rw [Expr.at?, hoperands]
    exact hnode
  · cases place with
    | nil =>
      cases hnode
      cases hbinary.symm.trans hnodeBinary
    | cons side inner =>
      rw [Expr.at?, hoperands] at hnode
      cases side with
      | zero => exact ⟨inner, rfl, hnode⟩
      | succ side => cases hnode

/-- Negations move the nodes of their operand down and are no nodes that are built. -/
theorem HistoryOf.negate {operand : Expr} {history : List (List Nat × Expr)}
    (h : HistoryOf operand history) (negations : Nat) :
    ∃ negated, HistoryOf (negate negations operand) negated ∧
      negated.map Prod.snd = history.map Prod.snd := by
  induction negations with
  | zero => exact ⟨history, h, rfl⟩
  | succ negations ih =>
    obtain ⟨negated, hnegated, hnodes⟩ := ih
    exact ⟨_, hnegated.unary rfl rfl, by rw [← hnodes, List.map_map]; rfl⟩

/-- What a leaf makes of its contents adds no binary node. -/
theorem HistoryOf.leaf {contents : Expr} {history : List (List Nat × Expr)}
    (h : HistoryOf contents history) (extent : Extent) :
    ∃ whole, HistoryOf (extent.leaf contents) whole ∧
      whole.map Prod.snd = history.map Prod.snd := by
  have hoperand : ∃ inner, HistoryOf (extent.ending.operand contents) inner ∧
      inner.map Prod.snd = history.map Prod.snd := by
    unfold Ending.operand
    split
    · exact ⟨_, h.unary rfl rfl, by rw [List.map_map]; rfl⟩
    · exact ⟨history, h, rfl⟩
  obtain ⟨inner, hinner, hinnerNodes⟩ := hoperand
  obtain ⟨whole, hwhole, hwholeNodes⟩ := hinner.negate extent.negations
  exact ⟨whole, hwhole, hwholeNodes.trans hinnerNodes⟩

/-- An expression without operands has the empty history. -/
theorem historyOf_nil {e : Expr} (hoperands : e.operands = []) : HistoryOf e [] := by
  refine ⟨fun place node ↦ iff_of_false List.not_mem_nil ?_, .nil⟩
  rintro ⟨hnode, hbinary⟩
  cases place with
  | nil =>
    cases hnode
    cases e with
    | binary operator left right => exact absurd hoperands (List.cons_ne_nil _ _)
    | _ => cases hbinary
  | cons side inner =>
    rw [Expr.at?, hoperands] at hnode
    cases hnode

/-! ### Histories of pools -/

/-- A node stands in two pools together if it stands in one of them. -/
theorem standsIn_append {front back : List (Nat × Expr)} {place : List Nat} {node : Expr} :
    StandsIn (front ++ back) place node ↔ StandsIn front place node ∨ StandsIn back place node := by
  simp only [StandsIn, List.mem_append, or_and_right, exists_or]

/-- Where a node stands does not depend on the order of the entries. -/
theorem standsIn_congr {entries others : List (Nat × Expr)} (h : entries.Perm others)
    {place : List Nat} {node : Expr} :
    StandsIn entries place node ↔ StandsIn others place node := by
  simp only [StandsIn, h.mem_iff]

/-- Nothing was built of a pool whose operands have none themselves. -/
theorem history_nil {entries : List (Nat × Expr)} (h : ∀ entry ∈ entries, entry.2.operands = []) :
    History (StandsIn entries) [] := by
  refine ⟨fun place node ↦ iff_of_false List.not_mem_nil ?_, .nil⟩
  rintro ⟨⟨entry, hentry, inner, -, hnode⟩, hbinary⟩
  exact List.not_mem_nil (((historyOf_nil (h entry hentry)).mem_iff inner node).2 ⟨hnode, hbinary⟩)

/-- The history of an operand is that of a pool that it is alone in. -/
theorem HistoryOf.entry {e : Expr} {history : List (List Nat × Expr)} (h : HistoryOf e history)
    (index : Nat) :
    History (StandsIn [(index, e)]) (history.map fun entry ↦ (index :: entry.1, entry.2)) := by
  refine History.map h (fun place node hnode ↦ ⟨_, List.mem_singleton_self _, place, rfl, hnode⟩) ?_
    fun place _ other _ _ _ hle ↦ (List.cons_prefix_cons.1 hle).2
  rintro place node ⟨entry, hentry, inner, rfl, hnode⟩ -
  obtain rfl := List.mem_singleton.1 hentry
  exact ⟨inner, rfl, hnode⟩

/-- The history of a pool with one operand is that of the operand. -/
theorem History.single {index : Nat} {e : Expr} {history : List (List Nat × Expr)}
    (h : History (StandsIn [(index, e)]) history) :
    HistoryOf e (history.map fun entry ↦ (entry.1.tail, entry.2)) := by
  refine History.map h ?_ (fun place node hnode _ ↦
    ⟨index :: place, rfl, _, List.mem_singleton_self _, place, rfl, hnode⟩) ?_
  · rintro place node ⟨entry, hentry, inner, rfl, hnode⟩
    obtain rfl := List.mem_singleton.1 hentry
    exact hnode
  · rintro place node other later ⟨entry, hentry, inner, rfl, -⟩
      ⟨entry', hentry', inner', rfl, -⟩ hle
    obtain rfl := List.mem_singleton.1 hentry
    obtain rfl := List.mem_singleton.1 hentry'
    exact List.cons_prefix_cons.2 ⟨rfl, hle⟩

/-- With one more operand, at an index of its own. -/
theorem History.insert {pool : OperandPool} {history following : List (List Nat × Expr)}
    (h : History (StandsIn pool.entries) history) {index : Nat} {operand : Expr}
    (hoperand : HistoryOf operand following) (hindex : ∀ entry ∈ pool.entries, entry.1 ≠ index) :
    History (StandsIn (pool.insert index operand).entries)
      (following.map (fun entry ↦ (index :: entry.1, entry.2)) ++ history) := by
  refine (hoperand.entry index).append h (fun place node ↦ ?_) ?_
  · have hperm : (pool.insert index operand).entries.Perm ([(index, operand)] ++ pool.entries) :=
      @OperandPool.entries_insert_perm pool (index, operand) hindex
    rw [standsIn_congr hperm, standsIn_append]
  · rintro place node other later ⟨entry, hentry, inner, rfl, -⟩
      ⟨entry', hentry', inner', rfl, -⟩ hle
    obtain rfl := List.mem_singleton.1 hentry
    exact hindex entry' hentry' (List.cons_prefix_cons.1 hle).1.symm

/-- Where the nodes of the operands of an operator move when the operator is built: below its index,
to its left and to its right. -/
def movePlace (left right index : Nat) : List Nat → List Nat
  | [] => []
  | first :: inner =>
      if first = left then index :: 0 :: inner
      else if first = right then index :: 1 :: inner
      else first :: inner

section

variable {left right index first : Nat} {inner : List Nat}

/-- What is below the left operand is to the left of the operator. -/
theorem movePlace_left : movePlace left right index (left :: inner) = index :: 0 :: inner :=
  if_pos rfl

/-- What is below the right operand is to the right of the operator. -/
theorem movePlace_right (h : right ≠ left) :
    movePlace left right index (right :: inner) = index :: 1 :: inner :=
  (if_neg h).trans (if_pos rfl)

/-- What is below another operand stays where it is. -/
theorem movePlace_other (hleft : first ≠ left) (hright : first ≠ right) :
    movePlace left right index (first :: inner) = first :: inner :=
  (if_neg hleft).trans (if_neg hright)

/-- Places that are moved are below each other only if they were before. -/
theorem prefix_of_movePlace {other : Nat} {below : List Nat} (hfirst : first ≠ index)
    (hother : other ≠ index)
    (h : movePlace left right index (first :: inner) <+:
      movePlace left right index (other :: below)) :
    first :: inner <+: other :: below := by
  simp only [movePlace] at h
  split_ifs at h <;> simp_all [List.cons_prefix_cons, eq_comm]

end

section

variable {pool built : OperandPool} {occurrence : Occurrence} {before after : List (Nat × Expr)}
  {left right : Nat × Expr} (hindex : ∀ entry ∈ pool.entries, entry.1 ≠ occurrence.index)
  (hleft : pool.left occurrence.index = before ++ [left])
  (hright : pool.right occurrence.index = right :: after)
  (hentries : built.entries =
    before ++ (occurrence.index, .binary occurrence.operator left.2 right.2) :: after)

include hindex hleft hright

/-- The operands around an operator, and the others, which are not at their indices. -/
theorem entries_of_sides : pool.entries = before ++ left :: right :: after ∧ right.1 ≠ left.1 ∧
    ∀ entry, entry ∈ before ∨ entry ∈ after → entry.1 ≠ left.1 ∧ entry.1 ≠ right.1 := by
  have hpool : pool.entries = before ++ left :: right :: after := by
    rw [OperandPool.entries_eq_left_append_right hindex, hleft, hright, List.append_assoc]
    rfl
  have hincreasing := pool.increasing
  rw [hpool, List.pairwise_append, List.pairwise_cons, List.pairwise_cons] at hincreasing
  obtain ⟨-, ⟨hafterLeft, hafterRight, -⟩, hbefore⟩ := hincreasing
  refine ⟨hpool, (Nat.ne_of_lt (hafterLeft right List.mem_cons_self)).symm, ?_⟩
  rintro entry (hentry | hentry)
  · exact ⟨Nat.ne_of_lt (hbefore entry hentry left (by simp)),
      Nat.ne_of_lt (hbefore entry hentry right (by simp))⟩
  · exact ⟨Nat.ne_of_gt (hafterLeft entry (List.mem_cons_of_mem _ hentry)),
      Nat.ne_of_gt (hafterRight entry hentry)⟩

include hentries

/-- What stands in a pool after an operator is built: what stood there before, at places that are
moved, and the node of the operator. -/
theorem standsIn_build_iff {place : List Nat} {node : Expr} :
    StandsIn built.entries place node ↔
      (∃ inner, place = movePlace left.1 right.1 occurrence.index inner ∧
        StandsIn pool.entries inner node) ∨
      place = [occurrence.index] ∧ node = .binary occurrence.operator left.2 right.2 := by
  obtain ⟨hpool, hne, hothers⟩ := entries_of_sides hindex hleft hright
  constructor
  · rintro ⟨entry, hentry, inner, rfl, hnode⟩
    rw [hentries, List.mem_append, List.mem_cons] at hentry
    have hother (hentry : entry ∈ before ∨ entry ∈ after) :
        ∃ place, entry.1 :: inner = movePlace left.1 right.1 occurrence.index place ∧
          StandsIn pool.entries place node := by
      obtain ⟨hneLeft, hneRight⟩ := hothers entry hentry
      refine ⟨entry.1 :: inner, (movePlace_other hneLeft hneRight).symm, entry, ?_, inner, rfl,
        hnode⟩
      rw [hpool, List.mem_append]
      exact hentry.imp_right fun hafter ↦ by simp [hafter]
    rcases hentry with hbefore | rfl | hafter
    · exact .inl (hother (.inl hbefore))
    · cases inner with
      | nil =>
        cases hnode
        exact .inr ⟨rfl, rfl⟩
      | cons side inner =>
        -- the operands of the operator are the nodes right below it
        rcases side with _ | _ | side
        · exact .inl ⟨left.1 :: inner, movePlace_left.symm, left, by simp [hpool], inner, rfl,
            hnode⟩
        · exact .inl ⟨right.1 :: inner, (movePlace_right hne).symm, right, by simp [hpool], inner,
            rfl, hnode⟩
        · cases hnode
    · exact .inl (hother (.inr hafter))
  · have hresult :
        (occurrence.index, .binary occurrence.operator left.2 right.2) ∈ built.entries := by
      rw [hentries]
      exact List.mem_append_right _ List.mem_cons_self
    rintro (⟨place, rfl, entry, hentry, inner, rfl, hnode⟩ | ⟨rfl, rfl⟩)
    · rw [hpool, List.mem_append, List.mem_cons, List.mem_cons] at hentry
      have hother (hentry : entry ∈ before ∨ entry ∈ after) :
          StandsIn built.entries (movePlace left.1 right.1 occurrence.index (entry.1 :: inner))
            node := by
        obtain ⟨hneLeft, hneRight⟩ := hothers entry hentry
        rw [movePlace_other hneLeft hneRight]
        refine ⟨entry, ?_, inner, rfl, hnode⟩
        rw [hentries, List.mem_append]
        exact hentry.imp_right (List.mem_cons_of_mem _)
      rcases hentry with hbefore | rfl | rfl | hafter
      · exact hother (.inl hbefore)
      · rw [movePlace_left]
        exact ⟨_, hresult, 0 :: inner, rfl, hnode⟩
      · rw [movePlace_right hne]
        exact ⟨_, hresult, 1 :: inner, rfl, hnode⟩
      · exact hother (.inr hafter)
    · exact ⟨_, hresult, [], rfl, rfl⟩

/-- Building an operator moves the history of its operands, and its own node is the last. -/
theorem History.build {history : List (List Nat × Expr)}
    (h : History (StandsIn pool.entries) history) :
    History (StandsIn built.entries)
      (history.map (fun entry ↦ (movePlace left.1 right.1 occurrence.index entry.1, entry.2)) ++
        [([occurrence.index], .binary occurrence.operator left.2 right.2)]) := by
  have hmoved : History (fun place node ↦
      ∃ inner, place = movePlace left.1 right.1 occurrence.index inner ∧
        StandsIn pool.entries inner node)
      (history.map fun entry ↦ (movePlace left.1 right.1 occurrence.index entry.1, entry.2)) := by
    refine h.map (fun place node hstands ↦ ⟨place, rfl, hstands⟩)
      (fun place node hstands _ ↦ hstands) ?_
    rintro place node other later ⟨entry, hentry, inner, rfl, -⟩ ⟨entry', hentry', inner', rfl, -⟩
    exact prefix_of_movePlace (hindex entry hentry) (hindex entry' hentry')
  refine hmoved.append (.singleton rfl) (fun place node ↦ ?_) ?_
  · exact standsIn_build_iff hindex hleft hright hentries
  · rintro place node other later ⟨place, rfl, entry, hentry, inner, rfl, -⟩ ⟨rfl, rfl⟩ hle
    have hne := hindex entry hentry
    simp only [movePlace] at hle
    split_ifs at hle <;> simp_all [List.cons_prefix_cons]

end

/-! ### Recorded histories -/

/-- What an event says was built. -/
def Event.builtNode? : Event → Option Expr
  | built _ result => some result
  | _ => none

/-- The nodes that were built, in the order of the events. -/
def builtNodes (events : List Event) : List Expr := events.filterMap Event.builtNode?

/-- Nodes are built in the order of the events. -/
theorem builtNodes_append (front back : List Event) :
    builtNodes (front ++ back) = builtNodes front ++ builtNodes back := List.filterMap_append

/-- Nothing is built while the text is cut into lexemes. -/
theorem builtNodes_eq_nil {events : List Event} (h : ∀ event ∈ events, event.isLexical = true) :
    builtNodes events = [] := by
  refine List.filterMap_eq_nil_iff.2 fun event hevent ↦ ?_
  cases event with
  | built index result => cases h _ hevent
  | _ => rfl

/-- A recorded tree comes with its history: the nodes that were built. -/
def ReplaysTree (recorded : Recorded Expr) : Prop :=
  ∀ e, recorded.outcome = .ok e →
    ∃ history, HistoryOf e history ∧ history.map Prod.snd = builtNodes recorded.events

/-- An assembly goes on with the history of its pool, and it ends as the history of the tree. -/
theorem exists_history_assemble (regions : Regions) {pool : OperandPool} {order : List Occurrence}
    {history : List (List Nat × Expr)} (h : History (StandsIn pool.entries) history)
    (hindex : ∀ entry ∈ pool.entries, ∀ occurrence ∈ order, entry.1 ≠ occurrence.index)
    (hdistinct : order.Pairwise fun a b ↦ a.index ≠ b.index) {e : Expr}
    (hresult : (assemble regions pool order).outcome = .ok e) :
    ∃ whole, HistoryOf e whole ∧ whole.map Prod.snd =
      history.map Prod.snd ++ builtNodes (assemble regions pool order).events := by
  -- the invariant is the history of the pool, which every operator that is built extends
  induction order generalizing pool history with
  | nil =>
    change pool.single regions = .ok e at hresult
    have hsingle : ∃ index, pool.entries = [(index, e)] := by
      unfold OperandPool.single at hresult
      split at hresult
      · cases hresult
      · rename_i index operand hentries
        cases hresult
        exact ⟨index, hentries⟩
      · cases hresult
    obtain ⟨index, hentries⟩ := hsingle
    rw [hentries] at h
    exact ⟨_, h.single, by rw [List.map_map]; exact (List.append_nil _).symm⟩
  | cons occurrence rest ih =>
    obtain ⟨hfirst, hrest⟩ := List.pairwise_cons.1 hdistinct
    rw [outcome_assemble_cons] at hresult
    cases hbuilt : pool.build? occurrence with
    | none =>
      rw [hbuilt] at hresult
      cases hresult
    | some built =>
      rw [hbuilt] at hresult
      obtain ⟨before, left, right, after, hleft, hright, hentries, hassemble⟩ :=
        assemble_cons_of_build? regions rest hbuilt
      have hstep := History.build (fun entry hentry ↦ hindex entry hentry _ List.mem_cons_self)
        hleft hright hentries h
      -- no later operator has the index that the built node takes, so the places stay apart
      obtain ⟨whole, hwhole, hnodes⟩ := ih hstep (fun entry hentry other hother ↦ by
        rcases OperandPool.mem_of_build? hbuilt hentry with heq | hmem
        · exact heq ▸ hfirst other hother
        · exact hindex entry hmem other (List.mem_cons_of_mem _ hother)) hrest hresult
      refine ⟨whole, hwhole, ?_⟩
      rw [hnodes, hassemble, List.map_append, List.map_map, List.append_assoc]
      rfl

namespace Gathered

/-- No two operators stand at one place, and no leaf stands where an operator does. -/
structure Apart (gathered : Gathered) : Prop where
  operators : gathered.operators.Pairwise fun a b ↦ a.index ≠ b.index
  leaves : ∀ entry ∈ gathered.pool.entries, ∀ occurrence ∈ gathered.operators,
    entry.1 ≠ occurrence.index

variable {gathered : Gathered} {regions : Regions} {start stop : Nat}

/-- Of the events of building only those of the assembly build a node. -/
theorem builtNodes_build : builtNodes (gathered.build regions start stop).events =
    builtNodes (assemble regions gathered.pool (constructionOrder gathered.operators)).events := by
  rw [events_build, events_construct]
  split
  · rename_i hempty
    rw [List.isEmpty_iff.1 hempty]
    rfl
  · rfl

/-- Building goes on with the history of the leaves. -/
theorem Apart.exists_history_build (hapart : gathered.Apart) {history : List (List Nat × Expr)}
    (h : History (StandsIn gathered.pool.entries) history) {e : Expr}
    (hresult : (gathered.build regions start stop).outcome = .ok e) :
    ∃ whole, HistoryOf e whole ∧ whole.map Prod.snd =
      history.map Prod.snd ++ builtNodes (gathered.build regions start stop).events := by
  have horder := constructionOrder_perm gathered.operators
  rw [outcome_build] at hresult
  rw [builtNodes_build]
  exact exists_history_assemble regions h
    (fun entry hentry occurrence hoccurrence ↦
      hapart.leaves entry hentry occurrence (horder.mem_iff.1 hoccurrence))
    (horder.symm.pairwise hapart.operators Ne.symm) hresult

end Gathered

/-! ### Lexemes -/

/-- What follows a leaf comes after its first lexeme. -/
theorem Owns.sublist_tail {item : Placed} {rest after : List Placed} {extent : Extent}
    (h : Owns (item :: rest) extent after) : after.Sublist rest := by
  cases h with
  | value => exact .refl _
  | owned _ _ _ hgroup => exact (sublist_of_splitGroup? hgroup).1.cons _
  | negated _ h => exact h.sublist.1

/-- The value that a leaf ends in has no operands. -/
theorem Owns.operands_value {items rest : List Placed} {extent : Extent}
    (h : Owns items extent rest)
    {operand : Expr} (hending : extent.ending = .value operand) : operand.operands = [] := by
  induction h with
  | @value item found rest hvalue =>
    cases hending
    cases hkind : item.kind <;> rw [hkind] at hvalue <;> cases hvalue <;> rfl
  | owned opener => cases opener <;> cases hending
  | negated _ _ ih => exact ih hending

namespace Source

variable {source : Source} {depth : Nat} {item : Placed} {rest after : List Placed}
  {gathered : Gathered}

/-- The lexemes stand one after the other. -/
def InOrder (items : List Placed) : Prop :=
  items.Pairwise fun first second ↦ first.index < second.index

/-- What is gathered behind a lexeme stands after it. -/
theorem lt_of_hasIndex (hitems : InOrder (item :: rest)) (hafter : after.Sublist rest)
    (h : (source.gather depth after).outcome = .ok gathered) {index : Nat}
    (hindex : gathered.HasIndex index) : item.index < index := by
  obtain ⟨other, hother, rfl⟩ := exists_of_hasIndex h hindex
  exact (List.pairwise_cons.1 hitems).1 other (hafter.subset hother)

/-- The leaves and operators that are gathered stand apart, and the events are the history of the
leaves. -/
structure Replays (source : Source) (depth : Nat) (items : List Placed) (gathered : Gathered) :
    Prop where
  apart : gathered.Apart
  history : ∃ history, History (StandsIn gathered.pool.entries) history ∧
    history.map Prod.snd = builtNodes (source.gather depth items).events

/-- An operator in front of everything gathered stands apart from it. -/
theorem Replays.addOperator (h : Replays source depth rest gathered) {occurrence : Occurrence}
    (hindex : ∀ index, gathered.HasIndex index → occurrence.index < index) :
    (gathered.addOperator occurrence).Apart := by
  refine ⟨List.pairwise_cons.2 ⟨fun other hother ↦ ?_, h.apart.operators⟩,
    fun entry hentry other hother ↦ ?_⟩
  · exact Nat.ne_of_lt (hindex _ (.operator hother))
  · rcases List.mem_cons.1 hother with rfl | hother
    · exact Nat.ne_of_gt (hindex _ (.leaf hentry))
    · exact h.apart.leaves entry hentry other hother

/-- A leaf in front of everything gathered stands apart from the operators. -/
theorem Replays.addLeaf (h : Replays source depth rest gathered) {place : Nat} {leaf : Expr}
    (hindex : ∀ index, gathered.HasIndex index → place < index) :
    (gathered.addLeaf place leaf).Apart := by
  refine ⟨h.apart.operators, fun entry hentry other hother ↦ ?_⟩
  rcases OperandPool.mem_of_mem_insert hentry with rfl | hentry
  · exact Nat.ne_of_lt (hindex _ (.operator hother))
  · exact h.apart.leaves entry hentry other hother

/-- The contents of a leaf are recorded with their history. -/
theorem replaysTree_readContents {ending : Ending}
    (hvalue : ∀ operand, ending = .value operand → operand.operands = [])
    (h : ∀ gathered, (source.gather 0 ending.contents).outcome = .ok gathered →
      Replays source 0 ending.contents gathered) :
    ReplaysTree (source.readContents ending) := by
  intro e hresult
  cases ending with
  | value operand =>
    cases hresult
    exact ⟨[], historyOf_nil (hvalue e rfl), rfl⟩
  | group function opening closing contents =>
    rw [readContents, Recorded.outcome_andThen] at hresult
    obtain ⟨inner, hinner, hbuild⟩ := exists_of_bind_eq_ok hresult
    obtain ⟨history, hhistory, hnodes⟩ := (h inner hinner).history
    obtain ⟨whole, hwhole, hwholeNodes⟩ :=
      (h inner hinner).apart.exists_history_build hhistory hbuild
    refine ⟨whole, hwhole, ?_⟩
    rw [readContents, Recorded.andThen_of_eq_ok hinner, builtNodes_append]
    exact hwholeNodes.trans (congrArg (· ++ _) hnodes)

/-- Lexemes in order are gathered with the history of their leaves: the induction follows the
reading. -/
theorem replays_gather {items : List Placed} (hitems : InOrder items)
    (h : (source.gather depth items).outcome = .ok gathered) :
    Replays source depth items gathered := by
  induction depth, items using reading_induction generalizing gathered with
  | nil depth =>
    rw [gather_nil] at h
    cases h
    have hnone : ∀ entry ∈ Gathered.empty.pool.entries, entry.2.operands = [] :=
      fun _ hentry ↦ absurd hentry List.not_mem_nil
    refine ⟨⟨.nil, fun _ hentry ↦ absurd hentry List.not_mem_nil⟩, [], history_nil hnone, ?_⟩
    rw [gather_nil]
    rfl
  | leaf depth item rest hbegins ih =>
    rw [source.gather_leaf_eq depth hbegins, Recorded.outcome_andThen] at h
    obtain ⟨⟨extent, after⟩, hextent, h⟩ := exists_of_bind_eq_ok h
    rw [Recorded.outcome_andThen] at h
    obtain ⟨contents, hcontents, h⟩ := exists_of_bind_eq_ok h
    obtain ⟨others, hothers, rfl⟩ := exists_of_map_eq_ok h
    obtain ⟨ihcontents, ihafter⟩ := ih extent after hextent
    have howns := owns_of_extentOf hextent
    have hrest := ihafter (hitems.sublist howns.sublist.1) hothers
    have hlater : ∀ index, others.HasIndex index → item.index < index :=
      fun index ↦ lt_of_hasIndex hitems howns.sublist_tail hothers
    obtain ⟨inner, hinner, hinnerNodes⟩ := replaysTree_readContents
      (fun operand ↦ howns.operands_value)
      (fun gathered ↦ ihcontents (hitems.sublist howns.sublist.2)) contents hcontents
    obtain ⟨leaf, hleaf, hleafNodes⟩ := hinner.leaf extent
    obtain ⟨history, hhistory, hnodes⟩ := hrest.history
    refine ⟨hrest.addLeaf hlater, _, hhistory.insert hleaf fun entry hentry ↦
      Nat.ne_of_gt (hlater _ (.leaf hentry)), ?_⟩
    -- the contents of the leaf are recorded before what follows it
    have hevents : (source.gather depth (item :: rest)).events =
        (source.readContents extent.ending).events ++ (source.gather depth after).events := by
      rw [source.gather_leaf_eq depth hbegins, Recorded.andThen_of_eq_ok hextent]
      simp only [Recorded.andThen_of_eq_ok hcontents]
      rfl
    rw [hevents, builtNodes_append, List.map_append, List.map_map]
    exact congrArg₂ (· ++ ·) (hleafNodes.trans hinnerNodes) hnodes
  | operator depth item rest op hitem ih =>
    rw [source.gather_operator depth hitem] at h
    obtain ⟨others, hothers, rfl⟩ := exists_of_map_eq_ok h
    have hrest := ih (List.pairwise_cons.1 hitems).2 hothers
    have hlater : ∀ index, others.HasIndex index → item.index < index :=
      fun index ↦ lt_of_hasIndex hitems (.refl rest) hothers
    exact ⟨hrest.addOperator hlater, source.gather_operator depth hitem ▸ hrest.history⟩
  | openParen depth item rest hitem ih =>
    rw [source.gather_openParen depth hitem] at h
    obtain ⟨hapart, hhistory⟩ := ih (List.pairwise_cons.1 hitems).2 h
    exact ⟨hapart, source.gather_openParen depth hitem ▸ hhistory⟩
  | closeParen depth item rest hitem ih =>
    rw [source.gather_closeParen depth hitem] at h
    obtain ⟨hapart, hhistory⟩ := ih (List.pairwise_cons.1 hitems).2 h
    exact ⟨hapart, source.gather_closeParen depth hitem ▸ hhistory⟩

/-- What is read from all lexemes is recorded with its history. -/
theorem replaysTree_read (source : Source) : ReplaysTree source.read := by
  intro e hresult
  rw [read, Recorded.outcome_andThen] at hresult
  obtain ⟨_, hbalance, hresult⟩ := exists_of_bind_eq_ok hresult
  rw [readRange, Recorded.outcome_andThen] at hresult
  obtain ⟨gathered, hgathered, hbuild⟩ := exists_of_bind_eq_ok hresult
  have hitems : InOrder (((placeFrom 0 source.lexemes).drop 0).take (source.lexemes.length - 0)) :=
    (pairwise_placeFrom 0 source.lexemes).sublist
      ((List.take_sublist _ _).trans (List.drop_sublist _ _))
  obtain ⟨hapart, history, hhistory, hnodes⟩ := replays_gather hitems hgathered
  obtain ⟨whole, hwhole, hwholeNodes⟩ := hapart.exists_history_build hhistory hbuild
  refine ⟨whole, hwhole, ?_⟩
  rw [read, Recorded.andThen_of_eq_ok hbalance, readRange, Recorded.andThen_of_eq_ok hgathered,
    builtNodes_append, builtNodes_append]
  exact hwholeNodes.trans (congrArg (· ++ _) hnodes)

end Source

/-- What the reader of lexemes reads is recorded with its history. -/
theorem replaysTree_readLexemes (mode : Mode) (text : List Char) :
    ReplaysTree (readLexemes mode text) := by
  intro e hresult
  rw [readLexemes, Recorded.outcome_andThen] at hresult
  obtain ⟨lexemes, hlexemes, hread⟩ := exists_of_bind_eq_ok hresult
  obtain ⟨history, hhistory, hnodes⟩ := Source.replaysTree_read _ e hread
  refine ⟨history, hhistory, ?_⟩
  have hlexical : builtNodes (lex mode text).events = [] :=
    builtNodes_eq_nil fun _ ↦ isLexical_of_mem_events
  rw [readLexemes, Recorded.andThen_of_eq_ok hlexemes]
  show _ = builtNodes ((lex mode text).events ++ _)
  rw [builtNodes_append, hlexical, List.nil_append]
  exact hnodes

/-! ### Characters -/

/-- The leaves and operators of a sequence stand apart. -/
theorem apart_of_increasing {elements : List Element} (h : Increasing elements) :
    Gathered.Apart ⟨.ofList (leaves elements), occurrences elements⟩ := by
  refine ⟨h.occurrences.imp Nat.ne_of_lt, fun entry hentry occurrence hoccurrence ↦ ?_⟩
  rw [OperandPool.entries_ofList h.leaves] at hentry
  exact h.index_ne hentry hoccurrence

/-- A leaf of the reader of characters has no operands. -/
theorem operands_of_leavesOfRuns {mode : Mode} {runs : List LeafRun} {found : List (Nat × Expr)}
    (h : leavesOfRuns mode runs = .ok found) : ∀ entry ∈ found, entry.2.operands = [] := by
  intro entry hentry
  have hlabels := List.flatMap_eq_nil_iff.1 (keeps_leavesOfRuns h).2 entry hentry
  cases hoperand : entry.2 with
  | constant | symbol => rfl
  | neg | binary | call =>
    rw [hoperand] at hlabels
    cases hlabels

/-- What is read from characters is recorded with its history, as no leaf has operands. -/
theorem replaysTree_readCharacters (mode : Mode) (text : List Char) :
    ReplaysTree (readCharacters mode text) := by
  intro e hresult
  obtain ⟨elements, hscanned, -⟩ := exists_scanned (Recorded.outcome_eq_ok_iff.1 hresult)
  rw [readCharacters, Recorded.outcome_andThen] at hresult
  obtain ⟨gathered, hgathered, hbuild⟩ := exists_of_bind_eq_ok hresult
  obtain ⟨operators, found, hoperators, hfound, rfl⟩ := exists_of_gatherCharacters hgathered
  obtain rfl : operators = occurrences elements :=
    Except.ok.inj (hoperators.symm.trans hscanned.operators)
  obtain rfl : found = leaves elements := Except.ok.inj (hfound.symm.trans hscanned.leaves)
  have hleaves : ∀ entry ∈ (OperandPool.ofList (leaves elements)).entries, entry.2.operands = [] :=
    fun entry hentry ↦ operands_of_leavesOfRuns hfound entry (OperandPool.mem_of_mem_ofList hentry)
  obtain ⟨whole, hwhole, hnodes⟩ :=
    (apart_of_increasing hscanned.spread.increasing).exists_history_build (history_nil hleaves)
      hbuild
  refine ⟨whole, hwhole, ?_⟩
  rw [readCharacters, Recorded.andThen_of_eq_ok hgathered]
  exact hnodes

/-- Every reader records the history of the tree it reads. -/
theorem Reader.replaysTree_read (reader : Reader) (mode : Mode) (text : List Char) :
    ReplaysTree (reader.read mode text) := by
  cases reader with
  | token => exact replaysTree_readLexemes mode text
  | direct => exact replaysTree_readCharacters mode text

/-! ### Traces -/

/-- An event shows a node: it says that the node was built, and its text has the plain text of the
node. -/
def Event.Shows (node : Expr) (event : Event) : Prop :=
  ∃ index, event = .built index node ∧
    event.text = "built [" ++ toString index ++ "] " ++ node.plain

/-- An event of building shows the node that is built. -/
theorem Event.shows_built (index : Nat) (node : Expr) : (built index node).Shows node := by
  have hfront : "built [" = "built" ++ " [" := by decide +kernel
  have htext : "built" ++ entryText index node.plain =
      "built [" ++ toString index ++ "] " ++ node.plain := by
    simp only [hfront, entryText, String.append_assoc]
  exact ⟨index, rfl, htext⟩

/-- The events that say what was built show the nodes, one each. -/
theorem forall₂_shows {history : List (List Nat × Expr)} {events : List Event}
    (h : history.map Prod.snd = builtNodes events) :
    List.Forall₂ (fun entry event ↦ Event.Shows entry.2 event) history
      (events.filter Event.isBuilt) := by
  induction events generalizing history with
  | nil =>
    obtain rfl := List.map_eq_nil_iff.1 h
    exact .nil
  | cons event rest ih =>
    cases event with
    | lexeme | implicitMultiplication | leaves | operators => exact ih h
    | built index node =>
      obtain ⟨entry, others, rfl, hentry, hothers⟩ := List.map_eq_cons_iff.1 h
      exact .cons (hentry ▸ Event.shows_built index node) (ih hothers)

/-- The event of the operators of a range stands between that of the leaves and what is built of
them: a front part of the order, all of it if every operator finds its operands. Nothing else comes
in between, and nothing at all comes after an assembly that fails. -/
def OperatorsReplayed (recorded : Recorded Expr) (before : List Event) (start stop : Nat)
    (order : List Occurrence) (after : List Event) : Prop :=
  ∃ (regions : Regions) (pool : OperandPool) (earlier : List Event) (done : List Occurrence)
    (built rest : List Event),
    before = earlier ++ [.leaves start stop pool.entries] ∧ after = built ++ rest ∧
      done <+: order ∧ List.Forall₂ Event.Builds done built ∧
      ((pool.buildAll? order).isSome = true ↔ done = order) ∧
      (∀ event ∈ rest.head?, event.isBuilt = false) ∧
      ∀ fault, (assemble regions pool order).outcome = .error fault →
        rest = [] ∧ recorded.outcome = .error fault

/-- The event of the leaves of a range is followed by what is recorded of its construction, and by
nothing else if that fails. -/
def LeavesReplayed (recorded : Recorded Expr) (start stop : Nat) (entries : List (Nat × Expr))
    (after : List Event) : Prop :=
  ∃ (gathered : Gathered) (regions : Regions) (rest : List Event),
    gathered.pool.entries = entries ∧
      after = (gathered.construct regions start stop).events ++ rest ∧
      ∀ fault, (gathered.build regions start stop).outcome = .error fault →
        rest = [] ∧ recorded.outcome = .error fault

/-- The trace of a reading replays the construction. The events that say what was built show the
binary nodes of the tree, one each, and a node after all that are below it. Every range is recorded
without a break, also in a reading that fails. -/
theorem trace_replays_construction (reader : Reader) (mode : Mode) (text : List Char) :
    (∀ tree, (reader.read mode text).outcome = .ok tree →
      ∃ history, HistoryOf tree history ∧
        List.Forall₂ (fun entry event ↦ Event.Shows entry.2 event) history
          ((reader.read mode text).events.filter Event.isBuilt)) ∧
    (∀ before start stop order after,
      (reader.read mode text).events = before ++ .operators start stop order :: after →
        OperatorsReplayed (reader.read mode text) before start stop order after) ∧
    ∀ before start stop entries after,
      (reader.read mode text).events = before ++ .leaves start stop entries :: after →
        LeavesReplayed (reader.read mode text) start stop entries after := by
  obtain ⟨front, runs, hruns⟩ := exists_runs_read reader mode text
  refine ⟨fun tree htree ↦ ?_, fun before start stop order after hevents ↦ ?_,
    fun before start stop entries after ↦ hruns.exists_of_leaves⟩
  · obtain ⟨history, hhistory, hnodes⟩ := reader.replaysTree_read mode text tree htree
    exact ⟨history, hhistory, forall₂_shows hnodes⟩
  · obtain ⟨regions, pool, earlier, rest, hbefore, hafter, hrest, hfailing⟩ :=
      hruns.exists_of_operators hevents
    obtain ⟨done, hdone, hbuilds, hall⟩ := exists_events_assemble regions pool order
    exact ⟨regions, pool, earlier, done, _, rest, hbefore, hafter, hdone, hbuilds, hall, hrest,
      hfailing⟩

/-- The tree of `x + sin(y * z)` is replayed. In `x+*y` the product is built, and the sum then lacks
its right operand. -/
theorem trace_replays_construction_sums :
    let tree := Expr.binary .add (.symbol .x) (.call .sin (.binary .mul (.symbol .y) (.symbol .z)))
    let accepted := Reader.token.read .multiVariable "x + sin(y * z)".toList
    let failing := Reader.direct.read .multiVariable "x+*y".toList
    (accepted.outcome = .ok tree ∧ ∃ history, HistoryOf tree history ∧
      List.Forall₂ (fun entry event ↦ Event.Shows entry.2 event) history
        (accepted.events.filter Event.isBuilt)) ∧
    ∃ order after, OperatorsReplayed failing [.leaves 0 4 [(0, .symbol .x), (3, .symbol .y)]] 0 4
        order after ∧
      LeavesReplayed failing 0 4 [(0, .symbol .x), (3, .symbol .y)]
        (.operators 0 4 order :: after) := by
  intro tree accepted failing
  let lexemes : List Lexeme := (lex .multiVariable "x + sin(y * z)".toList).lexemes
  let layout : Layout := .value 0 (.symbol .x) (.symbol .x) rfl
    (.operator .add (.owned 0 .sine
      (.value 0 (.symbol .y) (.symbol .y) rfl
        (.operator .mul (.value 0 (.symbol .z) (.symbol .z) rfl .nil))) .nil))
  have hkinds : lexemes.map Lexeme.kind = layout.kinds := by decide +kernel
  have hlexemes : (lexRecorded .multiVariable "x + sin(y * z)".toList).outcome = .ok lexemes := by
    have hfault : (lex .multiVariable "x + sin(y * z)".toList).fault = none := by decide +kernel
    rw [lexRecorded, Lexed.toExcept, hfault]
  have hread : (Source.read ⟨lexemes, Text.byteLength "x + sin(y * z)".toList⟩).result? =
      some tree := by
    rw [layout.result?_read hkinds]
    rfl
  have haccepted : accepted.outcome = .ok tree := by
    show (readLexemes .multiVariable "x + sin(y * z)".toList).outcome = _
    rw [readLexemes, Recorded.andThen_of_eq_ok hlexemes]
    exact Recorded.outcome_eq_ok_iff.2 hread
  have hevents : failing.events = [.leaves 0 4 [(0, .symbol .x), (3, .symbol .y)],
    .operators 0 4 [⟨2, .mul, 0, .factor⟩, ⟨1, .add, 0, .term⟩],
    .built 2 (.binary .mul (.symbol .x) (.symbol .y))] := by rfl
  refine ⟨⟨haccepted, (trace_replays_construction .token _ _).1 tree haccepted⟩, _, _,
    (trace_replays_construction .direct _ _).2.1 _ _ _ _ _ hevents,
    (trace_replays_construction .direct _ _).2.2 [] _ _ _ _ hevents⟩

end Formula

end Nabla
