import Nabla.Formula.Reader
import Nabla.Proofs.Formula.Building
import Nabla.Proofs.Formula.LayoutExistence

/-!
# The events of ranges

What a reading records after its lexemes are the assemblies of its ranges, one after the other:
those inside a leaf come before that of the range the leaf stands in (`exists_runs_read`). Each of
them is recorded without a break, and one that fails is the last.
-/

namespace Nabla.Formula

/-- A member of two lists, one after the other, stands in one of them. -/
theorem exists_of_append_eq_append_cons {α : Type} {xs ys before after : List α} {x : α}
    (h : xs ++ ys = before ++ x :: after) :
    (∃ back, xs = before ++ x :: back ∧ after = back ++ ys) ∨
      ∃ front, before = xs ++ front ∧ ys = front ++ x :: after := by
  rcases List.append_eq_append_iff.1 h with hright | ⟨inner, hxs, hinner⟩
  · exact .inr hright
  · rcases List.cons_eq_append_iff.1 hinner with ⟨rfl, hys⟩ | ⟨back, rfl, hafter⟩
    · exact .inr ⟨[], by rw [hxs, List.append_nil, List.append_nil], hys⟩
    · exact .inl ⟨back, hxs, hafter⟩

/-- After a result the events of the second stage follow. -/
theorem Recorded.andThen_of_eq_ok {α β : Type} {first : Recorded α} {next : α → Recorded β}
    {result : α} (h : first.outcome = .ok result) :
    first.andThen next = ⟨first.events ++ (next result).events, (next result).outcome⟩ := by
  rw [andThen, h]

/-- After a fault no event follows. -/
theorem Recorded.andThen_of_eq_error {α β : Type} {first : Recorded α} {next : α → Recorded β}
    {fault : Fault} (h : first.outcome = .error fault) :
    first.andThen next = ⟨first.events, .error fault⟩ := by
  rw [andThen, h]

/-! ### Events of one assembly -/

/-- Whether an event says that an operator was built. -/
def Event.isBuilt : Event → Bool
  | built .. => true
  | _ => false

/-- Whether an event comes from reading lexemes. -/
def Event.isLexical : Event → Bool
  | lexeme .. | implicitMultiplication _ => true
  | _ => false

/-- An event says that an operator was built from some operands. -/
def Event.Builds (occurrence : Occurrence) (event : Event) : Prop :=
  ∃ left right, event = .built occurrence.index (.binary occurrence.operator left right)

/-- One step of an assembly: the nearest operands give way to the result, which is recorded. -/
theorem assemble_cons_of_build? (regions : Regions) {pool built : OperandPool}
    {occurrence : Occurrence} (rest : List Occurrence) (h : pool.build? occurrence = some built) :
    ∃ before left right after, pool.left occurrence.index = before ++ [left] ∧
      pool.right occurrence.index = right :: after ∧
      built.entries =
        before ++ (occurrence.index, .binary occurrence.operator left.2 right.2) :: after ∧
      assemble regions pool (occurrence :: rest) = (assemble regions built rest).noting
        (.built occurrence.index (.binary occurrence.operator left.2 right.2)) := by
  obtain ⟨before, left, right, after, hleft, hright, hentries⟩ :=
    OperandPool.build?_eq_some_iff.1 h
  have hlt : left.1 < occurrence.index := OperandPool.lt_of_mem_left (by rw [hleft]; simp)
  have hrest : (pool.erase left.1).right occurrence.index = right :: after := by
    rw [OperandPool.right_erase_of_lt hlt, hright]
  have hbuilt : built = ((pool.erase left.1).erase right.1).insert occurrence.index
      (.binary occurrence.operator left.2 right.2) := by
    simpa [OperandPool.build?, OperandPool.takeLeft?, OperandPool.takeRight?, hleft, hrest]
      using h.symm
  refine ⟨before, left, right, after, hleft, hright, hentries, ?_⟩
  rw [assemble]
  simp [takeOperands, OperandPool.takeLeft?, OperandPool.takeRight?, hleft, hrest, hbuilt]

/-- An operator without an operand ends an assembly. -/
theorem events_assemble_of_build? (regions : Regions) {pool : OperandPool}
    {occurrence : Occurrence} (rest : List Occurrence) (h : pool.build? occurrence = none) :
    (assemble regions pool (occurrence :: rest)).events = [] := by
  unfold OperandPool.build? at h
  unfold assemble takeOperands
  cases hleft : pool.takeLeft? occurrence.index with
  | none => rfl
  | some left =>
    rw [hleft] at h
    cases hright : left.2.takeRight? occurrence.index with
    | none => simp only [hright]; rfl
    | some right => simp [hright] at h

/-- An assembly records the operators of a front part of the order, and of the whole order if all of
them find operands. -/
theorem exists_events_assemble (regions : Regions) (pool : OperandPool) (order : List Occurrence) :
    ∃ done, done <+: order ∧ List.Forall₂ Event.Builds done (assemble regions pool order).events ∧
      ((pool.buildAll? order).isSome = true ↔ done = order) := by
  induction order generalizing pool with
  | nil => exact ⟨[], List.prefix_refl _, .nil, iff_of_true rfl rfl⟩
  | cons occurrence rest ih =>
    have hstep : pool.buildAll? (occurrence :: rest) =
        (pool.build? occurrence).bind (·.buildAll? rest) := List.foldlM_cons
    cases hbuilt : pool.build? occurrence with
    | none =>
      refine ⟨[], List.nil_prefix, ?_, ?_⟩
      · rw [events_assemble_of_build? regions rest hbuilt]
        exact .nil
      · rw [hstep, hbuilt]
        exact iff_of_false Bool.false_ne_true (List.cons_ne_nil _ _).symm
    | some built =>
      obtain ⟨_, left, right, _, -, -, -, hassemble⟩ :=
        assemble_cons_of_build? regions rest hbuilt
      obtain ⟨done, hdone, hevents, hall⟩ := ih built
      refine ⟨occurrence :: done, List.cons_prefix_cons.2 ⟨rfl, hdone⟩, ?_, ?_⟩
      · rw [hassemble]
        exact .cons ⟨left.2, right.2, rfl⟩ hevents
      · rw [hstep, hbuilt, Option.bind_some, hall]
        simp

/-- The events of an assembly are those of built nodes. -/
theorem isBuilt_of_mem_assemble {regions : Regions} {pool : OperandPool} {order : List Occurrence}
    {event : Event} (h : event ∈ (assemble regions pool order).events) : event.isBuilt = true := by
  obtain ⟨done, -, hevents, -⟩ := exists_events_assemble regions pool order
  generalize (assemble regions pool order).events = events at h hevents
  induction hevents with
  | nil => cases h
  | cons hbuilds _ ih =>
    rcases List.mem_cons.1 h with rfl | h
    · obtain ⟨left, right, rfl⟩ := hbuilds
      rfl
    · exact ih h

/-! ### Events of one range -/

namespace Gathered

variable (gathered : Gathered) (regions : Regions) (start stop : Nat)

/-- Building begins with the event of the leaves. -/
theorem events_build : (gathered.build regions start stop).events =
    .leaves start stop gathered.pool.entries :: (gathered.construct regions start stop).events :=
  rfl

/-- If there are operators, their order is the first event of constructing them. -/
theorem events_construct : (gathered.construct regions start stop).events =
    if gathered.operators.isEmpty then []
    else .operators start stop (constructionOrder gathered.operators) ::
      (assemble regions gathered.pool (constructionOrder gathered.operators)).events := by
  unfold construct
  split <;> rfl

variable {gathered regions start stop} {front back : List Event}

/-- What stands around the operators of a range: its leaves come directly before them, and its
assembly directly after. -/
theorem eq_of_events_build_operators {first last : Nat} {order : List Occurrence}
    (h : (gathered.build regions start stop).events =
      front ++ .operators first last order :: back) :
    order = constructionOrder gathered.operators ∧
      front = [.leaves first last gathered.pool.entries] ∧
      back = (assemble regions gathered.pool order).events := by
  rw [events_build, events_construct] at h
  rcases List.cons_eq_append_iff.1 h with ⟨-, heq⟩ | ⟨inner, hfront, hinner⟩
  · cases heq
  · cases hempty : gathered.operators.isEmpty with
    | true =>
      rw [hempty, if_pos rfl] at hinner
      cases (List.append_eq_nil_iff.1 hinner.symm).2
    | false =>
      rw [hempty, if_neg Bool.false_ne_true] at hinner
      rcases List.cons_eq_append_iff.1 hinner with ⟨rfl, heq⟩ | ⟨others, -, hothers⟩
      · cases heq
        exact ⟨rfl, hfront, rfl⟩
      · have hmem : Event.operators first last order ∈
            (assemble regions gathered.pool (constructionOrder gathered.operators)).events := by
          rw [hothers]
          exact List.mem_append_right _ List.mem_cons_self
        cases isBuilt_of_mem_assemble hmem

/-- The leaves of a range are the first that is recorded of it. -/
theorem eq_of_events_build_leaves {first last : Nat} {entries : List (Nat × Expr)}
    (h : (gathered.build regions start stop).events = front ++ .leaves first last entries :: back) :
    first = start ∧ last = stop ∧ entries = gathered.pool.entries ∧ front = [] ∧
      back = (gathered.construct regions start stop).events := by
  rw [events_build] at h
  rcases List.cons_eq_append_iff.1 h with ⟨hfront, heq⟩ | ⟨inner, -, hinner⟩
  · cases heq
    exact ⟨rfl, rfl, rfl, hfront, rfl⟩
  · have hmem :
        Event.leaves first last entries ∈ (gathered.construct regions start stop).events := by
      rw [hinner]
      exact List.mem_append_right _ List.mem_cons_self
    rw [events_construct] at hmem
    split at hmem
    · cases hmem
    · cases isBuilt_of_mem_assemble ((List.mem_cons.1 hmem).resolve_left nofun)

end Gathered

/-! ### Runs -/

/-- An assembly of a range. -/
structure RangeRun where
  gathered : Gathered
  regions : Regions
  start : Nat
  stop : Nat

/-- What an assembly records, and its outcome. -/
def RangeRun.recorded (run : RangeRun) : Recorded Expr :=
  run.gathered.build run.regions run.start run.stop

/-- The events of assemblies, one after the other. -/
def eventsOfRuns (runs : List RangeRun) : List Event := runs.flatMap (·.recorded.events)

/-- A recorded reading is made of runs: its events are theirs, and a run that fails is the last one
and gives the reading its fault. -/
structure MadeOf {α : Type} (recorded : Recorded α) (runs : List RangeRun) : Prop where
  events : recorded.events = eventsOfRuns runs
  failing : ∀ {earlier run later fault}, runs = earlier ++ run :: later →
    run.recorded.outcome = .error fault → later = [] ∧ recorded.outcome = .error fault

namespace MadeOf

variable {α β : Type} {first : Recorded α} {runs : List RangeRun}

/-- What leaves no event is made of no run. -/
theorem of_events_eq_nil (h : first.events = []) : MadeOf first [] :=
  ⟨h, fun heq _ ↦ absurd heq (by simp)⟩

/-- Building is one run. -/
theorem build (gathered : Gathered) (regions : Regions) (start stop : Nat) :
    MadeOf (gathered.build regions start stop) [⟨gathered, regions, start, stop⟩] := by
  refine ⟨(List.append_nil _).symm, fun heq hfault ↦ ?_⟩
  rcases List.cons_eq_append_iff.1 heq with ⟨-, heq⟩ | ⟨inner, -, heq⟩
  · obtain ⟨rfl, rfl⟩ := List.cons.inj heq
    exact ⟨rfl, hfault⟩
  · cases (List.append_eq_nil_iff.1 heq.symm).2

/-- A changed result is made of the same runs. -/
theorem map (h : MadeOf first runs) (f : α → β) : MadeOf (first.map f) runs := by
  refine ⟨h.events, fun heq hfault ↦ ?_⟩
  obtain ⟨hlater, houtcome⟩ := h.failing heq hfault
  rw [Recorded.outcome_map, houtcome]
  exact ⟨hlater, rfl⟩

/-- Two stages are made of the runs of the first and, if it has a result, those of the second. -/
theorem andThen {next : α → Recorded β} (h : MadeOf first runs)
    (hnext : ∀ result, first.outcome = .ok result → ∃ others, MadeOf (next result) others) :
    ∃ all, MadeOf (first.andThen next) all := by
  cases houtcome : first.outcome with
  | error fault =>
    have heq : first.andThen next = _ := Recorded.andThen_of_eq_error houtcome
    refine ⟨runs, heq ▸ h.events, fun hruns hfault ↦ ?_⟩
    obtain ⟨hlater, hfirst⟩ := h.failing hruns hfault
    cases houtcome.symm.trans hfirst
    exact ⟨hlater, heq ▸ rfl⟩
  | ok result =>
    have heq : first.andThen next = _ := Recorded.andThen_of_eq_ok houtcome
    obtain ⟨others, hothers⟩ := hnext result houtcome
    refine ⟨runs ++ others, ?_, fun {earlier run later fault} hruns hfault ↦ ?_⟩
    · rw [heq, eventsOfRuns, List.flatMap_append]
      exact congrArg₂ _ h.events hothers.events
    · rw [heq]
      rcases exists_of_append_eq_append_cons hruns with ⟨back, hfirst, -⟩ | ⟨front, -, hsecond⟩
      · -- a run of the first stage does not fail, as that stage has a result
        cases houtcome.symm.trans (h.failing hfirst hfault).2
      · exact hothers.failing hsecond hfault

end MadeOf

/-! ### Runs of a reading -/

namespace Source

variable (source : Source) (depth : Nat) {item : Placed} {rest : List Placed}

/-- What a leaf ends in is read, or it is given. -/
def readContents (ending : Ending) : Recorded Expr :=
  match ending with
  | .value operand => .done operand
  | .group _ opening closing contents =>
      (source.gather 0 contents).andThen fun gathered ↦
        gathered.build (source.regions (opening + 1) closing) (opening + 1) closing

/-- Gathering begins with the extent of a leaf, its contents come next, and then the rest. -/
theorem gather_leaf_eq (hbegins : item.kind.beginsLeaf = true) :
    source.gather depth (item :: rest) =
      (Recorded.ofExcept (extentOf item rest)).andThen fun (extent, after) ↦
        (source.readContents extent.ending).andThen fun contents ↦
          (source.gather depth after).map (·.addLeaf item.index (extent.leaf contents)) := by
  rw [gather]
  simp only [hbegins, if_true]
  split
  · rename_i fault hfault
    rw [hfault]
    rfl
  · rename_i extent after hextent
    rw [hextent]
    show _ = (source.readContents extent.ending).andThen _
    split
    · rename_i operand hending
      rw [hending]
      rfl
    · rename_i function opening closing contents hending
      rw [hending]
      rfl

/-- The contents of a leaf are made of runs if they are gathered from runs. -/
theorem exists_runs_readContents {ending : Ending}
    (h : ∃ runs, MadeOf (source.gather 0 ending.contents) runs) :
    ∃ runs, MadeOf (source.readContents ending) runs := by
  cases ending with
  | value operand => exact ⟨[], .of_events_eq_nil rfl⟩
  | group function opening closing contents =>
    obtain ⟨runs, hruns⟩ := h
    exact hruns.andThen fun gathered _ ↦ ⟨_, .build ..⟩

/-- What is gathered is recorded as the runs of the ranges inside its leaves. -/
theorem exists_runs_gather (items : List Placed) :
    ∃ runs, MadeOf (source.gather depth items) runs := by
  induction depth, items using reading_induction with
  | nil depth =>
    rw [gather_nil]
    exact ⟨[], .of_events_eq_nil rfl⟩
  | leaf depth item rest hbegins ih =>
    rw [source.gather_leaf_eq depth hbegins]
    refine (MadeOf.of_events_eq_nil rfl).andThen fun (extent, after) hextent ↦ ?_
    obtain ⟨hinner, hafter⟩ := ih extent after hextent
    obtain ⟨inner, hcontents⟩ := source.exists_runs_readContents hinner
    refine hcontents.andThen fun contents _ ↦ ?_
    obtain ⟨others, hothers⟩ := hafter
    exact ⟨others, hothers.map _⟩
  | operator depth item rest op hitem ih =>
    obtain ⟨runs, hruns⟩ := ih
    rw [source.gather_operator depth hitem]
    exact ⟨runs, hruns.map _⟩
  | openParen depth item rest hitem ih =>
    rw [source.gather_openParen depth hitem]
    exact ih
  | closeParen depth item rest hitem ih =>
    rw [source.gather_closeParen depth hitem]
    exact ih

/-- A reading is made of runs. -/
theorem exists_runs_read : ∃ runs, MadeOf source.read runs := by
  refine (MadeOf.of_events_eq_nil rfl).andThen fun _ _ ↦ ?_
  obtain ⟨runs, hruns⟩ := source.exists_runs_gather 0
    (((placeFrom 0 source.lexemes).drop 0).take (source.lexemes.length - 0))
  exact hruns.andThen fun gathered _ ↦ ⟨_, .build ..⟩

end Source

/-- The events of lexemes are lexical. -/
theorem isLexical_of_mem_events {lexed : Lexed} {event : Event} (h : event ∈ lexed.events) :
    event.isLexical = true := by
  rcases List.mem_append.1 h with h | h
  · obtain ⟨lexeme, -, rfl⟩ := List.mem_map.1 h
    rfl
  · obtain ⟨lexeme, -, rfl⟩ := List.mem_map.1 h
    rfl

/-- A lexical front and runs after it. A run that fails is the last one and gives the reading its
fault. -/
structure Runs (recorded : Recorded Expr) (front : List Event) (runs : List RangeRun) : Prop where
  lexical : ∀ event ∈ front, event.isLexical = true
  events : recorded.events = front ++ eventsOfRuns runs
  failing : ∀ {earlier run later fault}, runs = earlier ++ run :: later →
    run.recorded.outcome = .error fault → later = [] ∧ recorded.outcome = .error fault

/-- After the lexemes, a reading records the runs of its ranges. -/
theorem exists_runs_read (reader : Reader) (mode : Mode) (text : List Char) :
    ∃ front runs, Runs (reader.read mode text) front runs := by
  -- the token reader has its lexemes first, and the character reader assembles once
  cases reader with
  | token =>
    cases houtcome : (lexRecorded mode text).outcome with
    | error fault =>
      have hread : readLexemes mode text = ⟨(lex mode text).events, .error fault⟩ :=
        Recorded.andThen_of_eq_error houtcome
      refine ⟨(lex mode text).events, [], fun _ ↦ isLexical_of_mem_events, ?_,
        fun heq _ ↦ absurd heq (by simp)⟩
      rw [Reader.read, hread]
      exact (List.append_nil _).symm
    | ok lexemes =>
      let source : Source := ⟨lexemes, Text.byteLength text⟩
      have hread : readLexemes mode text =
          ⟨(lex mode text).events ++ source.read.events, source.read.outcome⟩ :=
        Recorded.andThen_of_eq_ok houtcome
      obtain ⟨runs, hruns⟩ := source.exists_runs_read
      refine ⟨(lex mode text).events, runs, fun _ ↦ isLexical_of_mem_events, ?_, ?_⟩
      · rw [Reader.read, hread, hruns.events]
      · rw [Reader.read, hread]
        exact hruns.failing
  | direct =>
    have hruns : ∃ runs, MadeOf (readCharacters mode text) runs :=
      (MadeOf.of_events_eq_nil rfl).andThen fun gathered _ ↦ ⟨_, .build ..⟩
    obtain ⟨runs, hruns⟩ := hruns
    exact ⟨[], runs, fun _ h ↦ absurd h List.not_mem_nil, hruns.events, hruns.failing⟩

/-! ### Where an event stands -/

/-- What stands in the events of runs stands in those of one of them. -/
theorem exists_of_eventsOfRuns_eq_append {runs : List RangeRun} {before after : List Event}
    {event : Event} (h : eventsOfRuns runs = before ++ event :: after) :
    ∃ earlier run later front back, runs = earlier ++ run :: later ∧
      run.recorded.events = front ++ event :: back ∧
      before = eventsOfRuns earlier ++ front ∧ after = back ++ eventsOfRuns later := by
  induction runs generalizing before with
  | nil => cases (List.append_eq_nil_iff.1 h.symm).2
  | cons run rest ih =>
    rcases exists_of_append_eq_append_cons
        (show run.recorded.events ++ eventsOfRuns rest = before ++ event :: after from h) with
      ⟨back, hrun, rfl⟩ | ⟨inner, rfl, hrest⟩
    · exact ⟨[], run, rest, before, back, rfl, hrun, rfl, rfl⟩
    · obtain ⟨earlier, found, later, front, back, rfl, hfound, rfl, rfl⟩ := ih hrest
      exact ⟨run :: earlier, found, later, front, back, rfl, hfound,
        (List.append_assoc _ _ _).symm, rfl⟩

namespace Runs

variable {recorded : Recorded Expr} {lexical before after : List Event} {runs : List RangeRun}
  {event : Event} {start stop : Nat}

/-- An event that is not lexical stands in one of the runs. -/
theorem exists_run (h : Runs recorded lexical runs) (hevent : event.isLexical = false)
    (hevents : recorded.events = before ++ event :: after) :
    ∃ earlier run later front back, runs = earlier ++ run :: later ∧
      run.recorded.events = front ++ event :: back ∧
      before = lexical ++ eventsOfRuns earlier ++ front ∧ after = back ++ eventsOfRuns later := by
  rcases exists_of_append_eq_append_cons (h.events.symm.trans hevents) with
    ⟨back, hlexical, -⟩ | ⟨inner, rfl, hruns⟩
  · have hmem : event ∈ lexical := by
      rw [hlexical]
      exact List.mem_append_right _ List.mem_cons_self
    cases hevent.symm.trans (h.lexical event hmem)
  · obtain ⟨earlier, run, later, front, back, heq, hrun, rfl, hafter⟩ :=
      exists_of_eventsOfRuns_eq_append hruns
    exact ⟨earlier, run, later, front, back, heq, hrun, (List.append_assoc _ _ _).symm, hafter⟩

/-- After a run there is nothing, or the leaves of another one. -/
theorem isBuilt_head?_eventsOfRuns (later : List RangeRun) :
    ∀ event ∈ (eventsOfRuns later).head?, event.isBuilt = false := by
  intro event hevent
  cases later with
  | nil => cases hevent
  | cons run others =>
    cases hevent
    rfl

/-- The operators of a range stand between its leaves and its assembly. -/
theorem exists_of_operators (h : Runs recorded lexical runs) {order : List Occurrence}
    (hevents : recorded.events = before ++ .operators start stop order :: after) :
    ∃ regions pool earlier rest, before = earlier ++ [.leaves start stop pool.entries] ∧
      after = (assemble regions pool order).events ++ rest ∧
      (∀ event ∈ rest.head?, event.isBuilt = false) ∧
      ∀ fault, (assemble regions pool order).outcome = .error fault →
        rest = [] ∧ recorded.outcome = .error fault := by
  obtain ⟨earlier, run, later, front, back, hruns, hrun, rfl, rfl⟩ := h.exists_run rfl hevents
  obtain ⟨rfl, rfl, rfl⟩ := Gathered.eq_of_events_build_operators hrun
  refine ⟨run.regions, run.gathered.pool, _, eventsOfRuns later, rfl, rfl,
    isBuilt_head?_eventsOfRuns later, fun fault hfault ↦ ?_⟩
  rw [← Gathered.outcome_build run.gathered run.regions run.start run.stop] at hfault
  obtain ⟨rfl, houtcome⟩ := h.failing hruns hfault
  exact ⟨rfl, houtcome⟩

/-- The assembly of a range comes directly after its leaves, and one that fails is the last. -/
theorem exists_of_leaves (h : Runs recorded lexical runs) {entries : List (Nat × Expr)}
    (hevents : recorded.events = before ++ .leaves start stop entries :: after) :
    ∃ (gathered : Gathered) (regions : Regions) (rest : List Event),
      gathered.pool.entries = entries ∧
        after = (gathered.construct regions start stop).events ++ rest ∧
        ∀ fault, (gathered.build regions start stop).outcome = .error fault →
          rest = [] ∧ recorded.outcome = .error fault := by
  obtain ⟨earlier, run, later, front, back, hruns, hrun, rfl, rfl⟩ := h.exists_run rfl hevents
  obtain ⟨rfl, rfl, rfl, rfl, rfl⟩ := Gathered.eq_of_events_build_leaves hrun
  refine ⟨run.gathered, run.regions, eventsOfRuns later, rfl, rfl, fun fault hfault ↦ ?_⟩
  obtain ⟨rfl, houtcome⟩ := h.failing hruns hfault
  exact ⟨rfl, houtcome⟩

end Runs

end Nabla.Formula
