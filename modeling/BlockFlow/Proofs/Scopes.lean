/-
# BlockFlow.Proofs.Scopes -- how scopes begin and how they are filled

`Grown` tells the story of a walker: one block after the other was numbered, and each was either
the entry of a run, which no numbered block called, or it was due (`Due`), as the entry of a
procedure that a numbered block calls or as a successor of a numbered block, whose scope it then
joined.  A run keeps the story going, because all its pending visits are due (`Underway`), and so
does a sequence of runs (`runAll_grown`).

What there is to know about scopes is an induction on that story, in which a due block is either
called or follows:

* a scope begins with the block that names it (`Grown.opened`);
* inside its scope a block can be reached from there (`Grown.path`);
* where a scope begins, a run begins or a procedure has been called before, and not both, and the
  entrances noted are the scopes of the second kind, each once (`Grown.kinds`).
-/
import BlockFlow.Proofs.Stamps

namespace BlockFlow

set_option autoImplicit false

open FlowGraph (topology)

namespace Walker

variable {shape : Topology} {walker last : Walker} {pending : List Pending} {visit : Pending}
  {begun : List BlockId}

/-! ## The story of a walker -/

/-- Why a visit is pending. -/
inductive Due (shape : Topology) (walker : Walker) : Pending → Prop
  /-- A numbered block calls a procedure that begins here. -/
  | call {caller : BlockId} {sub : SubgraphId} (numbered : caller ∈ walker.blocks)
      (called : sub ∈ shape.calls walker.discovery caller) :
      Due shape walker ⟨shape.entryBlock sub, shape.entryBlock sub,
        some ⟨caller, sub, shape.entryBlock sub⟩⟩
  /-- Control passes here from a numbered block of the same scope. -/
  | flow {source scope next : BlockId} (numbered : ⟨source, scope⟩ ∈ walker.numbered)
      (follows : next ∈ shape.successors source) : Due shape walker ⟨next, scope, none⟩

/-- Walkers that have numbered one block after the other, beginning a scope at each block of
`begun` without a call. -/
inductive Grown (shape : Topology) : (begun : List BlockId) → Walker → Prop
  | fresh (mode : Mode) : Grown shape [] (fresh mode)
  | begin {begun : List BlockId} {walker : Walker} {entry : BlockId}
      (grown : Grown shape begun walker) (new : entry ∉ walker.blocks)
      (uncalled : ∀ caller ∈ walker.blocks, ∀ sub ∈ shape.calls walker.discovery caller,
        shape.entryBlock sub ≠ entry) :
      Grown shape (begun ++ [entry]) ((walker.enter ⟨entry, entry, none⟩).number ⟨entry, entry, none⟩)
  | next {begun : List BlockId} {walker : Walker} {visit : Pending}
      (grown : Grown shape begun walker) (new : visit.block ∉ walker.blocks)
      (due : Due shape walker visit) : Grown shape begun ((walker.enter visit).number visit)

theorem numbered_number (walker : Walker) (visit : Pending) :
    ((walker.enter visit).number visit).numbered =
      walker.numbered ++ [⟨visit.block, visit.scope⟩] := rfl

theorem mem_blocks_of_mem {item : Numbered} (member : item ∈ walker.numbered) :
    item.block ∈ walker.blocks :=
  List.mem_map_of_mem member

/-- A visit stays due. -/
theorem Due.number (due : Due shape walker visit) (other : Pending) :
    Due shape ((walker.enter other).number other) visit := by
  cases due with
  | call numbered called =>
      refine .call ?_ called
      rw [blocks_number, blocks_enter]
      exact List.mem_append_left _ numbered
  | flow numbered follows => exact .flow (List.mem_append_left _ numbered) follows

/-- Once a block is numbered, its onward visits are due. -/
theorem due_onward (walker : Walker) (visit : Pending) :
    ∀ other ∈ walker.onward shape visit.block visit.scope,
      Due shape ((walker.enter visit).number visit) other := by
  intro other member
  simp only [onward, List.mem_append, List.mem_map] at member
  rcases member with ⟨sub, called, rfl⟩ | ⟨next, follows, rfl⟩
  · refine .call ?_ called
    rw [blocks_number]
    exact List.mem_append_right _ (List.mem_singleton_self _)
  · exact .flow (List.mem_append_right _ (List.mem_singleton_self _)) follows

/-- A walker in the middle of a run, with the visits that are pending. -/
structure Underway (shape : Topology) (begun : List BlockId) (walker : Walker)
    (pending : List Pending) : Prop where
  sound : walker.Sound shape
  grown : Grown shape begun walker
  due : ∀ visit ∈ pending, Due shape walker visit

namespace Underway

variable {rest : List Pending} {entry : BlockId}

theorem drop (underway : Underway shape begun walker (visit :: rest)) :
    Underway shape begun walker rest where
  sound := underway.sound
  grown := underway.grown
  due other member := underway.due other (List.mem_cons_of_mem _ member)

theorem number (underway : Underway shape begun walker (visit :: rest))
    (fresh : walker.isVisited visit.block = false) (known : shape.hasBlock visit.block = true) :
    Underway shape begun ((walker.enter visit).number visit)
      (walker.onward shape visit.block visit.scope ++ rest) where
  sound := underway.sound.number fresh known
  grown := underway.grown.next (not_mem_blocks fresh) (underway.due visit List.mem_cons_self)
  due other member := by
    rcases List.mem_append.mp member with onward | waiting
    · exact due_onward walker visit other onward
    · exact (underway.drop.due other waiting).number visit

/-- The first round of a run whose entry is not visited.  What is not numbered by then is not called
from what is. -/
theorem begin (sound : walker.Sound shape) (saturated : walker.Saturated shape)
    (grown : Grown shape begun walker) (fresh : walker.isVisited entry = false)
    (known : shape.hasBlock entry = true) :
    Underway shape (begun ++ [entry])
      ((walker.enter ⟨entry, entry, none⟩).number ⟨entry, entry, none⟩)
      (walker.onward shape entry entry ++ []) where
  sound := sound.number fresh known
  grown := by
    have new := not_mem_blocks fresh
    refine grown.begin new ?_
    rintro caller numbered sub called rfl
    exact new (saturated caller numbered _ (Or.inr ⟨sub, called, rfl⟩))
  due := by
    rw [List.append_nil]
    exact due_onward walker ⟨entry, entry, none⟩

end Underway

theorem Finishes.grown (finishes : Finishes shape pending walker last)
    (underway : Underway shape begun walker pending) : Grown shape begun last := by
  induction finishes with
  | done => exact underway.grown
  | skip _ _ ih => exact ih underway.drop
  | number fresh known _ _ ih => exact ih (underway.number fresh known)

/-- A run begins a scope at its entry, unless the entry is numbered already. -/
theorem explore_grown (closed : shape.Closed) (sound : walker.Sound shape)
    (saturated : walker.Saturated shape) (grown : Grown shape begun walker) {entry : BlockId}
    (known : shape.hasBlock entry = true) :
    Grown shape (begun ++ if walker.isVisited entry then [] else [entry])
      (walker.explore shape entry).walker := by
  cases explore_finishes closed sound known with
  | skip seen later =>
      rw [if_pos seen, List.append_nil]
      exact later.grown ⟨sound, grown, by simp⟩
  | number fresh _ _ later =>
      rw [if_neg (by simpa using fresh)]
      exact later.grown (.begin sound saturated grown fresh known)

/-! ## Sequences of runs -/

/-- A run of this sequence begins at `entry`, which is not visited by then. -/
def Begins {G : Type} [FlowGraph G] (walker : Walker) (g : G) (entries : List BlockId)
    (entry : BlockId) : Prop :=
  ∃ earlier later, entries = earlier ++ entry :: later ∧
    (walker.runAll g earlier).1.isVisited entry = false

theorem begins_cons {G : Type} [FlowGraph G] {walker : Walker} {g : G} {first entry : BlockId}
    {later : List BlockId} :
    walker.Begins g (first :: later) entry ↔ first = entry ∧ walker.isVisited entry = false ∨
      (walker.run g first).walk.walker.Begins (walker.run g first).graph later entry := by
  constructor
  · rintro ⟨_ | ⟨head, earlier⟩, rest, split, fresh⟩
    · cases split
      exact .inl ⟨rfl, fresh⟩
    · cases split
      exact .inr ⟨earlier, rest, rfl, fresh⟩
  · rintro (⟨rfl, fresh⟩ | ⟨earlier, rest, rfl, fresh⟩)
    · exact ⟨[], later, rfl, fresh⟩
    · exact ⟨first :: earlier, rest, rfl, fresh⟩

/-- **Runs grow a walker**, and begin scopes where they find their entries unvisited. -/
theorem runAll_grown {G : Type} [FlowGraph G] {walker : Walker} {g : G}
    (closed : (topology g).Closed) (sound : walker.Sound (topology g))
    (saturated : walker.Saturated (topology g)) (grown : Grown (topology g) begun walker)
    {entries : List BlockId} (inside : ∀ entry ∈ entries, (topology g).hasBlock entry = true) :
    ∃ all, Grown (topology g) all (walker.runAll g entries).1 ∧
      ∀ entry, entry ∈ all ↔ entry ∈ begun ∨ walker.Begins g entries entry := by
  induction entries generalizing walker g begun with
  | nil => exact ⟨begun, grown, fun entry => by simp [Begins]⟩
  | cons first later ih =>
      have known := inside first List.mem_cons_self
      have run := run_continues closed sound saturated known
      have shape := run.shape
      have one : Grown (topology (walker.run g first).graph)
          (begun ++ if walker.isVisited first then [] else [first])
          (walker.run g first).walk.walker := by
        rw [shape]
        exact explore_grown closed sound saturated grown known
      obtain ⟨all, grown, mem⟩ := ih (shape ▸ closed) (shape ▸ run.sound) (shape ▸ run.saturated)
        one fun other member => by
          rw [shape]
          exact inside other (List.mem_cons_of_mem _ member)
      rw [shape] at grown
      refine ⟨all, grown, fun entry => ?_⟩
      rw [mem, begins_cons, List.mem_append, or_assoc]
      refine or_congr_right (or_congr_left ?_)
      by_cases same : first = entry
      · subst same
        cases walker.isVisited first <;> simp
      · have other : entry ≠ first := Ne.symm same
        cases walker.isVisited first <;> simp [same, other]

/-! ## Blocks in their scopes -/

/-- What numbering keeps holds of all numbered blocks as soon as it holds of a block that begins
a scope, and of a block that joins one when it holds of the block before. -/
theorem Grown.forall_numbered (grown : Grown shape begun walker) {P : Walker → Numbered → Prop}
    (keeps : ∀ walker visit item, P walker item → P ((walker.enter visit).number visit) item)
    (begins : ∀ walker entry entrance, entry ∉ walker.blocks →
      (∀ item ∈ walker.numbered, P walker item) →
      P ((walker.enter ⟨entry, entry, entrance⟩).number ⟨entry, entry, entrance⟩) ⟨entry, entry⟩)
    (joins : ∀ walker source scope next, ⟨source, scope⟩ ∈ walker.numbered →
      next ∈ shape.successors source → P walker ⟨source, scope⟩ →
      P ((walker.enter ⟨next, scope, none⟩).number ⟨next, scope, none⟩) ⟨next, scope⟩) :
    ∀ item ∈ walker.numbered, P walker item := by
  have step {walker : Walker} {visit : Pending} (all : ∀ item ∈ walker.numbered, P walker item)
      (here : P ((walker.enter visit).number visit) ⟨visit.block, visit.scope⟩) :
      ∀ item ∈ ((walker.enter visit).number visit).numbered,
        P ((walker.enter visit).number visit) item := by
    intro item member
    rw [numbered_number, List.mem_append, List.mem_singleton] at member
    rcases member with old | rfl
    · exact keeps walker visit item (all item old)
    · exact here
  induction grown with
  | fresh mode => exact fun item absent => absurd absent List.not_mem_nil
  | begin _ new _ ih => exact step ih (begins _ _ _ new ih)
  | next _ new due ih =>
      refine step ih ?_
      cases due with
      | call _ _ => exact begins _ _ _ new ih
      | flow numbered follows => exact joins _ _ _ _ numbered follows (ih _ numbered)

/-- The scope begins with the block that names it. -/
def Opened (walker : Walker) (scope : BlockId) : Prop :=
  ∃ before after, walker.numbered = before ++ ⟨scope, scope⟩ :: after ∧
    ∀ item ∈ before, item.scope ≠ scope

theorem Opened.mem {scope : BlockId} (opened : walker.Opened scope) :
    ⟨scope, scope⟩ ∈ walker.numbered := by
  obtain ⟨before, after, split, -⟩ := opened
  rw [split]
  exact List.mem_append_right _ List.mem_cons_self

theorem Opened.number {scope : BlockId} (opened : walker.Opened scope) (visit : Pending) :
    ((walker.enter visit).number visit).Opened scope := by
  obtain ⟨before, after, split, first⟩ := opened
  refine ⟨before, after ++ [⟨visit.block, visit.scope⟩], ?_, first⟩
  rw [numbered_number, split, List.append_assoc, List.cons_append]

theorem Grown.opened (grown : Grown shape begun walker) :
    ∀ item ∈ walker.numbered, walker.Opened item.scope := by
  refine grown.forall_numbered (P := fun walker item => walker.Opened item.scope) ?_ ?_ ?_
  · exact fun walker visit item opened => opened.number visit
  · intro walker entry entrance new opened
    refine ⟨walker.numbered, [], rfl, ?_⟩
    rintro item member rfl
    exact new (mem_blocks_of_mem (opened item member).mem)
  · exact fun walker source scope next _ _ opened => opened.number _

/-- Control passes from one block to another one that is in the scope. -/
def Joins (shape : Topology) (walker : Walker) (scope block next : BlockId) : Prop :=
  next ∈ shape.successors block ∧ ⟨next, scope⟩ ∈ walker.numbered

/-- **Inside a scope control gets to every block of it** from the block it begins with. -/
theorem Grown.path (grown : Grown shape begun walker) : ∀ item ∈ walker.numbered,
    Relation.ReflTransGen (walker.Joins shape item.scope) item.scope item.block := by
  have keeps (walker : Walker) (visit : Pending) (scope block : BlockId)
      (path : Relation.ReflTransGen (walker.Joins shape scope) scope block) :
      Relation.ReflTransGen (((walker.enter visit).number visit).Joins shape scope) scope block :=
    path.lift id fun _ _ joins => ⟨joins.1, List.mem_append_left _ joins.2⟩
  refine grown.forall_numbered (P := fun walker item =>
    Relation.ReflTransGen (walker.Joins shape item.scope) item.scope item.block) ?_ ?_ ?_
  · exact fun walker visit item path => keeps walker visit item.scope item.block path
  · exact fun walker entry entrance _ _ => .refl
  · intro walker source scope next _ follows path
    have new : ⟨next, scope⟩ ∈ ((walker.enter ⟨next, scope, none⟩).number
        ⟨next, scope, none⟩).numbered := List.mem_append_right _ (List.mem_singleton_self _)
    exact (keeps walker _ scope source path).tail ⟨follows, new⟩

/-! ## Two kinds of scopes -/

/-- A numbered block calls a procedure that begins at `scope`. -/
def Called (shape : Topology) (walker : Walker) (scope : BlockId) : Prop :=
  ∃ caller ∈ walker.blocks, ∃ sub ∈ shape.calls walker.discovery caller, shape.entryBlock sub = scope

/-- A block that is numbered before `scope` calls a procedure that begins at `scope`. -/
def CalledBefore (shape : Topology) (walker : Walker) (scope : BlockId) : Prop :=
  ∃ caller, [caller, scope].Sublist walker.blocks ∧
    ∃ sub ∈ shape.calls walker.discovery caller, shape.entryBlock sub = scope

theorem pair_sublist_concat {α : Type} {a b last : α} {items : List α} :
    [a, b].Sublist (items ++ [last]) ↔ [a, b].Sublist items ∨ a ∈ items ∧ b = last := by
  rw [← List.reverse_sublist, List.reverse_concat, List.sublist_cons_iff, ← List.reverse_sublist]
  refine or_congr (by simp) ?_
  constructor
  · rintro ⟨rest, split, within⟩
    cases split
    exact ⟨by simpa using within, rfl⟩
  · rintro ⟨member, rfl⟩
    exact ⟨[a], rfl, by simpa using member⟩

theorem CalledBefore.mem {scope : BlockId} (called : walker.CalledBefore shape scope) :
    scope ∈ walker.blocks := by
  obtain ⟨caller, before, -⟩ := called
  exact before.subset (by simp)

/-- Only of the block that is numbered last can it come out that it has been called. -/
theorem calledBefore_number {scope : BlockId} :
    ((walker.enter visit).number visit).CalledBefore shape scope ↔
      walker.CalledBefore shape scope ∨ scope = visit.block ∧ walker.Called shape scope := by
  simp only [CalledBefore, Called, blocks_number, blocks_enter, pair_sublist_concat]
  constructor
  · rintro ⟨caller, old | ⟨numbered, rfl⟩, called⟩
    · exact .inl ⟨caller, old, called⟩
    · exact .inr ⟨rfl, caller, numbered, called⟩
  · rintro (⟨caller, old, called⟩ | ⟨rfl, caller, numbered, called⟩)
    · exact ⟨caller, .inl old, called⟩
    · exact ⟨caller, .inr ⟨numbered, rfl⟩, called⟩

/-- Scopes by the way they began. -/
structure Kinds (shape : Topology) (begun : List BlockId) (walker : Walker) : Prop where
  begun : ∀ scope, scope ∈ begun ↔
    ⟨scope, scope⟩ ∈ walker.numbered ∧ ¬ walker.CalledBefore shape scope
  entered : ∀ scope, scope ∈ walker.entrances.map (·.entry) ↔
    ⟨scope, scope⟩ ∈ walker.numbered ∧ walker.CalledBefore shape scope
  nodup : (walker.entrances.map (·.entry)).Nodup

namespace Kinds

variable {scope : BlockId}

theorem mem_number_self :
    ⟨scope, scope⟩ ∈ ((walker.enter visit).number visit).numbered ↔
      ⟨scope, scope⟩ ∈ walker.numbered ∨ scope = visit.block ∧ visit.block = visit.scope := by
  rw [numbered_number, List.mem_append, List.mem_singleton, Numbered.mk.injEq]
  refine or_congr_right ⟨?_, ?_⟩
  · rintro ⟨rfl, same⟩
    exact ⟨rfl, same⟩
  · rintro ⟨rfl, same⟩
    exact ⟨rfl, same⟩

/-- A block that begins a scope goes to the scopes of its kind. -/
theorem number (kinds : Kinds shape begun walker) (fresh : visit.block ∉ walker.blocks)
    (runs : List BlockId)
    (run : ∀ scope, scope ∈ runs ↔
      scope = visit.block ∧ visit.block = visit.scope ∧ ¬ walker.Called shape visit.block)
    (call : ∀ scope, visit.entrance.map (·.entry) = some scope ↔
      scope = visit.block ∧ visit.block = visit.scope ∧ walker.Called shape visit.block) :
    Kinds shape (begun ++ runs) ((walker.enter visit).number visit) := by
  have entrances : ((walker.enter visit).number visit).entrances.map (·.entry) =
      walker.entrances.map (·.entry) ++ (visit.entrance.map (·.entry)).toList := by
    show (walker.entrances ++ visit.entrance.toList).map (·.entry) = _
    cases visit.entrance <;> simp
  have unnumbered : ⟨visit.block, visit.block⟩ ∉ walker.numbered :=
    fun member => fresh (mem_blocks_of_mem member)
  have uncalled : ¬ walker.CalledBefore shape visit.block := fun called => fresh called.mem
  constructor
  case begun =>
    intro scope
    rw [List.mem_append, kinds.begun, run]
    rw [mem_number_self, calledBefore_number]
    by_cases same : scope = visit.block
    · subst same
      simp [unnumbered, uncalled]
    · simp [same]
  case entered =>
    intro scope
    rw [entrances, List.mem_append, kinds.entered, Option.mem_toList, call]
    rw [mem_number_self, calledBefore_number]
    by_cases same : scope = visit.block
    · subst same
      simp [unnumbered, uncalled]
    · simp [same]
  case nodup =>
    rw [entrances]
    have single : (visit.entrance.map (·.entry)).toList.Nodup := by
      cases visit.entrance <;> simp
    refine kinds.nodup.append single fun scope old added => ?_
    rw [Option.mem_toList, call] at added
    exact unnumbered (added.1 ▸ ((kinds.entered scope).mp old).1)

end Kinds

/-- **A scope begins with a run or with a call**, and the calls are noted once each. -/
theorem Grown.kinds (grown : Grown shape begun walker) : Kinds shape begun walker := by
  induction grown with
  | fresh mode =>
      constructor
      case begun => simp [Walker.fresh]
      case entered => simp [Walker.fresh]
      case nodup => exact List.nodup_nil
  | @begin begun walker entry grown new uncalled ih =>
      have uncalled : ¬ walker.Called shape entry := by
        rintro ⟨caller, numbered, sub, called, same⟩
        exact uncalled caller numbered sub called same
      exact ih.number new [entry] (by simp [uncalled]) (by simp [uncalled])
  | @next begun walker visit grown new due ih =>
      rw [← List.append_nil begun]
      cases due with
      | @call caller sub numbered called =>
          have called : walker.Called shape (shape.entryBlock sub) :=
            ⟨caller, numbered, sub, called, rfl⟩
          exact ih.number new [] (by simp [called]) (by simp [called, eq_comm])
      | @flow source scope next numbered follows =>
          have apart : next ≠ scope := by
            rintro rfl
            exact new (mem_blocks_of_mem (grown.opened _ numbered).mem)
          exact ih.number new [] (by simp [apart]) (by simp [apart])

end Walker

end BlockFlow
