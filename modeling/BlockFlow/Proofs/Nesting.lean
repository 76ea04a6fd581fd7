/-
# BlockFlow.Proofs.Nesting -- scopes do not cross

Four blocks numbered one after the other never alternate between two scopes.  The reason is in the
pending visits.  Those that follow control edges wait in the scopes of blocks numbered before, and
the scopes numbered so far, followed by the scopes that wait, alternate nowhere (`NonCrossing`).
A round of a walk changes this list in one of three ways:

* the first visit that waits is dropped, and its scope with it;
* its block is numbered, and the successors of the block wait in the same scope, so that the scope
  is repeated in place (`NonCrossing.repeated`);
* a block is numbered that begins a scope of its own, which is then new to the list
  (`NonCrossing.added`).

`runAll_nested` puts this together with what `BlockFlow.Proofs.Scopes` says of each scope.
-/
import BlockFlow.Proofs.Scopes
import Mathlib.Data.Set.Card

namespace BlockFlow

set_option autoImplicit false

open FlowGraph (topology)

/-! ## Lists that do not alternate -/

section Lists

variable {α : Type} {front back : List α} {c : α}

/-- No two different entries alternate twice. -/
def NonCrossing (items : List α) : Prop := ∀ a b, [a, b, a, b].Sublist items → a = b

theorem NonCrossing.sublist {items fewer : List α} (flat : NonCrossing items)
    (sub : fewer.Sublist items) : NonCrossing fewer :=
  fun a b alternates => flat a b (alternates.trans sub)

/-- A list in which neighbours differ does not tell a repeated entry from a single one. -/
theorem sublist_of_repeated {items : List α} (chain : items.IsChain (· ≠ ·))
    (sub : items.Sublist (front ++ c :: c :: back)) : items.Sublist (front ++ c :: back) := by
  induction front generalizing items with
  | nil =>
      obtain within | ⟨rest, rfl, within⟩ := List.sublist_cons_iff.mp sub
      · exact within
      · obtain behind | ⟨others, rfl, -⟩ := List.sublist_cons_iff.mp within
        · exact behind.cons_cons c
        · exact absurd rfl (List.isChain_cons_cons.mp chain).1
  | cons first front ih =>
      obtain within | ⟨rest, rfl, within⟩ := List.sublist_cons_iff.mp sub
      · exact (ih chain within).cons first
      · exact (ih chain.tail within).cons_cons first

/-- Repeating an entry in place makes nothing alternate. -/
theorem NonCrossing.repeated (flat : NonCrossing (front ++ c :: back)) (times : Nat) :
    NonCrossing (front ++ c :: (List.replicate times c ++ back)) := by
  induction times with
  | zero => exact flat
  | succ times ih =>
      intro a b alternates
      by_contra apart
      have chain : [a, b, a, b].IsChain (· ≠ ·) := by
        simp [apart, Ne.symm apart]
      exact apart (ih a b (sublist_of_repeated chain alternates))

/-- An entry that is nowhere else in the list alternates with nothing. -/
theorem NonCrossing.added [DecidableEq α] (flat : NonCrossing (front ++ back)) (before : c ∉ front)
    (behind : c ∉ back) : NonCrossing (front ++ c :: back) := by
  intro a b alternates
  have once : (front ++ c :: back).count c = 1 := by
    simp [List.count_eq_zero.mpr before, List.count_eq_zero.mpr behind]
  by_contra apart
  -- both entries occur twice, so neither is the one added
  have others : a ≠ c ∧ b ≠ c := by
    constructor
    · rintro rfl
      have twice := alternates.count_le a
      simp [once, Ne.symm apart] at twice
    · rintro rfl
      have twice := alternates.count_le b
      simp [once, apart] at twice
  have left : [a, b, a, b].filter (· ≠ c) = [a, b, a, b] := by simp [others]
  have right : (front ++ c :: back).filter (· ≠ c) = front ++ back := by
    have kept (items : List α) (absent : c ∉ items) : items.filter (· ≠ c) = items :=
      List.filter_eq_self.mpr fun x member => decide_eq_true (ne_of_mem_of_not_mem member absent)
    rw [List.filter_append, kept front before, List.filter_cons_of_neg (by simp), kept back behind]
  have kept := alternates.filter (· ≠ c)
  rw [left, right] at kept
  exact apart (flat a b kept)

end Lists

namespace Walker

variable {shape : Topology} {walker last : Walker} {pending : List Pending} {begun : List BlockId}

/-- The scopes of the numbered blocks in order. -/
def scopes (walker : Walker) : List BlockId := walker.numbered.map (·.scope)

/-- The scopes in which pending visits wait that do not begin one. -/
def waiting (pending : List Pending) : List BlockId :=
  (pending.filter (·.entrance.isNone)).map (·.scope)

theorem scopes_number (walker : Walker) (visit : Pending) :
    ((walker.enter visit).number visit).scopes = walker.scopes ++ [visit.scope] :=
  List.map_append

theorem waiting_onward (walker : Walker) (block scope : BlockId) (rest : List Pending) :
    waiting (walker.onward shape block scope ++ rest) =
      List.replicate (shape.successors block).length scope ++ waiting rest := by
  simp [waiting, onward, List.filter_map, Function.comp_def, List.map_const']

/-! ## Rounds -/

/-- Numbering a visit that waits in its scope. -/
theorem nonCrossing_join {visit : Pending} {rest : List Pending}
    (flat : NonCrossing (walker.scopes ++ waiting (visit :: rest))) (follows : visit.entrance = none) :
    NonCrossing (((walker.enter visit).number visit).scopes ++
      waiting (walker.onward shape visit.block visit.scope ++ rest)) := by
  have waits : waiting (visit :: rest) = visit.scope :: waiting rest := by simp [waiting, follows]
  rw [waits] at flat
  rw [scopes_number, waiting_onward, List.append_assoc]
  exact flat.repeated _

/-- Numbering a block that begins a scope. -/
theorem nonCrossing_begin {entry : BlockId} {entrance : Option Entrance} {rest : List Pending}
    (flat : NonCrossing (walker.scopes ++ waiting rest)) (before : entry ∉ walker.scopes)
    (behind : entry ∉ waiting rest) :
    NonCrossing (((walker.enter ⟨entry, entry, entrance⟩).number ⟨entry, entry, entrance⟩).scopes ++
      waiting (walker.onward shape entry entry ++ rest)) := by
  rw [scopes_number, waiting_onward, List.append_assoc]
  exact (flat.added before behind).repeated _

theorem Grown.mem_blocks_of_scopes (grown : Grown shape begun walker) {scope : BlockId}
    (member : scope ∈ walker.scopes) : scope ∈ walker.blocks := by
  obtain ⟨item, numbered, rfl⟩ := List.mem_map.mp member
  exact mem_blocks_of_mem (grown.opened item numbered).mem

/-- Scopes wait only if they have begun. -/
theorem Due.mem_scopes {visit : Pending} (due : Due shape walker visit)
    (follows : visit.entrance = none) : visit.scope ∈ walker.scopes := by
  cases due with
  | call _ _ => cases follows
  | flow numbered _ => exact List.mem_map.mpr ⟨_, numbered, rfl⟩

theorem mem_scopes_of_waiting (due : ∀ visit ∈ pending, Due shape walker visit) {scope : BlockId}
    (waits : scope ∈ waiting pending) : scope ∈ walker.scopes := by
  obtain ⟨visit, member, rfl⟩ := List.mem_map.mp waits
  obtain ⟨pends, follows⟩ := List.mem_filter.mp member
  exact (due visit pends).mem_scopes (Option.isNone_iff_eq_none.mp follows)

/-- **The scopes numbered so far and those that wait stay without alternation**, round by round. -/
theorem Finishes.nonCrossing (finishes : Finishes shape pending walker last)
    (underway : Underway shape begun walker pending)
    (flat : NonCrossing (walker.scopes ++ waiting pending)) : NonCrossing last.scopes := by
  induction finishes with
  | done => simpa [waiting] using flat
  | skip _ _ ih =>
      refine ih underway.drop (flat.sublist ?_)
      exact (List.Sublist.refl _).append (((List.sublist_cons_self _ _).filter _).map _)
  | @number visit rest walker last fresh known _ _ ih =>
      refine ih (underway.number fresh known) ?_
      have new := not_mem_blocks fresh
      cases underway.due visit List.mem_cons_self with
      | flow _ _ => exact nonCrossing_join flat rfl
      | @call caller sub _ _ =>
          have absent : shape.entryBlock sub ∉ walker.scopes :=
            fun member => new (underway.grown.mem_blocks_of_scopes member)
          exact nonCrossing_begin flat absent
            fun waits => absent (mem_scopes_of_waiting underway.drop.due waits)

theorem explore_nonCrossing (closed : shape.Closed) (sound : walker.Sound shape)
    (saturated : walker.Saturated shape) (grown : Grown shape begun walker)
    (flat : NonCrossing walker.scopes) {entry : BlockId} (known : shape.hasBlock entry = true) :
    NonCrossing (walker.explore shape entry).walker.scopes := by
  cases explore_finishes closed sound known with
  | skip _ later => exact later.nonCrossing ⟨sound, grown, by simp⟩ (by simpa [waiting] using flat)
  | number fresh _ _ later =>
      have absent : entry ∉ walker.scopes :=
        fun member => not_mem_blocks fresh (grown.mem_blocks_of_scopes member)
      have start : NonCrossing (((walker.enter ⟨entry, entry, none⟩).number
          ⟨entry, entry, none⟩).scopes ++ waiting (walker.onward shape entry entry ++ [])) :=
        nonCrossing_begin (by simpa [waiting] using flat) absent (by simp [waiting])
      exact later.nonCrossing (.begin sound saturated grown fresh known) start

/-! ## Runs -/

/-- What each run keeps, a sequence of runs keeps. -/
theorem runAll_preserves {G : Type} [FlowGraph G] {walker : Walker} {g : G}
    (closed : (topology g).Closed) {Inv : Walker → Prop}
    (keeps : ∀ walker entry, walker.Sound (topology g) → walker.Saturated (topology g) →
      (topology g).hasBlock entry = true → Inv walker →
      Inv (walker.explore (topology g) entry).walker)
    (sound : walker.Sound (topology g)) (saturated : walker.Saturated (topology g))
    (inv : Inv walker) {entries : List BlockId}
    (inside : ∀ entry ∈ entries, (topology g).hasBlock entry = true) :
    Inv (walker.runAll g entries).1 := by
  induction entries generalizing walker g with
  | nil => exact inv
  | cons first later ih =>
      have known := inside first List.mem_cons_self
      have run := run_continues closed sound saturated known
      have shape := run.shape
      refine ih (shape ▸ closed) (shape ▸ keeps) (shape ▸ run.sound) (shape ▸ run.saturated)
        (keeps walker first sound saturated known inv) fun other member => ?_
      rw [shape]
      exact inside other (List.mem_cons_of_mem _ member)

theorem runAll_nonCrossing {G : Type} [FlowGraph G] (mode : Mode) {g : G}
    (closed : (topology g).Closed) {entries : List BlockId}
    (inside : ∀ entry ∈ entries, (topology g).hasBlock entry = true) :
    NonCrossing ((fresh mode).runAll g entries).1.scopes := by
  have keeps : ∀ walker entry, walker.Sound (topology g) → walker.Saturated (topology g) →
      (topology g).hasBlock entry = true →
      (∃ begun, Grown (topology g) begun walker ∧ NonCrossing walker.scopes) →
      ∃ begun, Grown (topology g) begun (walker.explore (topology g) entry).walker ∧
        NonCrossing (walker.explore (topology g) entry).walker.scopes := by
    rintro walker entry sound saturated known ⟨begun, grown, flat⟩
    exact ⟨_, explore_grown closed sound saturated grown known,
      explore_nonCrossing closed sound saturated grown flat known⟩
  have start : NonCrossing (fresh mode).scopes := by
    intro a b alternates
    cases List.sublist_nil.mp alternates
  obtain ⟨-, -, flat⟩ := runAll_preserves closed keeps (fresh_sound _ mode) (fresh_saturated _ mode)
    ⟨[], .fresh mode, start⟩ inside
  exact flat

/-! ## Scopes as a walker reports them -/

theorem scopeOf_eq_some_iff (nodup : walker.blocks.Nodup) {block scope : BlockId} :
    walker.scopeOf block = some scope ↔ ⟨block, scope⟩ ∈ walker.numbered := by
  constructor
  · intro found
    obtain ⟨item, search, rfl⟩ := Option.map_eq_some_iff.mp found
    have same : item.block = block := by simpa using List.find?_some search
    exact same ▸ List.mem_of_find?_eq_some search
  · exact scopeOf_of_mem nodup

/-- Scopes in their places. -/
structure Nested (shape : Topology) (began : BlockId → Prop) (walker : Walker) : Prop where
  /-- Every numbered block belongs to a scope. -/
  covers : ∀ block ∈ walker.blocks, ∃ scope, walker.scopeOf block = some scope
  /-- A scope is named by its first block, which belongs to it. -/
  first : ∀ block scope, walker.scopeOf block = some scope →
    walker.scopeOf scope = some scope ∧ (block = scope ∨ [scope, block].Sublist walker.blocks)
  /-- Control gets from there to each of its blocks without leaving the scope. -/
  path : ∀ block scope, walker.scopeOf block = some scope →
    Relation.ReflTransGen (fun before next =>
      next ∈ shape.successors before ∧ walker.scopeOf next = some scope) scope block
  /-- Either a run began there, or a procedure that begins there was called before. -/
  origin : ∀ scope, walker.scopeOf scope = some scope →
    (began scope ↔ ¬ walker.CalledBefore shape scope)
  /-- The scopes entered are counted once each. -/
  entered : walker.subgraphsEntered =
    {scope | walker.scopeOf scope = some scope ∧ walker.CalledBefore shape scope}.ncard
  /-- Blocks that are numbered one after the other do not alternate between two scopes. -/
  apart : ∀ a b c d, [a, b, c, d].Sublist walker.blocks →
    walker.scopeOf a = walker.scopeOf c → walker.scopeOf b = walker.scopeOf d →
    walker.scopeOf a = walker.scopeOf b

/-- What is in a scope is its first block or comes after it. -/
theorem Opened.first {block scope : BlockId} (opened : walker.Opened scope)
    (numbered : ⟨block, scope⟩ ∈ walker.numbered) :
    block = scope ∨ [scope, block].Sublist walker.blocks := by
  obtain ⟨before, after, split, first⟩ := opened
  rw [split, List.mem_append, List.mem_cons] at numbered
  rcases numbered with early | same | late
  · exact absurd rfl (first _ early)
  · cases same
    exact .inl rfl
  · have member : block ∈ after.map (·.block) := List.mem_map_of_mem late
    refine .inr ?_
    rw [blocks, split, List.map_append, List.map_cons]
    exact ((List.singleton_sublist.mpr member).cons_cons scope).trans
      (List.sublist_append_right _ _)

theorem Kinds.subgraphsEntered_eq (kinds : Kinds shape begun walker) :
    walker.subgraphsEntered =
      {scope | ⟨scope, scope⟩ ∈ walker.numbered ∧ walker.CalledBefore shape scope}.ncard := by
  have listed : {scope | ⟨scope, scope⟩ ∈ walker.numbered ∧ walker.CalledBefore shape scope} =
      ((walker.entrances.map (·.entry)).toFinset : Set BlockId) := by
    ext scope
    simpa using (kinds.entered scope).symm
  rw [listed, Set.ncard_coe_finset, List.toFinset_card_of_nodup kinds.nodup, List.length_map]
  rfl

theorem Grown.nested (grown : Grown shape begun walker) (nodup : walker.blocks.Nodup)
    (flat : NonCrossing walker.scopes) {began : BlockId → Prop}
    (runs : ∀ scope, scope ∈ begun ↔ began scope) : Nested shape began walker := by
  have found {block scope : BlockId} : walker.scopeOf block = some scope ↔
      ⟨block, scope⟩ ∈ walker.numbered := scopeOf_eq_some_iff nodup
  have kinds := grown.kinds
  constructor
  case covers => exact fun block member => Option.isSome_iff_exists.mp (scopeOf_isSome_iff.mpr member)
  case first =>
    intro block scope belongs
    have numbered := found.mp belongs
    have opened := grown.opened _ numbered
    exact ⟨found.mpr opened.mem, opened.first numbered⟩
  case path =>
    intro block scope belongs
    exact (grown.path _ (found.mp belongs)).lift id fun _ _ joins => ⟨joins.1, found.mpr joins.2⟩
  case origin =>
    intro scope belongs
    rw [← runs, kinds.begun]
    exact and_iff_right (found.mp belongs)
  case entered =>
    simp only [found]
    exact kinds.subgraphsEntered_eq
  case apart =>
    intro a b c d order first second
    obtain ⟨items, sub, parts⟩ := List.sublist_map_iff.mp order
    obtain ⟨i, afterI, rfl, rfl, restI⟩ := List.map_eq_cons_iff.mp parts.symm
    obtain ⟨j, afterJ, rfl, rfl, restJ⟩ := List.map_eq_cons_iff.mp restI
    obtain ⟨k, afterK, rfl, rfl, restK⟩ := List.map_eq_cons_iff.mp restJ
    obtain ⟨l, afterL, rfl, rfl, restL⟩ := List.map_eq_cons_iff.mp restK
    obtain rfl := List.map_eq_nil_iff.mp restL
    have scope (item : Numbered) (member : item ∈ [i, j, k, l]) :
        walker.scopeOf item.block = some item.scope :=
      scopeOf_of_mem nodup (sub.subset member)
    rw [scope i (by simp), scope k (by simp), Option.some.injEq] at first
    rw [scope j (by simp), scope l (by simp), Option.some.injEq] at second
    have alternates : [i.scope, j.scope, k.scope, l.scope].Sublist walker.scopes := sub.map _
    rw [← first, ← second] at alternates
    rw [scope i (by simp), scope j (by simp), flat _ _ alternates]

/-- **Scopes nest.**  After runs from any entries each scope begins with the block that names it and
is connected from there; a run began it or a procedure call, and the calls are counted; and no two
scopes cross.  Without calls to follow none are counted. -/
theorem runAll_nested {G : Type} [FlowGraph G] (mode : Mode) (g : G)
    (closed : (topology g).Closed) (entries : List BlockId)
    (inside : ∀ entry ∈ entries, (topology g).hasBlock entry = true) :
    let walker := ((fresh mode).runAll g entries).1
    Nested (topology g) ((fresh mode).Begins g entries) walker ∧
      walker.discovery = mode.discovery ∧
      (mode.interprocedural = false → walker.subgraphsEntered = 0) := by
  intro walker
  obtain ⟨begun, grown, runs⟩ := runAll_grown closed (fresh_sound _ mode) (fresh_saturated _ mode)
    (.fresh mode) inside
  have continues := runAll_fresh closed mode inside
  have nested : Nested (topology g) ((fresh mode).Begins g entries) walker :=
    grown.nested continues.sound.nodup (runAll_nonCrossing mode closed inside)
      fun scope => by simpa using runs scope
  have discovery : walker.discovery = mode.discovery := continues.discovery
  refine ⟨nested, discovery, fun within => ?_⟩
  have none : walker.discovery = none := by simp [discovery, Mode.discovery, within]
  have uncalled : {scope | walker.scopeOf scope = some scope ∧
      walker.CalledBefore (topology g) scope} = ∅ := by
    refine Set.eq_empty_of_forall_notMem ?_
    rintro scope ⟨-, caller, -, sub, called, -⟩
    rw [none] at called
    exact absurd called List.not_mem_nil
  rw [nested.entered, uncalled, Set.ncard_empty]

/-- The shared procedure is one scope inside that of block 0, though three blocks call it; a run that
does not follow calls leaves it out. -/
theorem sharedProcedure_nested :
    let walker := ((fresh .across).runAll sharedProcedure [⟨0⟩, ⟨4⟩]).1
    (topology sharedProcedure).Closed ∧
      (∀ entry ∈ [(⟨0⟩ : BlockId), ⟨4⟩], (topology sharedProcedure).hasBlock entry = true) ∧
      Nested (topology sharedProcedure) ((fresh .across).Begins sharedProcedure [⟨0⟩, ⟨4⟩]) walker ∧
      walker.blocks = [⟨0⟩, ⟨2⟩, ⟨3⟩, ⟨1⟩, ⟨4⟩] ∧ walker.scopes = [⟨0⟩, ⟨2⟩, ⟨2⟩, ⟨0⟩, ⟨4⟩] ∧
      walker.subgraphsEntered = 1 ∧
      ((fresh .within).runAll sharedProcedure [⟨0⟩, ⟨4⟩]).1.subgraphsEntered = 0 := by
  have closed : (topology sharedProcedure).Closed := by decide +kernel
  have inside : ∀ entry ∈ [(⟨0⟩ : BlockId), ⟨4⟩],
      (topology sharedProcedure).hasBlock entry = true := by decide
  obtain ⟨nested, -, -⟩ := runAll_nested .across sharedProcedure closed [⟨0⟩, ⟨4⟩] inside
  obtain ⟨-, -, within⟩ := runAll_nested .within sharedProcedure closed [⟨0⟩, ⟨4⟩] inside
  exact ⟨closed, inside, nested, by decide +kernel, by decide +kernel, by decide +kernel, within rfl⟩

end Walker

end BlockFlow
