/-
# BlockFlow.Proofs.Numbering -- what every numbering of blocks is like

Each round of a walk numbers the first pending block that is not visited yet, so an
invariant of walkers holds after a walk as soon as numbering one fresh block keeps it
(`walk_preserves`).  This module derives from that what all runs rely on:

* no block is numbered twice (`explore_blocks_nodup`), and numbered blocks are blocks of
  the graph (`explore_hasBlock`);
* a numbered block has one scope, which `scopeOf` finds (`scopeOf_of_mem`);
* on a closed graph a walk that starts at a block of the graph meets no stray
  (`explore_stray`).
-/
import BlockFlow.Walker
import Mathlib.Data.List.Nodup

namespace BlockFlow

set_option autoImplicit false

/-- Every handle a walk can come to from a block of the graph is in the graph. -/
structure Topology.Closed (shape : Topology) : Prop where
  successor : ∀ block, shape.hasBlock block → ∀ next ∈ shape.successors block, shape.hasBlock next
  site : ∀ how block, shape.hasBlock block → ∀ node ∈ shape.sites how block, shape.hasNode node
  entry : ∀ how block, shape.hasBlock block → ∀ sub ∈ shape.callees how block,
    shape.hasBlock (shape.entryBlock sub)

/-- Closedness is a matter of the finitely many blocks there are. -/
instance (shape : Topology) : Decidable shape.Closed :=
  decidable_of_iff (∀ i < shape.blockCount, (∀ next ∈ shape.successors ⟨i⟩, shape.hasBlock next) ∧
      ∀ how ∈ [Discovery.cache, .scan], (∀ node ∈ shape.sites how ⟨i⟩, shape.hasNode node) ∧
        ∀ sub ∈ shape.callees how ⟨i⟩, shape.hasBlock (shape.entryBlock sub)) <| by
    have every : ∀ how : Discovery, how ∈ [Discovery.cache, .scan] := by
      intro how
      cases how <;> decide
    constructor
    · intro checked
      constructor
      case successor => exact fun block known => (checked block.index (of_decide_eq_true known)).1
      case site =>
        exact fun how block known =>
          ((checked block.index (of_decide_eq_true known)).2 how (every how)).1
      case entry =>
        exact fun how block known =>
          ((checked block.index (of_decide_eq_true known)).2 how (every how)).2
    · intro closed i bound
      have known : shape.hasBlock ⟨i⟩ := decide_eq_true bound
      exact ⟨closed.successor ⟨i⟩ known, fun how _ =>
        ⟨closed.site how ⟨i⟩ known, closed.entry how ⟨i⟩ known⟩⟩

namespace Walker

/-! ## One round -/

theorem isVisited_of_dropWhile {walker : Walker} {pending rest : List Pending} {visit : Pending}
    (next : pending.dropWhile (fun visit => walker.isVisited visit.block) = visit :: rest) :
    walker.isVisited visit.block = false := by
  have head := List.head?_dropWhile_not (fun visit : Pending => walker.isVisited visit.block) pending
  rw [next] at head
  simpa using head

theorem mem_of_dropWhile {walker : Walker} {pending rest : List Pending} {visit : Pending}
    (next : pending.dropWhile (fun visit => walker.isVisited visit.block) = visit :: rest) :
    ∀ other ∈ visit :: rest, other ∈ pending := by
  intro other member
  rw [← next] at member
  exact (List.dropWhile_suffix _).subset member

theorem not_mem_blocks {walker : Walker} {block : BlockId}
    (fresh : walker.isVisited block = false) : block ∉ walker.blocks := by
  intro member
  obtain ⟨item, found, same⟩ := List.mem_map.mp member
  have seen : walker.numbered.any (·.block = block) = true :=
    List.any_eq_true.mpr ⟨item, found, by simpa using same⟩
  simp [isVisited, seen] at fresh

@[simp] theorem blocks_enter (walker : Walker) (visit : Pending) :
    (walker.enter visit).blocks = walker.blocks := rfl

@[simp] theorem blocks_goAstray (walker : Walker) (visit : Pending) :
    (walker.goAstray visit).blocks = walker.blocks := rfl

@[simp] theorem blocks_number (walker : Walker) (visit : Pending) :
    (walker.number visit).blocks = walker.blocks ++ [visit.block] := by
  simp [blocks, number]

/-! ## Whole walks -/

/-- What each round keeps, the walk keeps. -/
theorem walk_preserves {shape : Topology} (Inv : Walker → Prop)
    (numbering : ∀ walker visit, Inv walker → walker.isVisited visit.block = false →
      shape.hasBlock visit.block → Inv ((walker.enter visit).number visit))
    (straying : ∀ walker visit, Inv walker → Inv ((walker.enter visit).goAstray visit)) :
    ∀ (budget : Nat) (pending : List Pending) (walker : Walker), Inv walker →
      Inv (walk shape budget pending walker).walker := by
  intro budget pending walker
  fun_induction walk shape budget pending walker with
  | case1 => exact id
  | case2 => exact id
  | case3 budget pending walker visit rest next entered known calm ih =>
      exact fun inv => ih (numbering _ _ inv (isVisited_of_dropWhile next) known)
  | case4 budget pending walker visit rest next entered known node stray =>
      exact fun inv => numbering _ _ inv (isVisited_of_dropWhile next) known
  | case5 budget pending walker visit rest next entered unknown =>
      exact fun inv => straying _ _ inv

theorem explore_preserves {shape : Topology} (Inv : Walker → Prop)
    (numbering : ∀ walker visit, Inv walker → walker.isVisited visit.block = false →
      shape.hasBlock visit.block → Inv ((walker.enter visit).number visit))
    (straying : ∀ walker visit, Inv walker → Inv ((walker.enter visit).goAstray visit))
    (walker : Walker) (entry : BlockId) (inv : Inv walker) :
    Inv (walker.explore shape entry).walker :=
  walk_preserves Inv numbering straying _ _ _ inv

theorem explore_discovery (walker : Walker) (shape : Topology) (entry : BlockId) :
    (walker.explore shape entry).walker.discovery = walker.discovery :=
  explore_preserves (fun later => later.discovery = walker.discovery)
    (fun _ _ same _ _ => same) (fun _ _ same => same) walker entry rfl

/-- No block is numbered twice. -/
theorem explore_blocks_nodup {walker : Walker} (shape : Topology) (entry : BlockId)
    (nodup : walker.blocks.Nodup) : (walker.explore shape entry).walker.blocks.Nodup := by
  refine explore_preserves (fun later => later.blocks.Nodup) ?_ ?_ walker entry nodup
  · intro later visit distinct fresh _
    have absent := not_mem_blocks fresh
    simp only [blocks_number, blocks_enter]
    refine List.nodup_append.mpr ⟨distinct, List.nodup_singleton _, ?_⟩
    intro block member other single same
    rw [List.mem_singleton] at single
    exact absent (single ▸ same ▸ member)
  · intro later visit distinct
    simpa using distinct

/-- Numbered blocks are blocks of the graph. -/
theorem explore_hasBlock {walker : Walker} {shape : Topology} (entry : BlockId)
    (known : ∀ block ∈ walker.blocks, shape.hasBlock block) :
    ∀ block ∈ (walker.explore shape entry).walker.blocks, shape.hasBlock block := by
  refine explore_preserves (fun later => ∀ block ∈ later.blocks, shape.hasBlock block)
    ?_ ?_ walker entry known
  · intro later visit known _ here block member
    simp only [blocks_number, blocks_enter, List.mem_append, List.mem_singleton] at member
    rcases member with old | rfl
    · exact known block old
    · exact here
  · intro later visit known
    simpa using known

/-- Once a block is numbered, its scope is the one it was numbered in. -/
theorem scopeOf_of_mem {walker : Walker} (nodup : walker.blocks.Nodup) {item : Numbered}
    (member : item ∈ walker.numbered) : walker.scopeOf item.block = some item.scope := by
  have found : walker.numbered.find? (·.block = item.block) = some item := by
    have unique : ∀ other ∈ walker.numbered, other.block = item.block → other = item :=
      fun other here same => List.inj_on_of_nodup_map nodup here member same
    cases search : walker.numbered.find? (·.block = item.block) with
    | none => simpa using List.find?_eq_none.mp search item member
    | some other =>
        have same : other.block = item.block := by simpa using List.find?_some search
        rw [unique other (List.mem_of_find?_eq_some search) same]
  simp [scopeOf, found]

/-! ## Closed graphs -/

/-- What a numbered block of a closed graph leads to is in the graph. -/
theorem hasBlock_of_mem_onward {walker : Walker} {shape : Topology} (closed : shape.Closed)
    {block scope : BlockId} (known : shape.hasBlock block) :
    ∀ visit ∈ walker.onward shape block scope, shape.hasBlock visit.block := by
  intro visit member
  simp only [onward, List.mem_append, List.mem_map] at member
  rcases member with ⟨sub, called, rfl⟩ | ⟨next, follows, rfl⟩
  · cases found : walker.discovery with
    | none => simp [Topology.calls, found] at called
    | some how => exact closed.entry how block known sub (by simpa [Topology.calls, found] using called)
  · exact closed.successor block known next follows

theorem strayCaller?_of_closed {shape : Topology} (closed : shape.Closed)
    (discovery : Option Discovery) {block : BlockId} (known : shape.hasBlock block) :
    shape.strayCaller? discovery block = none := by
  cases discovery with
  | none => rfl
  | some how =>
      refine List.find?_eq_none.mpr fun node member => ?_
      simp [closed.site how block known node member]

theorem walk_stray {shape : Topology} (closed : shape.Closed) :
    ∀ (budget : Nat) (pending : List Pending) (walker : Walker),
      (∀ visit ∈ pending, shape.hasBlock visit.block) →
      (walk shape budget pending walker).stray = none := by
  intro budget pending walker
  fun_induction walk shape budget pending walker with
  | case1 => exact fun _ => rfl
  | case2 => exact fun _ => rfl
  | case3 budget pending walker visit rest next entered known calm ih =>
      intro inside
      refine ih fun other member => ?_
      rcases List.mem_append.mp member with onward | waiting
      · exact hasBlock_of_mem_onward closed known other onward
      · exact inside other (mem_of_dropWhile next other (List.mem_cons_of_mem _ waiting))
  | case4 budget pending walker visit rest next entered known node stray =>
      rw [strayCaller?_of_closed closed _ known] at stray
      cases stray
  | case5 budget pending walker visit rest next entered unknown =>
      intro inside
      exact absurd (inside visit (mem_of_dropWhile next visit List.mem_cons_self)) unknown

/-- On a closed graph a walk that starts inside stays inside. -/
theorem explore_stray {shape : Topology} (closed : shape.Closed) (walker : Walker) {entry : BlockId}
    (known : shape.hasBlock entry) : (walker.explore shape entry).stray = none :=
  walk_stray closed _ _ _ (by simpa using known)

end Walker

end BlockFlow
