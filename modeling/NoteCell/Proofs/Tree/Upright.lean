import NoteCell.Proofs.Tree.Completed

/-!
Upright places. A place is upright if it does not stop before it starts. A node in which no start is
left takes one from the node around it, and this may lie behind a stop that is left in it; so it is with
the stops. Completing locations turns places upside down where this happens, and nowhere else.
-/
namespace NoteCell

/-! ### Ends of places -/

inductive End where
  | start | stop
deriving DecidableEq

theorem leastOf_eq (ks : List Nat) : leastOf ks = ks.min? := by
  cases ks <;> rfl

theorem greatestOf_eq (ks : List Nat) : greatestOf ks = ks.max? := by
  cases ks <;> rfl

namespace End

def other : End → End
  | start => stop
  | stop => start

-- Whether an offset is on the inner side of an end.
def Admits : End → Nat → Nat → Prop
  | start, k, j => k ≤ j
  | stop, k, j => j ≤ k

instance (side : End) (k j : Nat) : Decidable (side.Admits k j) :=
  match side with
  | start => inferInstanceAs (Decidable (k ≤ j))
  | stop => inferInstanceAs (Decidable (j ≤ k))

def outermost : End → List Nat → Option Nat
  | start => leastOf
  | stop => greatestOf

variable {side : End} {ks : List Nat} {k j : Nat}

theorem mem_of_outermost (h : side.outermost ks = some k) : k ∈ ks := by
  cases side with
  | start => exact List.min?_mem (leastOf_eq ks ▸ h)
  | stop => exact List.max?_mem (greatestOf_eq ks ▸ h)

theorem admits_outermost (h : side.outermost ks = some k) (hj : j ∈ ks) : side.Admits k j := by
  cases side with
  | start => exact (List.min?_eq_some_iff.mp (leastOf_eq ks ▸ h)).2 j hj
  | stop => exact (List.max?_eq_some_iff.mp (greatestOf_eq ks ▸ h)).2 j hj

theorem outermost_eq_none : side.outermost ks = none ↔ ks = [] := by
  cases side <;> cases ks <;> simp [outermost, leastOf, greatestOf]

end End

namespace Location

def known : End → Location → Option Nat
  | .start, l => l.start
  | .stop, l => l.stop

-- It does not stop before it starts, as far as both ends are known.
def Upright (l : Location) : Prop := ∀ start ∈ l.start, ∀ stop ∈ l.stop, start ≤ stop

instance (l : Location) : Decidable l.Upright :=
  inferInstanceAs (Decidable (∀ start ∈ l.start, ∀ stop ∈ l.stop, start ≤ stop))

variable {l m : Location} {side : End} {k j : Nat}

theorem known_orElse (l m : Location) (side : End) :
    (l.orElse m).known side = (l.known side).or (m.known side) := by
  cases side <;> rfl

theorem known_hull (ls : List Location) (side : End) :
    (hull ls).known side = side.outermost (ls.filterMap (known side)) := by
  cases side <;> rfl

theorem Upright.admits (h : l.Upright) (hk : l.known side = some k) (hj : l.known side.other = some j) :
    side.Admits k j := by
  cases side with
  | start => exact h k hk j hj
  | stop => exact h j hj k hk

end Location

/-! ### What is left of a node -/

namespace Node

-- The ends that are known of a node and of those below it.
def known (side : End) (n : Node) : List Nat := n.nodes.filterMap (·.info.location.known side)

variable {n : Node} {side : End} {k : Nat}

theorem mem_known : k ∈ n.known side ↔ ∃ m ∈ n.nodes, m.info.location.known side = some k :=
  List.mem_filterMap

theorem known_eq (side : End) (n : Node) :
    n.known side = (n.info.location.known side).toList ++ n.children.flatMap (known side) := by
  rw [known, nodes_eq, List.filterMap_cons, List.filterMap_flatMap]
  cases n.info.location.known side <;> rfl

theorem known_eq_nil : n.known side = []
    ↔ n.info.location.known side = none ∧ ∀ c ∈ n.children, c.known side = [] := by
  rw [known_eq, List.append_eq_nil_iff, List.flatMap_eq_nil_iff, Option.toList_eq_nil_iff]

theorem mem_known_of_mem_children {c : Node} (hc : c ∈ n.children) (hk : k ∈ c.known side) :
    k ∈ n.known side := by
  rw [known_eq]
  exact List.mem_append_right _ (List.mem_flatMap.mpr ⟨c, hc, hk⟩)

theorem known_covered (side : End) (n : Node) : n.covered.known side
    = (n.info.location.known side).or (side.outermost (n.children.filterMap (·.covered.known side))) := by
  rw [covered_eq, Location.known_orElse, Location.known_hull, List.filterMap_map]
  rfl

theorem mem_known_of_covered (h : n.covered.known side = some k) : k ∈ n.known side := by
  induction n using childrenInduction
  case h n ih =>
    rw [known_covered] at h
    rw [known_eq]
    obtain h | ⟨-, h⟩ := Option.or_eq_some_iff.mp h
    · exact List.mem_append_left _ (Option.mem_toList.mpr h)
    · obtain ⟨c, hc, hk⟩ := List.mem_filterMap.mp (End.mem_of_outermost h)
      exact List.mem_append_right _ (List.mem_flatMap.mpr ⟨c, hc, ih c hc hk⟩)

theorem covered_eq_none : n.covered.known side = none ↔ n.known side = [] := by
  induction n using childrenInduction
  case h n ih =>
    rw [known_covered, Option.or_eq_none_iff, End.outermost_eq_none, List.filterMap_eq_nil_iff,
      known_eq_nil]
    exact and_congr_right fun _ => forall₂_congr ih

end Node

/-! ### What is taken from around a node -/

-- An end that a node has to take from the place around it leaves out another end that is left in it.
def Location.Misplaces (around : Location) (n : Node) : Prop :=
  ∃ side, n.known side = []
    ∧ ∃ k ∈ around.known side, ∃ j ∈ n.known side.other, ¬ side.Admits k j

namespace Node

variable {n : Node} {around : Location} {side : End} {k j : Nat}

-- An end of its own that a node still knows is on the right side of what is left in it. A stop matters
-- only if the start is lost.
structure Encloses (n : Node) : Prop where
  start : ∀ start ∈ n.info.location.start, ∀ stop ∈ n.known .stop, start ≤ stop
  stop : n.info.location.start = none →
    ∀ stop ∈ n.info.location.stop, ∀ start ∈ n.known .start, start ≤ stop

theorem mem_nodes_of_mem_children {c m : Node} (hc : c ∈ n.children) (hm : m ∈ c.nodes) : m ∈ n.nodes := by
  rw [nodes_eq]
  exact List.mem_cons_of_mem _ (List.mem_flatMap.mpr ⟨c, hc, hm⟩)

-- What a node covers is upright unless something in it is out of place.
theorem upright_covered (hencloses : ∀ m ∈ n.nodes, m.Encloses)
    (hplaced : ∀ p ∈ n.nodes, ∀ q ∈ p.children, ¬ p.covered.Misplaces q) : n.covered.Upright := by
  induction n using childrenInduction
  case h n ih =>
    intro start hstart stop hstop
    have hself := hencloses n n.mem_nodes_self
    have hstarts : start ∈ n.known .start := mem_known_of_covered hstart
    have hstops : stop ∈ n.known .stop := mem_known_of_covered hstop
    have hcovered := known_covered .start n
    have hcovered' := known_covered .stop n
    cases hown : n.info.location.start with
    | some own =>
      have heq : some own = some start := by
        rw [Location.known, Location.known, hown, Option.some_or] at hcovered
        exact hcovered.symm.trans hstart
      exact Option.some.inj heq ▸ hself.start own hown stop hstops
    | none =>
      cases hown' : n.info.location.stop with
      | some own =>
        have heq : some own = some stop := by
          rw [Location.known, Location.known, hown', Option.some_or] at hcovered'
          exact hcovered'.symm.trans hstop
        exact Option.some.inj heq ▸ hself.stop hown own hown' start hstarts
      | none =>
        -- Both ends are those of children. The one that stops last also starts, or is out of place.
        rw [Location.known, Location.known, hown, Option.none_or] at hcovered
        rw [Location.known, Location.known, hown', Option.none_or] at hcovered'
        obtain ⟨c, hc, hcstop⟩ := List.mem_filterMap.mp
          (End.mem_of_outermost (hcovered'.symm.trans hstop))
        cases hcstart : c.covered.start with
        | some cstart =>
          have hupright := ih c hc (fun m hm => hencloses m (mem_nodes_of_mem_children hc hm))
            fun p hp => hplaced p (mem_nodes_of_mem_children hc hp)
          calc start ≤ cstart := @End.admits_outermost .start _ _ _ (hcovered.symm.trans hstart)
                (List.mem_filterMap.mpr ⟨c, hc, hcstart⟩)
            _ ≤ stop := hupright cstart hcstart stop hcstop
        | none =>
          by_contra hlt
          exact hplaced n n.mem_nodes_self c hc ⟨.start, covered_eq_none.mp hcstart, start, hstart,
            stop, mem_known_of_covered hcstop, hlt⟩

-- What a node takes from around it is no more out of place in its children than in itself.
theorem not_misplaces_own {c : Node} (hc : c ∈ n.children) (haround : ¬ around.Misplaces n)
    (hcovered : ¬ n.covered.Misplaces c) : ¬ (n.covered.orElse around).Misplaces c := by
  rintro ⟨side, hnone, k, hk, j, hj, hlt⟩
  rw [Option.mem_def, Location.known_orElse] at hk
  obtain hk | ⟨hno, hk⟩ := Option.or_eq_some_iff.mp hk
  · exact hcovered ⟨side, hnone, k, hk, j, hj, hlt⟩
  · exact haround ⟨side, covered_eq_none.mp hno, k, hk, j, mem_known_of_mem_children hc hj, hlt⟩

theorem upright_repair (hencloses : ∀ m ∈ n.nodes, m.Encloses)
    (hplaced : ∀ p ∈ n.nodes, ∀ q ∈ p.children, ¬ p.covered.Misplaces q)
    (haround : around.Upright) (hmisplaces : ¬ around.Misplaces n) :
    ∀ m ∈ (n.repair around).nodes, m.info.location.Upright := by
  induction n using childrenInduction generalizing around
  case h n ih =>
    have hcovered := upright_covered hencloses hplaced
    have hown : (n.covered.orElse around).Upright := by
      -- The ends come from the children or from around, and if one of each does, it is not misplaced.
      have hmixed (side : End) {k j : Nat} (hno : n.covered.known side = none)
          (hk : around.known side = some k) (hj : n.covered.known side.other = some j) :
          side.Admits k j := by
        by_contra hlt
        exact hmisplaces ⟨side, covered_eq_none.mp hno, k, hk, j, mem_known_of_covered hj, hlt⟩
      intro start hstart stop hstop
      obtain hstart | ⟨hno, hstart⟩ := Option.or_eq_some_iff.mp hstart
      · obtain hstop | ⟨hno', hstop⟩ := Option.or_eq_some_iff.mp hstop
        · exact hcovered start hstart stop hstop
        · exact hmixed .stop hno' hstop hstart
      · obtain hstop | ⟨hno', hstop⟩ := Option.or_eq_some_iff.mp hstop
        · exact hmixed .start hno hstart hstop
        · exact haround start hstart stop hstop
    rw [nodes_eq, children_repair, List.flatMap_map]
    refine List.forall_mem_cons.mpr ⟨by rw [info_repair]; exact hown, fun m hm => ?_⟩
    obtain ⟨c, hc, hm⟩ := List.mem_flatMap.mp hm
    exact ih c hc (fun m hm => hencloses m (mem_nodes_of_mem_children hc hm))
      (fun p hp => hplaced p (mem_nodes_of_mem_children hc hp)) hown
      (not_misplaces_own hc hmisplaces (hplaced n n.mem_nodes_self c hc)) m hm

-- Where no end of one kind is left, all get the one that is around.
theorem exists_repair_known (hnone : n.known side = []) (hk : around.known side = some k)
    (hj : j ∈ n.known side.other) : ∃ m ∈ (n.repair around).nodes,
      m.info.location.known side = some k ∧ m.info.location.known side.other = some j := by
  induction n using childrenInduction generalizing around
  case h n ih =>
    have hown : (n.covered.orElse around).known side = some k := by
      rw [Location.known_orElse, covered_eq_none.mpr hnone, Option.none_or, hk]
    rw [known_eq] at hj
    obtain hj | hj := List.mem_append.mp hj
    · refine ⟨n.repair around, mem_nodes_self _, ?_⟩
      have hother : (n.covered.orElse around).known side.other = some j := by
        rw [Location.known_orElse, known_covered, Option.mem_toList.mp hj, Option.some_or, Option.some_or]
      rw [info_repair]
      exact ⟨hown, hother⟩
    · obtain ⟨c, hc, hj⟩ := List.mem_flatMap.mp hj
      obtain ⟨m, hm, hm'⟩ := ih c hc ((known_eq_nil.mp hnone).2 c hc) hown hj
      have hchild : c.repair (n.covered.orElse around) ∈ (n.repair around).children := by
        rw [children_repair]
        exact List.mem_map_of_mem hc
      exact ⟨m, mem_nodes_of_mem_children hchild hm, hm'⟩

theorem not_misplaces_of_upright (h : ∀ m ∈ (n.repair around).nodes, m.info.location.Upright) :
    ¬ around.Misplaces n := by
  rintro ⟨side, hnone, k, hk, j, hj, hlt⟩
  obtain ⟨m, hm, hmk, hmj⟩ := exists_repair_known hnone hk hj
  exact hlt ((h m hm).admits hmk hmj)

-- Completing a tree completes the tree below each of its nodes.
theorem exists_repair_subset {p : Node} (hp : p ∈ n.nodes) (around : Location) :
    ∃ own, (p.repair own).nodes ⊆ (n.repair around).nodes := by
  induction n using childrenInduction generalizing around
  case h n ih =>
    rw [nodes_eq] at hp
    obtain rfl | hp := List.mem_cons.mp hp
    · exact ⟨around, List.Subset.refl _⟩
    · obtain ⟨c, hc, hp⟩ := List.mem_flatMap.mp hp
      obtain ⟨own, hown⟩ := ih c hc hp (n.covered.orElse around)
      have hchild : c.repair (n.covered.orElse around) ∈ (n.repair around).children := by
        rw [children_repair]
        exact List.mem_map_of_mem hc
      exact ⟨own, fun m hm => mem_nodes_of_mem_children hchild (hown hm)⟩

theorem not_misplaces_covered (h : ∀ m ∈ (n.repair around).nodes, m.info.location.Upright) :
    ∀ p ∈ n.nodes, ∀ q ∈ p.children, ¬ p.covered.Misplaces q := by
  intro p hp q hq
  obtain ⟨own, hown⟩ := exists_repair_subset hp around
  have hchild : q.repair (p.covered.orElse own) ∈ (p.repair own).children := by
    rw [children_repair]
    exact List.mem_map_of_mem hq
  have hplaced : ¬ (p.covered.orElse own).Misplaces q := not_misplaces_of_upright
    fun m hm => h m (hown (mem_nodes_of_mem_children hchild hm))
  rintro ⟨side, hnone, k, hk, rest⟩
  refine hplaced ⟨side, hnone, k, ?_, rest⟩
  rw [Option.mem_def, Location.known_orElse, Option.mem_def.mp hk, Option.some_or]

end Node

/-! ### Cells -/

namespace Cell

variable {c : Cell}

-- No node takes an end from around it that leaves out another end left in it. Around a statement of
-- the body is the empty place at the start.
structure Placed (c : Cell) : Prop where
  body : ∀ s ∈ c.body, ¬ (Location.between 0 0).Misplaces (.stmt s)
  below : ∀ p ∈ c.nodes, ∀ q ∈ p.children, ¬ p.covered.Misplaces q

theorem mem_nodes_of_mem_body {s : Stmt} {n : Node} (hs : s ∈ c.body) (hn : n ∈ (Node.stmt s).nodes) :
    n ∈ c.nodes :=
  List.mem_flatMap.mpr ⟨s, hs, hn⟩

theorem upright_repair_iff (h : ∀ n ∈ c.nodes, n.Encloses) :
    (∀ n ∈ c.repair.nodes, n.info.location.Upright) ↔ c.Placed := by
  have hzero : (Location.between 0 0).Upright := by
    rintro _ ⟨⟩ _ ⟨⟩
    exact Nat.le_refl 0
  constructor
  · intro hupright
    have hbody (s : Stmt) (hs : s ∈ c.body) :
        ∀ m ∈ ((Node.stmt s).repair (.between 0 0)).nodes, m.info.location.Upright :=
      fun m hm => hupright m (List.mem_flatMap.mpr ⟨_, List.mem_map_of_mem hs, hm⟩)
    refine ⟨fun s hs => Node.not_misplaces_of_upright (hbody s hs), fun p hp => ?_⟩
    obtain ⟨s, hs, hp⟩ := List.mem_flatMap.mp hp
    exact Node.not_misplaces_covered (hbody s hs) p hp
  · intro hplaced n hn
    obtain ⟨_, hmem, hn⟩ := List.mem_flatMap.mp hn
    obtain ⟨s, hs, rfl⟩ := List.mem_map.mp hmem
    exact Node.upright_repair (n := .stmt s) (fun m hm => h m (mem_nodes_of_mem_body hs hm))
      (fun p hp => hplaced.below p (mem_nodes_of_mem_body hs hp)) hzero (hplaced.body s hs) n hn

end Cell

end NoteCell
