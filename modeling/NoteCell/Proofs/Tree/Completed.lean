import NoteCell.Proofs.Tree.Nodes

/-!
Completed trees. Completing locations goes from a node to its children with the place of the node, so
that each node of a completed tree is one of the tree, completed within some place. Ends that are known
stay, nothing but ends changes, and nothing is left to complete.
-/
namespace NoteCell

namespace Location

-- What is known of one place is the same in the other.
def Keeps (l m : Location) : Prop := l.orElse m = m

theorem keeps_orElse (l around : Location) : l.Keeps (l.orElse around) := by
  obtain ⟨start, stop⟩ := l
  cases start <;> cases stop <;> rfl

theorem Keeps.start_eq {l m : Location} {k : Nat} (h : l.Keeps m) (hk : l.start = some k) :
    m.start = some k := by
  have hstart := congrArg start h
  rw [orElse, hk] at hstart
  exact hstart.symm

theorem Keeps.stop_eq {l m : Location} {k : Nat} (h : l.Keeps m) (hk : l.stop = some k) :
    m.stop = some k := by
  have hstop := congrArg stop h
  rw [orElse, hk] at hstop
  exact hstop.symm

theorem orElse_assoc (l m n : Location) : (l.orElse m).orElse n = l.orElse (m.orElse n) := by
  obtain ⟨start, stop⟩ := l
  cases start <;> cases stop <;> rfl

theorem orElse_of_isComplete {l : Location} (h : l.isComplete) (around : Location) :
    l.orElse around = l := by
  obtain ⟨start, stop⟩ := l
  obtain ⟨hstart, hstop⟩ := (Bool.and_eq_true _ _).mp h
  obtain ⟨_, rfl⟩ := Option.isSome_iff_exists.mp hstart
  obtain ⟨_, rfl⟩ := Option.isSome_iff_exists.mp hstop
  rfl

end Location

/-! ### What expressions and statements cover -/

theorem Expr.covered_node (info : NodeInfo) (form : ExprForm Expr) :
    (node info form).covered = info.location.orElse (.hull (form.children.map covered)) := by
  rw [covered]
  congr 2
  exact List.attach_map_val

theorem Stmt.covered_node (info : NodeInfo) (form : StmtForm Stmt) :
    (node info form).covered
      = info.location.orElse (.hull (form.exprs.map Expr.covered ++ form.stmts.map covered)) := by
  rw [covered]
  congr 3
  exact List.attach_map_val

/-! ### Nodes of either kind -/

namespace Node

def nodes : Node → List Node
  | stmt s => s.nodes
  | expr e => e.nodes.map expr

def covered : Node → Location
  | stmt s => s.covered
  | expr e => e.covered

def repair (around : Location) : Node → Node
  | stmt s => .stmt (s.repair around)
  | expr e => .expr (e.repair around)

-- Whoever shows a property of a node from that of its children shows it of all nodes.
theorem childrenInduction {P : Node → Prop} (h : ∀ n, (∀ c ∈ n.children, P c) → P n) : ∀ n, P n := by
  have hexpr (e : Expr) : P (.expr e) := by
    induction e using Expr.childrenInduction
    case h info form ih => exact h _ (List.forall_mem_map.mpr ih)
  rintro (s | e)
  · induction s using Stmt.stmtsInduction
    case h info form ih =>
      exact h _ (List.forall_mem_append.mpr
        ⟨List.forall_mem_map.mpr fun e _ => hexpr e, List.forall_mem_map.mpr ih⟩)
  · exact hexpr e

variable {n : Node} {around : Location}

theorem nodes_eq (n : Node) : n.nodes = n :: n.children.flatMap nodes := by
  cases n with
  | stmt s =>
    cases s
    rw [nodes, Stmt.nodes_node, children, List.flatMap_append, List.flatMap_map, List.flatMap_map,
      List.map_flatMap]
    rfl
  | expr e =>
    cases e
    rw [nodes, Expr.nodes_node, children, List.flatMap_map, List.map_cons, List.map_flatMap]
    rfl

theorem covered_eq (n : Node) :
    n.covered = n.info.location.orElse (.hull (n.children.map covered)) := by
  cases n with
  | stmt s =>
    cases s
    rw [covered, Stmt.covered_node, children, List.map_append, List.map_map, List.map_map]
    rfl
  | expr e =>
    cases e
    rw [covered, Expr.covered_node, children, List.map_map]
    rfl

theorem info_repair (n : Node) (around : Location) :
    (n.repair around).info = n.info.withLocation (n.covered.orElse around) := by
  cases n with
  | stmt s =>
    cases s
    rw [repair, Stmt.repair_node]
    rfl
  | expr e =>
    cases e
    rw [repair, Expr.repair_node]
    rfl

theorem children_repair (n : Node) (around : Location) :
    (n.repair around).children = n.children.map (repair (n.covered.orElse around)) := by
  cases n with
  | stmt s =>
    cases s
    rw [repair, Stmt.repair_node, children, children, Stmt.exprs, Stmt.stmts, Stmt.form,
      StmtForm.exprs_map, StmtForm.stmts_map]
    simp only [List.map_append, List.map_map]
    rfl
  | expr e =>
    cases e
    rw [repair, Expr.repair_node, children, children, Expr.children, Expr.form, ExprForm.children_map]
    simp only [List.map_map]
    rfl

theorem mem_nodes_self (n : Node) : n ∈ n.nodes := by
  rw [nodes_eq]
  exact List.mem_cons_self

-- A node of a completed tree is one of the tree, completed.
theorem exists_of_mem_nodes_repair {m : Node} (h : m ∈ (n.repair around).nodes) :
    ∃ k ∈ n.nodes, ∃ own, m = k.repair own := by
  induction n using childrenInduction generalizing around
  case h n ih =>
    rw [nodes_eq, children_repair] at h
    obtain rfl | h := List.mem_cons.mp h
    · exact ⟨n, n.mem_nodes_self, around, rfl⟩
    · obtain ⟨_, hmem, h⟩ := List.mem_flatMap.mp h
      obtain ⟨c, hc, rfl⟩ := List.mem_map.mp hmem
      obtain ⟨k, hk, own, rfl⟩ := ih c hc h
      rw [nodes_eq]
      exact ⟨k, List.mem_cons_of_mem _ (List.mem_flatMap.mpr ⟨c, hc, hk⟩), own, rfl⟩

theorem keeps_repair (n : Node) (around : Location) :
    n.info.location.Keeps (n.repair around).info.location := by
  rw [info_repair, NodeInfo.withLocation, covered_eq, Location.orElse_assoc]
  exact Location.keeps_orElse _ _

-- Node by node, what was known is still so.
theorem keeps_nodes_repair (n : Node) (around : Location) :
    List.Forall₂ (fun k m => k.info.location.Keeps m.info.location) n.nodes (n.repair around).nodes := by
  induction n using childrenInduction generalizing around
  case h n ih =>
    rw [nodes_eq, nodes_eq (n.repair around), children_repair, List.flatMap_map]
    refine .cons (n.keeps_repair around) ?_
    generalize n.children = children at ih
    induction children
    case nil => exact .nil
    case cons c cs ihs =>
      exact List.rel_append (ih c List.mem_cons_self _) (ihs fun d hd => ih d (List.mem_cons_of_mem _ hd))

end Node

/-! ### Trees that are complete -/

theorem Expr.repair_of_isComplete {e : Expr} (h : ∀ n ∈ e.nodes, n.info.location.isComplete)
    (around : Location) : e.repair around = e := by
  induction e using childrenInduction generalizing around
  case h info form ih =>
    rw [nodes_node, List.forall_mem_cons] at h
    have hhere : info.location.isComplete := h.1
    have hcovered : (node info form).covered = info.location := by
      rw [covered_node, Location.orElse_of_isComplete hhere]
    have hform : form.map (repair info.location) = form.map fun c => c := ExprForm.map_congr
      fun c hc => ih c hc (fun n hn => h.2 n (List.mem_flatMap.mpr ⟨c, hc, hn⟩)) info.location
    rw [repair_node, hcovered, Location.orElse_of_isComplete hhere, hform, ExprForm.map_id]
    rfl

theorem Stmt.repair_of_isComplete {s : Stmt} (h : ∀ n ∈ s.nodes, n.info.location.isComplete)
    (around : Location) : s.repair around = s := by
  induction s using stmtsInduction generalizing around
  case h info form ih =>
    rw [nodes_node, List.forall_mem_cons, List.forall_mem_append, List.forall_mem_map] at h
    have hhere : info.location.isComplete := h.1
    obtain ⟨-, hexprs, hstmts⟩ := h
    have hcovered : (node info form).covered = info.location := by
      rw [covered_node, Location.orElse_of_isComplete hhere]
    have hform : form.map (Expr.repair info.location) (repair info.location)
        = form.map (fun e => e) fun s => s := StmtForm.map_congr
      (fun e he => e.repair_of_isComplete
        (fun n hn => hexprs n (List.mem_flatMap.mpr ⟨e, he, hn⟩)) info.location)
      fun s hs => ih s hs (fun n hn => hstmts n (List.mem_flatMap.mpr ⟨s, hs, hn⟩)) info.location
    rw [repair_node, hcovered, Location.orElse_of_isComplete hhere, hform, StmtForm.map_id]
    rfl

section

variable {f : NodeInfo → NodeInfo} (hf : ∀ info location, f (info.withLocation location) = f info)
include hf

-- Whatever is kept of nodes but their places is not changed by completing them.
theorem Expr.mapInfo_repair (e : Expr) (around : Location) :
    (e.repair around).mapInfo f = e.mapInfo f := by
  induction e using childrenInduction generalizing around
  case h info form ih =>
    rw [repair_node, mapInfo_node, mapInfo_node, hf, ExprForm.map_map,
      ExprForm.map_congr fun c hc => ih c hc _]

theorem Stmt.mapInfo_repair (s : Stmt) (around : Location) :
    (s.repair around).mapInfo f = s.mapInfo f := by
  induction s using stmtsInduction generalizing around
  case h info form ih =>
    rw [repair_node, mapInfo_node, mapInfo_node, hf, StmtForm.map_map,
      StmtForm.map_congr (fun e _ => e.mapInfo_repair hf _) fun s hs => ih s hs _]

end

/-! ### Cells -/

namespace Cell

-- One tree is the other with all its locations completed.
structure Completes (c d : Cell) : Prop where
  complete : ∀ n ∈ d.nodes, n.info.location.isComplete
  kept : List.Forall₂ (fun n m => n.info.location.Keeps m.info.location) c.nodes d.nodes
  -- Nothing but places differs.
  placeless : d.placeless = c.placeless
  settled : d.repair = d

theorem isComplete_repair (c : Cell) : ∀ n ∈ c.repair.nodes, n.info.location.isComplete := by
  intro n hn
  obtain ⟨_, hs, hn⟩ := List.mem_flatMap.mp hn
  obtain ⟨s, _, rfl⟩ := List.mem_map.mp hs
  exact s.isComplete_repair rfl n hn

theorem exists_of_mem_nodes_repair {c : Cell} {m : Node} (h : m ∈ c.repair.nodes) :
    ∃ k ∈ c.nodes, ∃ around, m = k.repair around := by
  obtain ⟨_, hmem, hm⟩ := List.mem_flatMap.mp h
  obtain ⟨s, hs, rfl⟩ := List.mem_map.mp hmem
  obtain ⟨k, hk, around, rfl⟩ := Node.exists_of_mem_nodes_repair (n := .stmt s) hm
  exact ⟨k, List.mem_flatMap.mpr ⟨s, hs, hk⟩, around, rfl⟩

theorem keeps_repair (c : Cell) :
    List.Forall₂ (fun n m => n.info.location.Keeps m.info.location) c.nodes c.repair.nodes := by
  obtain ⟨body, nextId⟩ := c
  rw [nodes, nodes, repair, List.flatMap_map]
  induction body
  case nil => exact .nil
  case cons s ss ih => exact List.rel_append (Node.keeps_nodes_repair (.stmt s) _) ih

theorem placeless_repair (c : Cell) : c.repair.placeless = c.placeless := by
  rw [placeless, placeless, repair, List.map_map]
  congr 1
  exact List.map_congr_left fun s _ => s.mapInfo_repair (fun _ _ => rfl) _

theorem repair_of_isComplete {c : Cell} (h : ∀ n ∈ c.nodes, n.info.location.isComplete) :
    c.repair = c := by
  obtain ⟨body, nextId⟩ := c
  have hbody : body.map (Stmt.repair (.between 0 0)) = body.map fun s => s :=
    List.map_congr_left fun s hs =>
      s.repair_of_isComplete (fun n hn => h n (List.mem_flatMap.mpr ⟨s, hs, hn⟩)) _
  rw [repair, hbody, List.map_id']

theorem completes_repair (c : Cell) : c.Completes c.repair where
  complete := c.isComplete_repair
  kept := c.keeps_repair
  placeless := c.placeless_repair
  settled := repair_of_isComplete c.isComplete_repair

end Cell

end NoteCell
