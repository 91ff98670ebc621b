import NoteCell.Proofs.Grammar.Parsed
import NoteCell.Proofs.Grammar.Places
import NoteCell.Proofs.Lexing.Borders
import NoteCell.Proofs.Reading.Statements
import NoteCell.Proofs.Tree.Ids
import NoteCell.Proofs.Tree.Numbered

/-!
The nodes of a cell. Numbering leaves all of a node as it is but the ids in it, so that each node of a
cell is one that was built, with ids. Every cell that is read from a source has the ids from zero on,
records the depth of each of its nodes, and has each of them at a place in the source.
-/
namespace NoteCell

namespace Node

def mapInfo (f : NodeInfo → NodeInfo) : Node → Node
  | stmt s => .stmt (s.mapInfo f)
  | expr e => .expr (e.mapInfo f)

-- A node with no ids in it.
def unnumbered (n : Node) : Node := n.mapInfo (·.withId 0)

-- The height of the tree below a node.
def depth : Node → Nat
  | stmt s => s.depth
  | expr e => e.depth

variable {f : NodeInfo → NodeInfo} (n : Node)

theorem info_mapInfo : (n.mapInfo f).info = f n.info := by
  cases n with
  | stmt s =>
    cases s
    rw [mapInfo, Stmt.mapInfo_node]
    rfl
  | expr e => exact e.info_mapInfo

theorem depth_mapInfo : (n.mapInfo f).depth = n.depth := by
  cases n with
  | stmt s => exact s.depth_mapInfo
  | expr e => exact e.depth_mapInfo

end Node

section

variable {f : NodeInfo → NodeInfo}

theorem Expr.nodes_mapInfo (e : Expr) : (e.mapInfo f).nodes = e.nodes.map (mapInfo f) := by
  induction e using childrenInduction
  case h info form ih =>
    rw [mapInfo_node, nodes_node, nodes_node, ExprForm.children_map, List.map_cons, List.flatMap_map,
      List.map_flatMap, mapInfo_node]
    exact congrArg _ (List.flatMap_congr ih)

theorem Stmt.nodes_mapInfo (s : Stmt) : (s.mapInfo f).nodes = s.nodes.map (Node.mapInfo f) := by
  induction s using stmtsInduction
  case h info form ih =>
    have hexprs : (form.exprs.map (Expr.mapInfo f)).flatMap Expr.nodes
        = (form.exprs.flatMap Expr.nodes).map (Expr.mapInfo f) := by
      rw [List.flatMap_map, List.map_flatMap]
      exact List.flatMap_congr fun e _ => e.nodes_mapInfo
    have hstmts : (form.stmts.map (mapInfo f)).flatMap nodes
        = (form.stmts.flatMap nodes).map (Node.mapInfo f) := by
      rw [List.flatMap_map, List.map_flatMap]
      exact List.flatMap_congr ih
    rw [mapInfo_node, nodes_node, nodes_node, StmtForm.exprs_map, StmtForm.stmts_map, hexprs, hstmts]
    simp [Node.mapInfo, mapInfo_node]

end

-- Each node of a numbered cell is one of the body, but for ids.
theorem Cell.exists_unnumbered {body : List Stmt} {n : Node} (hn : n ∈ (ofBody body).nodes) :
    ∃ s ∈ body, ∃ m ∈ s.nodes, m.unnumbered = n.unnumbered := by
  have hnodes (ss : List Stmt) : (ss.flatMap Stmt.nodes).map Node.unnumbered
      = (ss.map (Stmt.mapInfo (·.withId 0))).flatMap Stmt.nodes := by
    rw [List.map_flatMap, List.flatMap_map]
    exact List.flatMap_congr fun s _ => s.nodes_mapInfo.symm
  have hmem : n.unnumbered ∈ (body.flatMap Stmt.nodes).map Node.unnumbered := by
    have hids (info : NodeInfo) (id : Nat) : (info.withId id).withId 0 = info.withId 0 := rfl
    rw [hnodes, ← mapInfo_ofBody hids, ← hnodes]
    exact List.mem_map_of_mem hn
  obtain ⟨m, hm, heq⟩ := List.mem_map.mp hmem
  obtain ⟨s, hs, hm⟩ := List.mem_flatMap.mp hm
  exact ⟨s, hs, m, hm, heq⟩

theorem Node.info_of_unnumbered {m n : Node} (h : m.unnumbered = n.unnumbered) :
    m.info.location = n.info.location ∧ m.info.nesting = n.info.nesting := by
  have hinfo := congrArg info h
  rw [unnumbered, unnumbered, info_mapInfo, info_mapInfo] at hinfo
  have hlocation := congrArg NodeInfo.location hinfo
  have hnesting := congrArg NodeInfo.nesting hinfo
  exact ⟨hlocation, hnesting⟩

theorem Node.depth_of_unnumbered {m n : Node} (h : m.unnumbered = n.unnumbered) :
    m.depth = n.depth := by
  have hdepth := congrArg depth h
  rwa [unnumbered, unnumbered, depth_mapInfo, depth_mapInfo] at hdepth

theorem Stmt.All.of_mem_nodes {P : NodeInfo → StmtForm Stmt → Prop} {s t : Stmt} (h : s.All P)
    (ht : .stmt t ∈ s.nodes) : t.All P := by
  induction s using stmtsInduction
  case h info form ih =>
    rw [nodes_node] at ht
    obtain heq | ht := List.mem_cons.mp ht
    · exact Node.stmt.inj heq ▸ h
    obtain ht | ht := List.mem_append.mp ht
    · obtain ⟨e, -, heq⟩ := List.mem_map.mp ht
      cases heq
    · obtain ⟨u, hu, ht⟩ := List.mem_flatMap.mp ht
      exact ih u hu (h.child u hu) ht

theorem Stmt.all_mem_nodes (s : Stmt) : s.All fun info form => .stmt (.node info form) ∈ s.nodes := by
  induction s using stmtsInduction
  case h info form ih =>
    rw [nodes_node]
    refine .node List.mem_cons_self fun t ht => (ih t ht).imp fun _ _ hmem => ?_
    exact List.mem_cons_of_mem _ (List.mem_append_right _ (List.mem_flatMap.mpr ⟨t, ht, hmem⟩))

/-! ### Recorded depths -/

theorem Expr.WellNested.nodes {e : Expr} (h : e.WellNested) :
    ∀ n ∈ e.nodes, n.info.nesting = n.depth := by
  induction e using childrenInduction
  case h info form ih =>
    rw [nodes_node]
    refine List.forall_mem_cons.mpr ⟨h.nesting_eq, fun n hn => ?_⟩
    obtain ⟨c, hc, hn⟩ := List.mem_flatMap.mp hn
    exact ih c hc (h.child c hc) n hn

theorem Stmt.WellNested.nodes {s : Stmt} (h : s.WellNested) :
    ∀ n ∈ s.nodes, n.info.nesting = n.depth := by
  induction s using stmtsInduction
  case h info form ih =>
    rw [nodes_node]
    refine List.forall_mem_cons.mpr ⟨h.nesting_eq, fun n hn => ?_⟩
    obtain hn | hn := List.mem_append.mp hn
    · obtain ⟨x, hx, rfl⟩ := List.mem_map.mp hn
      obtain ⟨e, he, hx⟩ := List.mem_flatMap.mp hx
      exact (h.root.1 e he).nodes x hx
    · obtain ⟨t, ht, hn⟩ := List.mem_flatMap.mp hn
      exact ih t ht (h.child t ht) n hn

/-! ### Well-formed cells -/

open Grammar

-- How deep a node of its kind may be.
def Node.maxDepth : Node → Nat
  | stmt _ => 400
  | expr _ => 200

structure Cell.WellFormed (source : String) (c : Cell) : Prop where
  ids : c.nodes.map (·.info.id) = List.range c.nextId
  nesting : ∀ n ∈ c.nodes, n.info.nesting = n.depth ∧ n.info.nesting ≤ n.maxDepth
  -- A part of the source starts and stops between two of its characters.
  located : ∀ n ∈ c.nodes, ∃ start stop part, n.info.location = .between start stop
    ∧ start ≤ stop ∧ stop ≤ source.utf8ByteSize ∧ Slice source ⟨start, stop⟩ part

-- Numbered nodes have the sites of those that were built.
theorem exists_site {source : String} {c : Cell} (h : parse source = .ok c) :
    ∀ n ∈ c.nodes, ∃ m, Site (tokenize source).tokens m ∧ m.unnumbered = n.unnumbered := by
  intro n hn
  obtain ⟨-, d, hd, body, hact, rfl⟩ := of_parseTokens h
  obtain ⟨s, hs, m, hm, heq⟩ := Cell.exists_unnumbered hn
  exact ⟨m, hd ▸ Program.sites hact s hs m hm, heq⟩

theorem parse_wellFormed {source : String} {c : Cell} (h : parse source = .ok c) :
    c.WellFormed source where
  ids := by
    obtain ⟨-, -, -, body, -, rfl⟩ := of_parseTokens h
    exact Cell.ids_ofBody body
  nesting n hn := by
    constructor
    · obtain ⟨⟨body, rfl, hsound⟩, -⟩ := sound_of_parse h
      obtain ⟨s, hs, m, hm, heq⟩ := Cell.exists_unnumbered hn
      rw [← (Node.info_of_unnumbered heq).2, ← Node.depth_of_unnumbered heq]
      exact (hsound s hs).nested.nodes m hm
    · obtain ⟨m, hsite, heq⟩ := exists_site h n hn
      rw [← (Node.info_of_unnumbered heq).2]
      cases m with
      | stmt s =>
        cases n with
        | stmt => exact StmtSite.nesting_le hsite
        | expr => cases heq
      | expr e =>
        cases n with
        | stmt => cases heq
        | expr => exact ExprSite.nesting_le hsite
  located n hn := by
    have hordered := ordered_tokenize (of_parseTokens h).1
    obtain ⟨m, hsite, heq⟩ := exists_site h n hn
    have hspot : Spot (tokenize source).tokens n.info.location := by
      rw [← (Node.info_of_unnumbered heq).1]
      cases m with
      | stmt s => exact StmtSite.spot hordered hsite
      | expr e => exact ExprSite.spot hordered hsite
    obtain ⟨start, stop, hlocation, hle, hstart, hstop⟩ := hspot
    have hborder {k : Nat} (hk : Edge (tokenize source).tokens k) : Border source k := by
      obtain ⟨t, ht, rfl | rfl⟩ := hk
      · exact (borders_tokenize source t ht).1
      · exact (borders_tokenize source t ht).2
    obtain ⟨part, hpart⟩ := exists_slice (hborder hstart) (hborder hstop) hle
    exact ⟨start, stop, part, hlocation, hle, hpart.le, hpart⟩

-- A further condition, a tuple that a comma ends before a comment, and characters of two bytes.
theorem parse_wellFormed_further :
    ∃ c, parse "if é:\n  b\nelif c: d = é,  # ß\n" = .ok c
      ∧ c.WellFormed "if é:\n  b\nelif c: d = é,  # ß\n" := by
  have hok : (parse "if é:\n  b\nelif c: d = é,  # ß\n").toOption.isSome = true := by decide +kernel
  cases hparse : parse "if é:\n  b\nelif c: d = é,  # ß\n" with
  | error e =>
    rw [hparse] at hok
    cases hok
  | ok c => exact ⟨c, rfl, parse_wellFormed hparse⟩

end NoteCell
