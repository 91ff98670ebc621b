import NoteCell.Proofs.Suspension.Insertion
import NoteCell.Proofs.Tree.Upright
import NoteCell.Tree.Ancestry

/-!
Ancestors by id. The links of a cell hold one entry for each of its nodes. As long as ids are
unique, following them from a node leads from child to parent up to the body, so that a search for an
ancestor comes to an end, and it finds what stands above the node in the tree and nothing else.
-/
namespace NoteCell

open Relation

/-! ### Nodes and the nodes right below them -/

namespace Node

variable {m n : Node}

-- The entry of a node.
def link (parent? : Option Nat) (n : Node) : Link := ⟨n.info.id, parent?, n.kind⟩

-- An entry of a node that stands somewhere below another.
def HoldsLink (n : Node) (l : Link) : Prop :=
  ∃ m ∈ n.nodes, ∃ k ∈ m.children, l = k.link (some m.info.id)

theorem holdsLink_iff {l : Link} :
    n.HoldsLink l ↔ ∃ c ∈ n.children, l = c.link (some n.info.id) ∨ c.HoldsLink l := by
  simp only [HoldsLink, nodes_eq n, List.mem_cons, List.mem_flatMap]
  constructor
  · rintro ⟨m, rfl | ⟨c, hc, hm⟩, k, hk, rfl⟩
    · exact ⟨k, hk, .inl rfl⟩
    · exact ⟨c, hc, .inr ⟨m, hm, k, hk, rfl⟩⟩
  · rintro ⟨c, hc, rfl | ⟨m, hm, k, hk, rfl⟩⟩
    · exact ⟨n, .inl rfl, c, hc, rfl⟩
    · exact ⟨m, .inr ⟨c, hc, hm⟩, k, hk, rfl⟩

theorem eq_or_exists_parent (hm : m ∈ n.nodes) : m = n ∨ ∃ p ∈ n.nodes, m ∈ p.children := by
  induction n using childrenInduction
  case h n ih =>
    rw [nodes_eq] at hm
    obtain rfl | hm := List.mem_cons.mp hm
    · exact .inl rfl
    · obtain ⟨c, hc, hm⟩ := List.mem_flatMap.mp hm
      obtain rfl | ⟨p, hp, hchild⟩ := ih c hc hm
      · exact .inr ⟨n, n.mem_nodes_self, hc⟩
      · exact .inr ⟨p, mem_nodes_of_mem_children hc hp, hchild⟩

theorem mem_nodes_of_child (hm : m ∈ n.nodes) {k : Node} (hk : k ∈ m.children) : k ∈ n.nodes := by
  induction n using childrenInduction
  case h n ih =>
    rw [nodes_eq] at hm
    obtain rfl | hm := List.mem_cons.mp hm
    · exact mem_nodes_of_mem_children hk k.mem_nodes_self
    · obtain ⟨c, hc, hm⟩ := List.mem_flatMap.mp hm
      exact mem_nodes_of_mem_children hc (ih c hc hm)

theorem length_nodes_lt (hm : m ∈ n.children) : m.nodes.length < n.nodes.length := by
  rw [nodes_eq n, List.length_cons, List.length_flatMap]
  exact Nat.lt_succ_of_le (List.le_sum_of_mem (List.mem_map_of_mem hm))

theorem length_nodes_le (hm : m ∈ n.nodes) : m.nodes.length ≤ n.nodes.length := by
  induction n using childrenInduction
  case h n ih =>
    rw [nodes_eq] at hm
    obtain rfl | hm := List.mem_cons.mp hm
    · exact Nat.le_refl _
    · obtain ⟨c, hc, hm⟩ := List.mem_flatMap.mp hm
      exact (ih c hc hm).trans (length_nodes_lt hc).le

end Node

namespace Cell

variable {c : Cell} {m n : Node} {s : Stmt}

theorem mem_nodes_child (hm : m ∈ c.nodes) (hn : n ∈ m.children) : n ∈ c.nodes := by
  obtain ⟨s, hs, hm⟩ := List.mem_flatMap.mp hm
  exact mem_nodes_of_mem_body hs (Node.mem_nodes_of_child (n := .stmt s) hm hn)

-- A node is a statement of the body or stands right below another.
theorem body_or_child (hn : n ∈ c.nodes) :
    (∃ s ∈ c.body, n = .stmt s) ∨ ∃ m ∈ c.nodes, n ∈ m.children := by
  obtain ⟨s, hs, hn⟩ := List.mem_flatMap.mp hn
  obtain rfl | ⟨m, hm, hchild⟩ := Node.eq_or_exists_parent (n := .stmt s) hn
  · exact .inl ⟨s, hs, rfl⟩
  · exact .inr ⟨m, mem_nodes_of_mem_body hs hm, hchild⟩

theorem length_nodes_le (hn : n ∈ c.nodes) : n.nodes.length ≤ c.nodes.length := by
  obtain ⟨s, hs, hn⟩ := List.mem_flatMap.mp hn
  refine (Node.length_nodes_le (n := .stmt s) hn).trans ?_
  rw [nodes, List.length_flatMap]
  exact List.le_sum_of_mem (List.mem_map_of_mem hs)

theorem eq_of_id (hc : c.ids.Nodup) (hm : m ∈ c.nodes) (hn : n ∈ c.nodes)
    (hid : m.info.id = n.info.id) : m = n :=
  List.inj_on_of_nodup_map hc hm hn hid

-- One node stands above another, at any distance.
def Above (c : Cell) (m n : Node) : Prop := m ∈ c.nodes ∧ TransGen (fun p k => k ∈ p.children) m n

theorem Above.mem_nodes (h : c.Above m n) : n ∈ c.nodes := by
  obtain ⟨hm, hpath⟩ := h
  induction hpath
  case single hchild => exact mem_nodes_child hm hchild
  case tail hchild ih => exact mem_nodes_child ih hchild

theorem above_child (hm : m ∈ c.nodes) (hn : n ∈ m.children) : c.Above m n := ⟨hm, .single hn⟩

theorem Above.child {p : Node} (h : c.Above m p) (hn : n ∈ p.children) : c.Above m n :=
  ⟨h.1, h.2.tail hn⟩

theorem Above.exists_parent (h : c.Above m n) :
    ∃ p ∈ c.nodes, n ∈ p.children ∧ (m = p ∨ c.Above m p) := by
  obtain ⟨hm, hpath⟩ := h
  cases hpath with
  | single hchild => exact ⟨m, hm, hchild, .inl rfl⟩
  | tail hpath hchild => exact ⟨_, Above.mem_nodes ⟨hm, hpath⟩, hchild, .inr ⟨hm, hpath⟩⟩

end Cell

/-! ### Entries -/

namespace Ancestry

variable {l : Link}

theorem exprLinks_node (parent : Nat) (info : NodeInfo) (form : ExprForm Expr) :
    exprLinks parent (.node info form)
      = (Node.expr (.node info form)).link (some parent)
        :: form.children.flatMap (exprLinks info.id) := by
  rw [exprLinks, List.flatMap, List.flatMap]
  congr 2
  exact List.attach_map_val

theorem stmtLinks_node (parent? : Option Nat) (info : NodeInfo) (form : StmtForm Stmt) :
    stmtLinks parent? (.node info form)
      = (Node.stmt (.node info form)).link parent?
        :: (form.exprs.flatMap (exprLinks info.id)
          ++ form.stmts.flatMap (stmtLinks (some info.id))) := by
  rw [stmtLinks, List.flatMap, List.flatMap, List.flatMap]
  congr 3
  exact List.attach_map_val

theorem ids_exprLinks (e : Expr) (parent : Nat) : (exprLinks parent e).map Link.id = e.ids := by
  induction e using Expr.childrenInduction generalizing parent
  case h info form ih =>
    rw [exprLinks_node, Expr.ids_node, List.map_cons, List.map_flatMap]
    exact congrArg _ (List.flatMap_congr fun e he => ih e he _)

theorem ids_stmtLinks (s : Stmt) (parent? : Option Nat) :
    (stmtLinks parent? s).map Link.id = s.ids := by
  induction s using Stmt.stmtsInduction generalizing parent?
  case h info form ih =>
    rw [stmtLinks_node, Stmt.ids_node, List.map_cons, List.map_append, List.map_flatMap,
      List.map_flatMap]
    refine congrArg _ (congrArg₂ _ ?_ ?_)
    · exact List.flatMap_congr fun e _ => ids_exprLinks e _
    · exact List.flatMap_congr fun s hs => ih s hs _

theorem mem_exprLinks {e : Expr} {parent : Nat} :
    l ∈ exprLinks parent e
      ↔ l = (Node.expr e).link (some parent) ∨ (Node.expr e).HoldsLink l := by
  induction e using Expr.childrenInduction generalizing parent
  case h info form ih =>
    have hchildren : (Node.expr (.node info form)).children = form.children.map .expr := rfl
    rw [exprLinks_node, List.mem_cons, List.mem_flatMap, Node.holdsLink_iff, hchildren]
    refine or_congr_right ?_
    simp only [List.mem_map, exists_exists_and_eq_and]
    exact exists_congr fun e => and_congr_right fun he => ih e he

theorem mem_stmtLinks {s : Stmt} {parent? : Option Nat} :
    l ∈ stmtLinks parent? s ↔ l = (Node.stmt s).link parent? ∨ (Node.stmt s).HoldsLink l := by
  induction s using Stmt.stmtsInduction generalizing parent?
  case h info form ih =>
    have hchildren : (Node.stmt (.node info form)).children
        = form.exprs.map .expr ++ form.stmts.map .stmt := rfl
    rw [stmtLinks_node, List.mem_cons, List.mem_append, List.mem_flatMap, List.mem_flatMap,
      Node.holdsLink_iff, hchildren]
    refine or_congr_right ?_
    simp only [List.mem_append, List.mem_map, or_and_right, exists_or, exists_exists_and_eq_and]
    refine or_congr ?_ ?_
    · exact exists_congr fun e => and_congr_right fun _ => mem_exprLinks
    · exact exists_congr fun s => and_congr_right fun hs => ih s hs

variable {c : Cell} {m n : Node} {s : Stmt} {id : Nat} {kind : NodeKind}

theorem ids_ofCell (c : Cell) : (ofCell c).links.map Link.id = c.ids := by
  rw [ofCell, Cell.ids_eq, List.map_flatMap]
  exact List.flatMap_congr fun s _ => ids_stmtLinks s none

theorem link_body_mem (hs : s ∈ c.body) : (Node.stmt s).link none ∈ (ofCell c).links :=
  List.mem_flatMap.mpr ⟨s, hs, mem_stmtLinks.mpr (.inl rfl)⟩

theorem link_child_mem (hm : m ∈ c.nodes) (hn : n ∈ m.children) :
    n.link (some m.info.id) ∈ (ofCell c).links := by
  obtain ⟨s, hs, hm⟩ := List.mem_flatMap.mp hm
  exact List.mem_flatMap.mpr ⟨s, hs, mem_stmtLinks.mpr (.inr ⟨m, hm, n, hn, rfl⟩)⟩

theorem exists_link_mem (hn : n ∈ c.nodes) : ∃ parent?, n.link parent? ∈ (ofCell c).links := by
  obtain ⟨s, hs, rfl⟩ | ⟨m, hm, hchild⟩ := Cell.body_or_child hn
  · exact ⟨none, link_body_mem hs⟩
  · exact ⟨some m.info.id, link_child_mem hm hchild⟩

/-! ### Following the links -/

-- With unique ids, an entry is the one that is found under its id.
theorem link?_of_mem (hc : c.ids.Nodup) (hl : l ∈ (ofCell c).links) :
    (ofCell c).link? l.id = some l := by
  cases hfound : (ofCell c).link? l.id with
  | none => exact absurd (beq_self_eq_true l.id) (List.find?_eq_none.mp hfound l hl)
  | some l' =>
    have hfind : (ofCell c).links.find? (·.id == l.id) = some l' := hfound
    have hid : l'.id = l.id := by simpa using List.find?_some hfind
    exact congrArg some
      (List.inj_on_of_nodup_map (ids_ofCell c ▸ hc) (List.mem_of_find?_eq_some hfind) hl hid)

theorem parent?_body (hc : c.ids.Nodup) (hs : s ∈ c.body) :
    (ofCell c).parent? s.info.id = none := by
  have hlink : (ofCell c).link? s.info.id = _ := link?_of_mem hc (link_body_mem hs)
  rw [parent?, hlink]
  rfl

theorem parent?_child (hc : c.ids.Nodup) (hm : m ∈ c.nodes) (hn : n ∈ m.children) :
    (ofCell c).parent? n.info.id = some m.info.id := by
  have hlink : (ofCell c).link? n.info.id = _ := link?_of_mem hc (link_child_mem hm hn)
  rw [parent?, hlink]
  rfl

theorem parent?_unknown (hid : id ∉ c.ids) : (ofCell c).parent? id = none := by
  have hlink : (ofCell c).link? id = none := by
    refine List.find?_eq_none.mpr fun l hl heq => hid ?_
    rw [← ids_ofCell]
    exact List.mem_map.mpr ⟨l, hl, beq_iff_eq.mp heq⟩
  rw [parent?, hlink]
  rfl

theorem kind?_node (hc : c.ids.Nodup) (hn : n ∈ c.nodes) :
    (ofCell c).kind? n.info.id = some n.kind := by
  obtain ⟨parent?, hmem⟩ := exists_link_mem hn
  have hlink : (ofCell c).link? n.info.id = _ := link?_of_mem hc hmem
  rw [kind?, hlink]
  rfl

-- A search upwards from an id, which stops at the first of the kind and where nothing is above. It
-- is bounded by nothing else, so one that has a result is one that ends.
inductive Search (a : Ancestry) (kind : NodeKind) : Option Nat → Bool → Prop
  | top : Search a kind none false
  | found {id : Nat} (h : a.kind? id = some kind) : Search a kind (some id) true
  | further {id : Nat} {b : Bool} (h : a.kind? id ≠ some kind)
    (hrest : Search a kind (a.parent? id) b) : Search a kind (some id) b

-- Each parent has more nodes below it than the one before, and none has more than the cell.
theorem search_above (hc : c.ids.Nodup) (hn : n ∈ c.nodes) {fuel : Nat}
    (hfuel : c.nodes.length - n.nodes.length ≤ fuel) :
    (ofCell c).Search kind ((ofCell c).parent? n.info.id)
      (((ofCell c).above fuel n.info.id).any fun p => (ofCell c).kind? p == some kind) := by
  induction fuel generalizing n
  all_goals
    obtain ⟨s, hs, rfl⟩ | ⟨m, hm, hchild⟩ := Cell.body_or_child hn
  case zero.inl =>
    have hparent : (ofCell c).parent? (Node.stmt s).info.id = none := parent?_body hc hs
    rw [hparent]
    exact .top
  case zero.inr =>
    have := Node.length_nodes_lt hchild
    have := Cell.length_nodes_le hm
    omega
  case succ.inl ih =>
    have hparent : (ofCell c).parent? (Node.stmt s).info.id = none := parent?_body hc hs
    rw [above, hparent]
    exact .top
  case succ.inr ih =>
    have hlt := Node.length_nodes_lt hchild
    have hle := Cell.length_nodes_le hm
    rw [above, parent?_child hc hm hchild, List.any_cons]
    by_cases hkind : (ofCell c).kind? m.info.id = some kind
    case pos =>
      rw [hkind, beq_self_eq_true, Bool.true_or]
      exact .found hkind
    case neg =>
      rw [beq_false_of_ne hkind, Bool.false_or]
      exact .further hkind (ih hm (by omega))

theorem length_links (c : Cell) : (ofCell c).links.length = c.nodes.length := by
  have hlength := congrArg List.length (ids_ofCell c)
  rwa [List.length_map, Cell.ids, List.length_map] at hlength

theorem above_of_parent?_eq_none (a : Ancestry) (h : a.parent? id = none) (fuel : Nat) :
    a.above fuel id = [] := by
  cases fuel with
  | zero => rfl
  | succ => rw [above, h]

theorem search_hasAncestor (hc : c.ids.Nodup) (id : Nat) (kind : NodeKind) :
    (ofCell c).Search kind ((ofCell c).parent? id) ((ofCell c).hasAncestor id kind) := by
  by_cases hid : id ∈ c.ids
  case pos =>
    obtain ⟨n, hn, rfl⟩ := List.mem_map.mp hid
    refine search_above hc hn ?_
    rw [length_links]
    exact Nat.sub_le _ _
  case neg =>
    have hparent := parent?_unknown hid
    rw [hasAncestor, above_of_parent?_eq_none _ hparent, hparent]
    exact .top

theorem hasAncestor_unknown (hid : id ∉ c.ids) : (ofCell c).hasAncestor id kind = false := by
  rw [hasAncestor, above_of_parent?_eq_none _ (parent?_unknown hid)]
  rfl

/-! ### What is found -/

-- With unique ids, what stands above a node is its parent or stands above that.
theorem exists_above_child (hc : c.ids.Nodup) (hm : m ∈ c.nodes) (hn : n ∈ m.children)
    {P : Node → Prop} : (∃ p, c.Above p n ∧ P p) ↔ P m ∨ ∃ p, c.Above p m ∧ P p := by
  constructor
  · rintro ⟨p, habove, hp⟩
    obtain ⟨m', hm', hn', hor⟩ := habove.exists_parent
    have hid : m'.info.id = m.info.id :=
      Option.some.inj ((parent?_child hc hm' hn').symm.trans (parent?_child hc hm hn))
    obtain rfl := Cell.eq_of_id hc hm' hm hid
    obtain rfl | habove := hor
    · exact .inl hp
    · exact .inr ⟨p, habove, hp⟩
  · rintro (hp | ⟨p, habove, hp⟩)
    · exact ⟨m, Cell.above_child hm hn, hp⟩
    · exact ⟨p, habove.child hn, hp⟩

theorem not_above_body (hc : c.ids.Nodup) (hs : s ∈ c.body) : ¬ c.Above m (.stmt s) := by
  intro habove
  obtain ⟨p, hp, hchild, -⟩ := habove.exists_parent
  have hparent : (ofCell c).parent? s.info.id = _ := parent?_child hc hp hchild
  rw [parent?_body hc hs] at hparent
  cases hparent

theorem Search.eq_true_iff {current : Option Nat} {b : Bool} (hc : c.ids.Nodup)
    (h : (ofCell c).Search kind current b) (hn : n ∈ c.nodes)
    (hcurrent : (ofCell c).parent? n.info.id = current) :
    b = true ↔ ∃ m, c.Above m n ∧ m.kind = kind := by
  induction h generalizing n
  all_goals
    obtain ⟨s, hs, rfl⟩ | ⟨m, hm, hchild⟩ := Cell.body_or_child hn
  case top.inl => exact ⟨nofun, fun ⟨m, habove, _⟩ => absurd habove (not_above_body hc hs)⟩
  case found.inl | further.inl =>
    cases (parent?_body hc hs).symm.trans hcurrent
  case top.inr => cases (parent?_child hc hm hchild).symm.trans hcurrent
  case found.inr hfound =>
    cases (parent?_child hc hm hchild).symm.trans hcurrent
    rw [kind?_node hc hm, Option.some_inj] at hfound
    exact iff_of_true rfl ⟨m, Cell.above_child hm hchild, hfound⟩
  case further.inr hother _ ih =>
    cases (parent?_child hc hm hchild).symm.trans hcurrent
    rw [kind?_node hc hm, ne_eq, Option.some_inj] at hother
    rw [ih hm rfl, exists_above_child hc hm hchild]
    exact (or_iff_right hother).symm

end Ancestry

/-! ### Cells -/

namespace Cell

variable {c : Cell}

theorem Numbered.nodup (h : c.Numbered) : c.ids.Nodup := h.nodup_iff.mpr List.nodup_range

-- The links answer what the tree says.
structure Answers (a : Ancestry) (c : Cell) : Prop where
  -- There is one entry for each node, and no other.
  entries : a.links.map Link.id = c.ids ∧ c.ids.Nodup ∧ a.size = c.nodes.length
  kind : ∀ n ∈ c.nodes, a.kind? n.info.id = some n.kind
  parent : ∀ m ∈ c.nodes, ∀ n ∈ m.children, a.parent? n.info.id = some m.info.id
  top : ∀ s ∈ c.body, a.parent? s.info.id = none
  unknown : ∀ id, id ∉ c.ids → a.parent? id = none ∧ ∀ kind, a.hasAncestor id kind = false
  -- The search ends wherever it starts.
  search : ∀ id kind, a.Search kind (a.parent? id) (a.hasAncestor id kind)
  ancestor : ∀ n ∈ c.nodes, ∀ kind, a.hasAncestor n.info.id kind = true
    ↔ ∃ m, c.Above m n ∧ m.kind = kind

theorem answers_ofCell (h : c.Reached) : Answers (.ofCell c) c := by
  have hc := h.numbered.nodup
  exact
    { entries := ⟨Ancestry.ids_ofCell c, hc, Ancestry.length_links c⟩
      kind := fun n hn => Ancestry.kind?_node hc hn
      parent := fun m hm n hn => Ancestry.parent?_child hc hm hn
      top := fun s hs => Ancestry.parent?_body hc hs
      unknown := fun id hid =>
        ⟨Ancestry.parent?_unknown hid, fun _ => Ancestry.hasAncestor_unknown hid⟩
      search := Ancestry.search_hasAncestor hc
      ancestor := fun n hn kind => (Ancestry.search_hasAncestor hc _ kind).eq_true_iff hc hn rfl }

-- Each call has got an await with an id greater than its own, and the one inside stands below both.
theorem answers_ofCell_twice : ∃ c, parse "input(ask('a'))" = .ok c
    ∧ Answers (.ofCell ((c.suspend "ask").suspend "input")) ((c.suspend "ask").suspend "input")
    ∧ (Ancestry.ofCell ((c.suspend "ask").suspend "input")).above 8 5 = [3, 6, 1, 7, 0] := by
  have habove : (parse "input(ask('a'))").toOption.any (fun c =>
      (Ancestry.ofCell ((c.suspend "ask").suspend "input")).above 8 5 = [3, 6, 1, 7, 0])
      = true := by
    decide +kernel
  cases hparse : parse "input(ask('a'))" with
  | error e =>
    rw [hparse] at habove
    cases habove
  | ok c =>
    rw [hparse] at habove
    exact ⟨c, rfl, answers_ofCell (.suspend (.suspend (.read hparse) "ask") "input"),
      of_decide_eq_true habove⟩

end Cell

end NoteCell
