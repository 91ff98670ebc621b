import NoteCell.Proofs.Tree.Spans
import NoteCell.Proofs.Tree.Upright

/-!
Forgotten ends. What is below a node of a cell that was read lies within the place of the node, unless
the node is a further condition that falls back on something. So the ends that are left after some were
forgotten agree with each other, and only what is taken from around a node can be out of place.
-/
namespace NoteCell

open Grammar

namespace Location

variable {l m n : Location}

theorem Covers.trans (h : l.Covers m) (h' : m.Covers n) : l.Covers n := by
  obtain ⟨_ | _, _ | _⟩ := l <;> obtain ⟨_ | _, _ | _⟩ := m <;> obtain ⟨_ | _, _ | _⟩ := n <;>
    first
    | exact h.elim
    | exact h'.elim
    | exact ⟨Nat.le_trans h.1 h'.1, Nat.le_trans h'.2 h.2⟩

-- A place that starts no later than another.
def Leads : Location → Location → Prop
  | ⟨some start, _⟩, ⟨some start', _⟩ => start ≤ start'
  | _, _ => False

theorem Leads.trans (h : l.Leads m) (h' : m.Leads n) : l.Leads n := by
  obtain ⟨_ | _, _⟩ := l <;> obtain ⟨_ | _, _⟩ := m <;> obtain ⟨_ | _, _⟩ := n <;>
    first
    | exact h.elim
    | exact h'.elim
    | exact Nat.le_trans h h'

theorem Covers.leads (h : l.Covers m) : l.Leads m := by
  obtain ⟨_ | _, _ | _⟩ := l <;> obtain ⟨_ | _, _ | _⟩ := m <;>
    first
    | exact h.elim
    | exact h.1

theorem Precedes.leads {start stop : Nat} (hle : start ≤ stop) (h : (between start stop).Precedes m) :
    (between start stop).Leads m := by
  obtain ⟨_ | _, _⟩ := m
  · exact h.elim
  · exact Nat.le_trans hle h

end Location

/-! ### Nodes below a node -/

namespace Grammar

section

variable {ts : List Located} {l : Location} {s : Stmt} {ss : List Stmt}

theorem Spot.covers (h : Ordered ts) (hl : Spot ts l) : (placeOf ts).Covers l := by
  obtain ⟨start, stop, rfl, -, ⟨t, ht, hstart⟩, u, hu, hstop⟩ := hl
  have hforward := h.forward t ht
  have hforward' := h.forward u hu
  have hle := h.startOf_le t ht
  have hle' := h.le_stopOf u hu
  exact Location.covers_between (by omega) (by omega)

theorem Site.spot {n : Node} (h : Ordered ts) (hn : Site ts n) : Spot ts n.info.location := by
  cases n with
  | stmt => exact StmtSite.spot h hn
  | expr => exact ExprSite.spot h hn

theorem Sites.covers (h : Ordered ts) (hs : Sites ts [s]) :
    ∀ n ∈ s.nodes, (placeOf ts).Covers n.info.location :=
  fun n hn => (Site.spot h (hs s (List.mem_singleton_self s) n hn)).covers h

-- All that is below a statement with others inside lies within its place.
theorem StmtSite.covers_nodes (h : Ordered ts) (hs : StmtSite ts s)
    (hfurther : s.info.location.StartsAt ts .elif_ → s.form.orelse = []) :
    s.stmts = [] ∨ ∀ n ∈ s.nodes, s.info.location.Covers n.info.location := by
  cases hs with
  | simple _ _ hact =>
    obtain ⟨form, hmake, hstmts, -⟩ := SmallStatement.of_act hact
    obtain ⟨rfl, -⟩ := of_makeStmt_eq_ok hmake
    exact .inl hstmts
  | @compound d _ hstands hact =>
    obtain ⟨form, hmake⟩ := StmtDerivation.of_act hact
    have hwhole : Stands d.tokens d.tokens [] := ⟨[], (List.append_nil _).symm, .nil⟩
    have hsites := d.sited d.tokens hwhole hact
    obtain ⟨rfl, -⟩ := of_makeStmt_eq_ok hmake
    exact .inr (hsites.covers (h.of_isInfix hstands.isInfix))
  | @clause elif_ colon test body clauses orelse after e ss us hstands htest hbody _ hmake =>
    have hstarts : s.info.location.StartsAt ts .elif_ := by
      obtain ⟨rfl, -⟩ := of_makeStmt_eq_ok hmake
      exact ⟨word .elif_ elif_, hstands.isInfix.subset (by simp), rfl, rfl⟩
    obtain rfl : us = [] := by
      have hnone := hfurther hstarts
      obtain ⟨rfl, -⟩ := of_makeStmt_eq_ok hmake
      exact hnone
    -- Nothing stands behind its own tokens.
    have hown := hstands.left.left
    generalize htokens : word .elif_ elif_ :: (test.tokens ++ sign .colon colon :: body.tokens) = own
      at hown hmake
    have hwhole : Stands own (word .elif_ elif_ :: (test.tokens ++ sign .colon colon :: body.tokens)) [] :=
      ⟨[], by rw [htokens, List.append_nil]; rfl, .nil⟩
    have hblock : Stands own body.tokens [] :=
      ((hwhole.tail rfl).right test.closes).tail (t := sign .colon colon) rfl
    have htail : Stands own ((StmtDerivation.clause elif_ test colon body .noClauses).tokens
        ++ StmtDerivation.nothingElse.tokens) [] := by
      simpa using hwhole
    have hsite : StmtSite own s := .clause htail htest hbody rfl (htokens.symm ▸ hmake)
    have hexprs : ∀ x ∈ [e], ExprSites own [x] := by
      refine List.forall_mem_singleton.mpr ((test.stems htest).sites ?_)
      exact htokens ▸ ⟨[word .elif_ elif_], sign .colon colon :: body.tokens, rfl⟩
    have hsites : Sites own [s] := .node hmake hsite hexprs (by
      rw [StmtForm.stmts, List.append_nil]
      exact body.sited own hblock hbody)
    obtain ⟨rfl, -⟩ := of_makeStmt_eq_ok hmake
    exact .inr (hsites.covers (h.of_isInfix hown.isInfix))

end

end Grammar

namespace Node

variable {n : Node}

def stmts : Node → List Stmt
  | stmt s => s.stmts
  | expr _ => []

theorem nodes_mapInfo (f : NodeInfo → NodeInfo) (n : Node) :
    (n.mapInfo f).nodes = n.nodes.map (mapInfo f) := by
  cases n with
  | stmt s => exact s.nodes_mapInfo
  | expr e =>
    rw [mapInfo, nodes, nodes, Expr.nodes_mapInfo, List.map_map, List.map_map]
    rfl

theorem exists_of_unnumbered {m : Node} (h : m.unnumbered = n.unnumbered) :
    ∀ x ∈ n.nodes, ∃ y ∈ m.nodes, y.unnumbered = x.unnumbered := by
  intro x hx
  have hmem : x.unnumbered ∈ n.unnumbered.nodes := by
    rw [unnumbered, nodes_mapInfo]
    exact List.mem_map_of_mem hx
  rw [← h, unnumbered, nodes_mapInfo] at hmem
  exact List.mem_map.mp hmem

theorem nodes_subset {m : Node} (hm : m ∈ n.nodes) : m.nodes ⊆ n.nodes := by
  induction n using childrenInduction
  case h n ih =>
    rw [nodes_eq] at hm
    obtain rfl | hm := List.mem_cons.mp hm
    · exact List.Subset.refl _
    · obtain ⟨c, hc, hm⟩ := List.mem_flatMap.mp hm
      exact fun x hx => mem_nodes_of_mem_children hc (ih c hc hm hx)

-- Without statements inside, there are none further below.
theorem stmts_of_mem_nodes (h : n.stmts = []) : ∀ m ∈ n.nodes, m.stmts = [] := by
  have hexpr (e : Expr) : ∀ m ∈ (Node.expr e).nodes, m.stmts = [] :=
    List.forall_mem_map.mpr fun _ _ => rfl
  cases n with
  | stmt s =>
    have hchildren : (Node.stmt s).children = s.exprs.map expr := by
      have h : s.stmts = [] := h
      rw [children, h, List.map_nil, List.append_nil]
    rw [nodes_eq, hchildren]
    refine List.forall_mem_cons.mpr ⟨h, fun m hm => ?_⟩
    obtain ⟨_, he, hm⟩ := List.mem_flatMap.mp hm
    obtain ⟨e, -, rfl⟩ := List.mem_map.mp he
    exact hexpr e m hm
  | expr e => exact hexpr e

-- What holds of places from each node to its children holds from a node to all below it.
theorem forall_nodes_of_children {R : Location → Location → Prop}
    (htrans : ∀ {l m k}, R l m → R m k → R l k)
    (hself : ∀ p ∈ n.nodes, R p.info.location p.info.location)
    (hchild : ∀ p ∈ n.nodes, ∀ q ∈ p.children, R p.info.location q.info.location) :
    ∀ m ∈ n.nodes, R n.info.location m.info.location := by
  induction n using childrenInduction
  case h n ih =>
    have hn := hself n n.mem_nodes_self
    have hbelow := hchild n n.mem_nodes_self
    intro m hm
    rw [nodes_eq] at hm
    obtain rfl | hm := List.mem_cons.mp hm
    · exact hn
    · obtain ⟨c, hc, hm⟩ := List.mem_flatMap.mp hm
      exact htrans (hbelow c hc) (ih c hc (fun p hp => hself p (mem_nodes_of_mem_children hc hp))
        (fun p hp => hchild p (mem_nodes_of_mem_children hc hp)) m hm)

end Node

/-! ### Cells that were read -/

section

variable {source : String} {c : Cell} {n : Node}

theorem Cell.mem_nodes_of_mem_nodes (hn : n ∈ c.nodes) {m : Node} (hm : m ∈ n.nodes) : m ∈ c.nodes := by
  obtain ⟨s, hs, hn⟩ := List.mem_flatMap.mp hn
  exact mem_nodes_of_mem_body hs (Node.nodes_subset (n := .stmt s) hn hm)

theorem Cell.WellFormed.exists_between (h : c.WellFormed source) (hn : n ∈ c.nodes) :
    ∃ start stop, n.info.location = .between start stop ∧ start ≤ stop := by
  obtain ⟨start, stop, _, hlocation, hle, -⟩ := h.located n hn
  exact ⟨start, stop, hlocation, hle⟩

-- A node that holds no statements covers its children.
theorem Cell.SpansNest.covers_child (h : c.SpansNest source) (hn : n ∈ c.nodes) (hnone : n.stmts = []) :
    ∀ q ∈ n.children, n.info.location.Covers q.info.location := by
  cases n with
  | stmt s =>
    have hstmts : s.stmts = [] := hnone
    rw [Node.children, hstmts, List.map_nil, List.append_nil]
    exact List.forall_mem_map.mpr (h.stmts s hn).exprs
  | expr e => exact List.forall_mem_map.mpr (h.exprs e hn)

-- No child starts before the node it belongs to.
theorem Cell.SpansNest.leads_child (h : c.SpansNest source) (hwell : c.WellFormed source)
    (hn : n ∈ c.nodes) : ∀ q ∈ n.children, n.info.location.Leads q.info.location := by
  cases n with
  | stmt s =>
    have hs := h.stmts s hn
    refine List.forall_mem_append.mpr ⟨List.forall_mem_map.mpr fun e he => (hs.exprs e he).leads,
      List.forall_mem_map.mpr ?_⟩
    rw [Stmt.stmts, StmtForm.stmts_eq]
    refine List.forall_mem_append.mpr ⟨fun t ht => (hs.block t ht).leads, fun t ht => ?_⟩
    by_cases hfurther : s.info.location.StartsAt (tokenize source).tokens .elif_
    case pos =>
      obtain ⟨start, stop, hlocation, hle⟩ := hwell.exists_between hn
      have hlocation : s.info.location = .between start stop := hlocation
      have hprecedes := hs.further hfurther t ht
      rw [Node.info, hlocation] at *
      exact Location.Precedes.leads hle hprecedes
    case neg => exact (hs.orelse hfurther t ht).leads
  | expr e => exact List.forall_mem_map.mpr fun d hd => (h.exprs e hn d hd).leads

theorem parse_leads_nodes (h : parse source = .ok c) (hn : n ∈ c.nodes) :
    ∀ m ∈ n.nodes, n.info.location.Leads m.info.location := by
  have hwell := parse_wellFormed h
  refine Node.forall_nodes_of_children Location.Leads.trans (fun p hp => ?_) fun p hp =>
    (parse_spansNest h).leads_child hwell (Cell.mem_nodes_of_mem_nodes hn hp)
  obtain ⟨start, stop, hlocation, -⟩ := hwell.exists_between (Cell.mem_nodes_of_mem_nodes hn hp)
  rw [hlocation]
  exact Nat.le_refl start

theorem parse_covers_nodes (h : parse source = .ok c) (hn : n ∈ c.nodes)
    (hfurther : ∀ s, n = .stmt s → s.info.location.StartsAt (tokenize source).tokens .elif_ →
      s.form.orelse = []) :
    ∀ m ∈ n.nodes, n.info.location.Covers m.info.location := by
  have hwell := parse_wellFormed h
  have hplain (hnone : n.stmts = []) : ∀ m ∈ n.nodes, n.info.location.Covers m.info.location := by
    refine Node.forall_nodes_of_children Location.Covers.trans (fun p hp => ?_) fun p hp =>
      (parse_spansNest h).covers_child (Cell.mem_nodes_of_mem_nodes hn hp)
        (Node.stmts_of_mem_nodes hnone p hp)
    obtain ⟨start, stop, hlocation, -⟩ := hwell.exists_between (Cell.mem_nodes_of_mem_nodes hn hp)
    rw [hlocation]
    exact ⟨Nat.le_refl start, Nat.le_refl stop⟩
  cases n with
  | expr e => exact hplain rfl
  | stmt s =>
    obtain ⟨m, hsite, heq⟩ := exists_site h _ hn
    cases m with
    | expr => cases heq
    | stmt t =>
      have hlocation : t.info.location = s.info.location := (Node.info_of_unnumbered heq).1
      have hform : t.form.map (Expr.mapInfo (·.withId 0)) (Stmt.mapInfo (·.withId 0))
          = s.form.map (Expr.mapInfo (·.withId 0)) (Stmt.mapInfo (·.withId 0)) := by
        rw [← Stmt.form_mapInfo, ← Stmt.form_mapInfo, Node.stmt.inj heq]
      have horelse (hnone : s.form.orelse = []) : t.form.orelse = [] := by
        have hmap := congrArg StmtForm.orelse hform
        rw [StmtForm.orelse_map, StmtForm.orelse_map, hnone] at hmap
        exact List.map_eq_nil_iff.mp hmap
      obtain hnone | hcovers := StmtSite.covers_nodes (ordered_tokenize (of_parseTokens h).1) hsite
        fun hstarts => horelse (hfurther s rfl (hlocation ▸ hstarts))
      · refine hplain ?_
        have hmap := congrArg StmtForm.stmts hform
        have hnone : t.form.stmts = [] := hnone
        rw [StmtForm.stmts_map, StmtForm.stmts_map, hnone] at hmap
        exact List.map_eq_nil_iff.mp hmap.symm
      · intro x hx
        obtain ⟨y, hy, hxy⟩ := Node.exists_of_unnumbered heq x hx
        have hcover := hcovers y hy
        rwa [hlocation, (Node.info_of_unnumbered hxy).1] at hcover

end

/-! ### Forgetting ends -/

-- The node without the ends that are lost from the nodes of its id.
def NodeInfo.forget (lost : End → Nat → Bool) (info : NodeInfo) : NodeInfo :=
  info.withLocation ⟨if lost .start info.id then none else info.location.start,
    if lost .stop info.id then none else info.location.stop⟩

def Cell.forget (lost : End → Nat → Bool) (c : Cell) : Cell :=
  { c with body := c.body.map (Stmt.mapInfo (NodeInfo.forget lost)) }

section

variable {source : String} {c : Cell} {lost : End → Nat → Bool}

theorem Cell.nodes_forget : (c.forget lost).nodes = c.nodes.map (Node.mapInfo (NodeInfo.forget lost)) := by
  rw [nodes, nodes, forget, List.flatMap_map, List.map_flatMap]
  exact List.flatMap_congr fun s _ => s.nodes_mapInfo

theorem NodeInfo.known_forget (info : NodeInfo) (side : End) : (info.forget lost).location.known side
    = if lost side info.id then none else info.location.known side := by
  cases side <;> rfl

theorem NodeInfo.of_known_forget {info : NodeInfo} {side : End} {k : Nat}
    (h : (info.forget lost).location.known side = some k) :
    lost side info.id = false ∧ info.location.known side = some k := by
  rw [known_forget] at h
  cases hlost : lost side info.id with
  | true =>
    rw [hlost] at h
    cases h
  | false =>
    rw [hlost] at h
    exact ⟨rfl, h⟩

-- An end that is left was there before.
theorem Node.exists_of_mem_known_forget {n : Node} {side : End} {k : Nat}
    (h : k ∈ (n.mapInfo (NodeInfo.forget lost)).known side) :
    ∃ m ∈ n.nodes, m.info.location.known side = some k := by
  obtain ⟨_, hmem, hk⟩ := mem_known.mp h
  rw [nodes_mapInfo] at hmem
  obtain ⟨m, hm, rfl⟩ := List.mem_map.mp hmem
  rw [info_mapInfo] at hk
  exact ⟨m, hm, (NodeInfo.of_known_forget hk).2⟩

-- The ends that are left in a cell that was read agree, unless a further condition that falls back on
-- something has lost its start and not its stop.
theorem encloses_forget (h : parse source = .ok c)
    (hfurther : ∀ s, .stmt s ∈ c.nodes → s.info.location.StartsAt (tokenize source).tokens .elif_ →
      s.form.orelse ≠ [] → lost .start s.info.id → lost .stop s.info.id) :
    ∀ n ∈ (c.forget lost).nodes, n.Encloses := by
  have hwell := parse_wellFormed h
  rw [Cell.nodes_forget]
  refine List.forall_mem_map.mpr fun n hn => ?_
  obtain ⟨nstart, nstop, hplace, -⟩ := hwell.exists_between hn
  -- What is left in the node was left in a node below it.
  have hbelow {side : End} {k : Nat} (hk : k ∈ (n.mapInfo (NodeInfo.forget lost)).known side) :
      ∃ m ∈ n.nodes, ∃ start stop, m.info.location = .between start stop ∧ start ≤ stop
        ∧ (Location.between start stop).known side = some k := by
    obtain ⟨m, hm, hknown⟩ := Node.exists_of_mem_known_forget hk
    obtain ⟨start, stop, hlocation, hle⟩ := hwell.exists_between (Cell.mem_nodes_of_mem_nodes hn hm)
    exact ⟨m, hm, start, stop, hlocation, hle, hlocation ▸ hknown⟩
  refine ⟨fun start hstart stop hstop => ?_, fun hlost stop hstop start hstart => ?_⟩
  · rw [Node.info_mapInfo] at hstart
    obtain ⟨-, hstart⟩ := @NodeInfo.of_known_forget lost _ .start _ hstart
    rw [hplace] at hstart
    obtain rfl := Option.some.inj hstart
    obtain ⟨m, hm, mstart, mstop, hlocation, hle, hknown⟩ := hbelow hstop
    obtain rfl := Option.some.inj hknown
    have hleads := parse_leads_nodes h hn m hm
    rw [hplace, hlocation] at hleads
    exact Nat.le_trans hleads hle
  · rw [Node.info_mapInfo] at hlost hstop
    obtain ⟨hkept, hstop⟩ := @NodeInfo.of_known_forget lost _ .stop _ hstop
    rw [hplace] at hstop
    obtain rfl := Option.some.inj hstop
    obtain ⟨m, hm, mstart, mstop, hlocation, hle, hknown⟩ := hbelow hstart
    obtain rfl := Option.some.inj hknown
    have hlost : lost .start n.info.id := by
      by_contra hkeeps
      have hknown : (n.info.forget lost).location.known .start = none := hlost
      rw [NodeInfo.known_forget, if_neg hkeeps, hplace] at hknown
      cases hknown
    have hcovers := parse_covers_nodes h hn (fun s hs hstarts => by
      subst hs
      by_contra hfalls
      exact Bool.false_ne_true (hkept.symm.trans (hfurther s hn hstarts hfalls hlost))) m hm
    rw [hplace, hlocation] at hcovers
    exact Nat.le_trans hle hcovers.2

-- Where some ends of a cell that was read were forgotten, completing locations leaves all places
-- upright exactly if nothing is out of place.
theorem upright_repair_forget (h : parse source = .ok c)
    (hfurther : ∀ s, .stmt s ∈ c.nodes → s.info.location.StartsAt (tokenize source).tokens .elif_ →
      s.form.orelse ≠ [] → lost .start s.info.id → lost .stop s.info.id) :
    (∀ n ∈ (c.forget lost).repair.nodes, n.info.location.Upright) ↔ (c.forget lost).Placed :=
  Cell.upright_repair_iff (encloses_forget h hfurther)

-- The second condition, what stands in it and what it falls back on do not know where they stop.
theorem upright_repair_forget_further : ∃ c, parse "if a: b\nelif c: d\nelse: e\n" = .ok c
    ∧ (c.forget fun side id => side = .stop && 4 ≤ id).repair.missingLocations = []
    ∧ (∀ n ∈ (c.forget fun side id => side = .stop && 4 ≤ id).repair.nodes, n.info.location.Upright)
    ∧ (c.forget fun side id => side = .stop && 4 ≤ id).Placed := by
  have hupright : (parse "if a: b\nelif c: d\nelse: e\n").toOption.any (fun c =>
      ∀ n ∈ (c.forget fun side id => side = .stop && 4 ≤ id).repair.nodes,
        n.info.location.Upright) = true := by decide +kernel
  cases hparse : parse "if a: b\nelif c: d\nelse: e\n" with
  | error e =>
    rw [hparse] at hupright
    cases hupright
  | ok c =>
    rw [hparse] at hupright
    have hupright := of_decide_eq_true hupright
    refine ⟨c, rfl, Cell.missingLocations_repair _, hupright, ?_⟩
    exact (upright_repair_forget hparse fun s _ _ _ hstart => by cases hstart).mp hupright

-- What is added takes its start from its right operand, and its left operand stops before it.
theorem not_upright_repair_sum : ∃ c, parse "a + b\n" = .ok c
    ∧ ∃ n ∈ (c.forget fun side id => side = .start && (id = 1 || id = 2)).repair.nodes,
      n.info.location = .between 4 1 ∧ ¬ n.info.location.Upright := by
  have hturned : (parse "a + b\n").toOption.any (fun c =>
      ∃ n ∈ (c.forget fun side id => side = .start && (id = 1 || id = 2)).repair.nodes,
        n.info.location = .between 4 1 ∧ ¬ n.info.location.Upright) = true := by decide +kernel
  cases hparse : parse "a + b\n" with
  | error e =>
    rw [hparse] at hturned
    cases hturned
  | ok c =>
    rw [hparse] at hturned
    exact ⟨c, rfl, of_decide_eq_true hturned⟩

-- Places that are forgotten whole leave nothing out of place.
theorem upright_repair_forget_whole (h : parse source = .ok c)
    (hwhole : ∀ id, lost .start id = lost .stop id) :
    ∀ n ∈ (c.forget lost).repair.nodes, n.info.location.Upright := by
  have hwell := parse_wellFormed h
  have hother (side : End) (id : Nat) : lost side.other id = lost side id := by
    cases side with
    | start => exact (hwhole id).symm
    | stop => exact hwhole id
  -- A node that knows one end knows the other.
  have hknown {n : Node} (hn : n ∈ c.nodes) (side : End)
      (hnone : (n.mapInfo (NodeInfo.forget lost)).known side = []) :
      (n.mapInfo (NodeInfo.forget lost)).known side.other = [] := by
    refine List.filterMap_eq_nil_iff.mpr fun m' hm' => ?_
    have hlost := List.filterMap_eq_nil_iff.mp hnone m' hm'
    rw [Node.nodes_mapInfo] at hm'
    obtain ⟨m, hm, rfl⟩ := List.mem_map.mp hm'
    obtain ⟨start, stop, hlocation, -⟩ := hwell.exists_between (Cell.mem_nodes_of_mem_nodes hn hm)
    rw [Node.info_mapInfo, NodeInfo.known_forget, hlocation] at hlost ⊢
    rw [hother]
    cases hlost' : lost side m.info.id with
    | true => rfl
    | false =>
      rw [hlost'] at hlost
      cases side <;> cases hlost
  have hplaced {around : Location} {n : Node} (hn : n ∈ (c.forget lost).nodes) :
      ¬ around.Misplaces n := by
    rw [Cell.nodes_forget] at hn
    obtain ⟨m, hm, rfl⟩ := List.mem_map.mp hn
    rintro ⟨side, hnone, -, -, j, hj, -⟩
    rw [hknown hm side hnone] at hj
    cases hj
  refine (Cell.upright_repair_iff (encloses_forget h fun s _ _ _ hstart => ?_)).mpr
    ⟨fun s hs => hplaced (Cell.mem_nodes_of_mem_body hs (Node.mem_nodes_self _)), fun p hp q hq => ?_⟩
  · exact (hwhole s.info.id).symm.trans hstart
  · exact hplaced (Cell.mem_nodes_of_mem_nodes hp (Node.mem_nodes_of_mem_children hq q.mem_nodes_self))

end

end NoteCell
