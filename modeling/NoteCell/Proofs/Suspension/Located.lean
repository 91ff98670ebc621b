import NoteCell.Proofs.Suspension.Insertion
import NoteCell.Proofs.Tree.Completed
import NoteCell.Proofs.Tree.Nodes

/-!
Places of the awaits that are put in. An await starts where its call does and does not know where it
ends. However often suspension points are put in, it stands right above a call that was read, whose
place is known, so that completing locations gives it the place of its call.
-/
namespace NoteCell

def ExprForm.isCall {α : Type} : ExprForm α → Bool
  | call .. => true
  | _ => false

-- An expression that was read has its place, and any other is an await at the start of a call.
structure Expr.Traced (limit : Nat) (e : Expr) : Prop where
  read : e.info.id < limit → e.info.location.isComplete
  added : limit ≤ e.info.id → ∃ call, e.form = .await call ∧ call.form.isCall ∧ call.info.id < limit
    ∧ call.info.location.isComplete ∧ e.info.location = ⟨call.info.location.start, none⟩

variable {p : String} {limit : Nat}

theorem Expr.isCall_of_calls {info : NodeInfo} {form : ExprForm Expr} (h : (node info form).calls p) :
    form.isCall := by
  cases form with
  | call => rfl
  | _ => cases h

theorem ExprForm.isCall_map {α β : Type} (f : α → β) (form : ExprForm α) :
    (form.map f).isCall = form.isCall := by
  cases form <;> rfl

theorem Expr.isCall_traverse (inAwait : Bool) (form : ExprForm Expr) (n : Nat) :
    ((form.traverse (suspend p inAwait)).run n).1.isCall = form.isCall := by
  rw [← ExprForm.isCall_map bare, bare_traverse, ExprForm.isCall_map, ExprForm.isCall_map]

-- Below an await, a node stays what it is.
theorem Expr.suspend_awaited (call : Expr) (n : Nat) :
    ((call.suspend p true).run n).1.info = call.info
      ∧ ((call.suspend p true).run n).1.form.isCall = call.form.isCall := by
  obtain ⟨info, form⟩ := call
  rw [run_suspend]
  exact ⟨rfl, isCall_traverse _ form n⟩

-- Each of several passes starts with ids enough above the limit if the first of them does.
theorem List.exists_of_mem_run_mapM_above {α β γ : Type} {f : α → StateM Nat β} {ids : α → List γ}
    {l : List α} {n : Nat} {b : β} (hspends : ∀ a ∈ l, Spends (f a) (ids a).length)
    (hn : limit + (l.flatMap ids).length ≤ n) (h : b ∈ ((l.mapM f).run n).1) :
    ∃ a ∈ l, ∃ k, limit + (ids a).length ≤ k ∧ b = ((f a).run k).1 := by
  induction l generalizing n
  case nil => cases h
  case cons a l ih =>
    rw [List.flatMap_cons, List.length_append] at hn
    rw [List.run_mapM_cons, hspends a List.mem_cons_self n] at h
    obtain rfl | h := List.mem_cons.mp h
    · exact ⟨a, List.mem_cons_self, n, by omega, rfl⟩
    · obtain ⟨c, hc, k, hk, hb⟩ :=
        ih (fun c hc => hspends c (List.mem_cons_of_mem _ hc)) (by omega) h
      exact ⟨c, List.mem_cons_of_mem _ hc, k, hk, hb⟩

theorem Expr.traced_suspend (e : Expr) {inAwait : Bool} {n : Nat}
    (hn : limit + (e.pending p inAwait).length ≤ n) (h : ∀ x ∈ e.nodes, x.Traced limit) :
    ∀ x ∈ ((e.suspend p inAwait).run n).1.nodes, x.Traced limit := by
  induction e using childrenInduction generalizing inAwait n
  case h info form ih =>
    rw [nodes_node, List.forall_mem_cons] at h
    obtain ⟨here, hbelow⟩ := h
    have hspends (c : Expr) (_ : c ∈ form.children) :
        Spends (c.suspend p (inAwait || form.isAwait)) (c.pending p (inAwait || form.isAwait)).length :=
      c.spends_suspend _
    rw [pending_node] at hn
    have hroom : limit + (form.children.flatMap (pending p (inAwait || form.isAwait))).length ≤ n := by
      split at hn
      · exact Nat.le_of_succ_le hn
      · exact hn
    have hchildren (x : Expr)
        (hx : x ∈ ((form.traverse (suspend p (inAwait || form.isAwait))).run n).1.children.flatMap nodes) :
        x.Traced limit := by
      rw [(ExprForm.run_traverse _ _ _).1] at hx
      obtain ⟨c', hc', hx⟩ := List.mem_flatMap.mp hx
      obtain ⟨c, hc, k, hk, rfl⟩ := List.exists_of_mem_run_mapM_above hspends hroom hc'
      exact ih c hc hk (fun y hy => hbelow y (List.mem_flatMap.mpr ⟨c, hc, hy⟩)) x hx
    -- The node itself keeps what is known of it.
    have hnode : (node info ((form.traverse (suspend p (inAwait || form.isAwait))).run n).1).Traced limit := by
      refine ⟨here.read, fun hid => ?_⟩
      obtain ⟨call, hform, hcall, hplace⟩ := here.added hid
      obtain rfl : form = .await call := hform
      obtain ⟨hinfo, hisCall⟩ := call.suspend_awaited (p := p) n
      rw [ExprForm.isAwait, Bool.or_true]
      exact ⟨((call.suspend p true).run n).1, rfl, hisCall.trans hcall, hinfo.symm ▸ hplace⟩
    rw [run_suspend]
    dsimp only
    split
    case isTrue hcalls =>
      have hstate := Spends.mapM hspends n
      rw [← (ExprForm.run_traverse _ _ _).2] at hstate
      have hcall := isCall_of_calls (Bool.and_eq_true_iff.mp hcalls).2
      have hread : info.id < limit := by
        by_contra hid
        obtain ⟨call, hform, -⟩ := here.added (Nat.le_of_not_lt hid)
        obtain rfl : form = .await call := hform
        cases hcall
      rw [if_pos hcalls, List.length_cons] at hn
      rw [awaited, nodes_node]
      refine List.forall_mem_cons.mpr ⟨⟨fun hid => ?_, fun _ => ?_⟩, fun x hx => ?_⟩
      · have hid' : ((form.traverse (suspend p (inAwait || form.isAwait))).run n).2 - 1 < limit := hid
        rw [hstate] at hid'
        omega
      · exact ⟨_, rfl, (isCall_traverse _ form n).trans hcall, hread, here.read hread, rfl⟩
      · obtain ⟨c, hc, hx⟩ := List.mem_flatMap.mp hx
        obtain rfl := List.mem_singleton.mp hc
        rw [nodes_node] at hx
        obtain rfl | hx := List.mem_cons.mp hx
        · exact hnode
        · exact hchildren x hx
    case isFalse =>
      rw [nodes_node]
      exact List.forall_mem_cons.mpr ⟨hnode, hchildren⟩

theorem Stmt.traced_suspend (s : Stmt) {n : Nat} (hn : limit + (s.pending p).length ≤ n)
    (h : ∀ x, .expr x ∈ s.nodes → x.Traced limit) :
    ∀ x, .expr x ∈ ((s.suspend p).run n).1.nodes → x.Traced limit := by
  induction s using stmtsInduction generalizing n
  case h info form ih =>
    rw [pending_node, List.length_append] at hn
    have hexpr {form : StmtForm Stmt} {x : Expr} : .expr x ∈ (node info form).nodes
        ↔ x ∈ form.exprs.flatMap Expr.nodes ∨ .expr x ∈ form.stmts.flatMap nodes := by
      simp [nodes_node]
    have hspends (e : Expr) (_ : e ∈ form.exprs) : Spends (e.suspend p false) (e.pending p false).length :=
      e.spends_suspend false
    have hspends' (s : Stmt) (_ : s ∈ form.stmts) : Spends (s.suspend p) (s.pending p).length :=
      s.spends_suspend
    have hroom : limit + (form.exprs.flatMap (Expr.pending p false)).length ≤ n := by omega
    have hroom' : limit + (form.stmts.flatMap (pending p)).length
        ≤ n - (form.exprs.flatMap (Expr.pending p false)).length := by omega
    obtain ⟨hexprs, hstmts, -⟩ := StmtForm.run_traverse (Expr.suspend p false) (suspend p) form n
    rw [Spends.mapM hspends] at hstmts
    intro x hx
    rw [run_suspend, hexpr, hexprs, hstmts] at hx
    obtain hx | hx := hx
    · obtain ⟨e', he', hx⟩ := List.mem_flatMap.mp hx
      obtain ⟨e, he, k, hk, rfl⟩ := List.exists_of_mem_run_mapM_above hspends hroom he'
      exact e.traced_suspend hk
        (fun y hy => h y (hexpr.mpr (.inl (List.mem_flatMap.mpr ⟨e, he, hy⟩)))) x hx
    · obtain ⟨s', hs', hx⟩ := List.mem_flatMap.mp hx
      obtain ⟨s, hs, k, hk, rfl⟩ := List.exists_of_mem_run_mapM_above hspends' hroom' hs'
      exact ih s hs hk (fun y hy => h y (hexpr.mpr (.inr (List.mem_flatMap.mpr ⟨s, hs, hy⟩)))) x hx

namespace Cell

variable {c : Cell}

def Traced (limit : Nat) (c : Cell) : Prop := ∀ e, .expr e ∈ c.nodes → e.Traced limit

theorem traced_suspend (h : c.Traced limit) (hnext : limit ≤ c.nextId) : (c.suspend p).Traced limit := by
  intro e he
  obtain ⟨s', hs', he⟩ := List.mem_flatMap.mp he
  obtain ⟨s, hs, k, hk, rfl⟩ := List.exists_of_mem_run_mapM_above
    (fun s _ => s.spends_suspend (p := p)) (Nat.add_le_add_right hnext _) hs'
  exact s.traced_suspend hk (fun x hx => h x (List.mem_flatMap.mpr ⟨s, hs, hx⟩)) e he

-- Any number of times.
theorem traced_suspends (h : c.Traced limit) (hnext : limit ≤ c.nextId) (primitives : List String) :
    (primitives.foldl (fun d p => d.suspend p) c).Traced limit := by
  induction primitives generalizing c
  case nil => exact h
  case cons p ps ih =>
    exact ih (traced_suspend h hnext) (Nat.le_trans hnext (Nat.le_add_right _ _))

theorem traced_of_parse {source : String} (h : parse source = .ok c) : c.Traced c.nextId := by
  have hwell := parse_wellFormed h
  intro e he
  refine ⟨fun _ => ?_, fun hid => absurd hid (Nat.not_le.mpr ?_)⟩
  · obtain ⟨start, stop, -, hlocation, -⟩ := hwell.located _ he
    exact (congrArg Location.isComplete hlocation).trans rfl
  · have hmem := List.mem_map_of_mem (f := (·.info.id)) he
    rw [hwell.ids] at hmem
    exact List.mem_range.mp hmem

end Cell

-- An await at the start of a call comes to stand where the call does.
theorem Expr.Traced.repair {e : Expr} (h : e.Traced limit) (hid : limit ≤ e.info.id) (around : Location) :
    ∃ call, (e.repair around).form = .await call ∧ call.form.isCall ∧ call.info.id < limit
      ∧ (e.repair around).info.location = call.info.location := by
  obtain ⟨info, form⟩ := e
  obtain ⟨call, hform, hcall, hlt, hcomplete, hlocation⟩ := h.added hid
  obtain rfl : form = .await call := hform
  obtain ⟨⟨id, place, nesting⟩, form⟩ := call
  have hcomplete : place.isComplete := hcomplete
  have hcovered : (node ⟨id, place, nesting⟩ form).covered = place := by
    rw [covered_node, Location.orElse_of_isComplete hcomplete]
  have hcall' : ((node ⟨id, place, nesting⟩ form).repair place).form.isCall := by
    rw [repair_node]
    exact (ExprForm.isCall_map _ form).trans hcall
  have hplace : ((node ⟨id, place, nesting⟩ form).repair place).info.location = place := by
    rw [repair_node, hcovered, Location.orElse_of_isComplete hcomplete]
    rfl
  have hown : (node info (.await (node ⟨id, place, nesting⟩ form))).covered.orElse around = place := by
    have hlocation : info.location = ⟨place.start, none⟩ := hlocation
    rw [covered_node, hlocation, ExprForm.children, List.map_singleton, hcovered]
    obtain ⟨hstart, hstop⟩ := (Bool.and_eq_true _ _).mp hcomplete
    obtain ⟨start, hstart⟩ := Option.isSome_iff_exists.mp hstart
    obtain ⟨stop, hstop⟩ := Option.isSome_iff_exists.mp hstop
    obtain rfl : place = .between start stop := congrArg₂ Location.mk hstart hstop
    rfl
  refine ⟨(node ⟨id, place, nesting⟩ form).repair place, ?_, hcall', ?_, ?_⟩
  · rw [repair_node, hown]
    rfl
  · rw [repair_node]
    exact hlt
  · rw [hplace, repair_node, hown]
    rfl

-- Whatever is known of a tree, completing it leaves nothing unknown and changes nothing else. In a
-- tree that was read, the awaits that were put in get the places of their calls.
theorem Cell.completes_repair_suspended :
    (∀ c : Cell, c.Completes c.repair)
    ∧ ∀ source c, parse source = .ok c → ∀ primitives : List String, ∀ e,
      .expr e ∈ (primitives.foldl (fun d p => d.suspend p) c).repair.nodes → c.nextId ≤ e.info.id →
      ∃ call, e.form = .await call ∧ call.form.isCall ∧ call.info.id < c.nextId
        ∧ e.info.location = call.info.location := by
  refine ⟨completes_repair, fun source c h primitives e he hid => ?_⟩
  have htraced := traced_suspends (traced_of_parse h) (Nat.le_refl _) primitives
  obtain ⟨n, hn, around, heq⟩ := exists_of_mem_nodes_repair he
  cases n with
  | stmt => cases heq
  | expr e' =>
    obtain rfl : e = e'.repair around := Node.expr.inj heq
    have hid' : (e'.repair around).info.id = e'.info.id := by
      cases e'
      rw [Expr.repair_node]
      rfl
    exact (htraced e' hn).repair (hid' ▸ hid) around

-- An await in the call of another, each put in by a pass of its own.
theorem Cell.completes_repair_suspended_nested : ∃ c, parse "ask(input('a'))" = .ok c
    ∧ ((["input", "ask"].foldl (fun d p => d.suspend p) c).repair.nodes.filter
        fun n => c.nextId ≤ n.info.id).map (·.info.location) = [.between 0 15, .between 4 14]
    ∧ ∀ e, .expr e ∈ (["input", "ask"].foldl (fun d p => d.suspend p) c).repair.nodes →
      c.nextId ≤ e.info.id → ∃ call, e.form = .await call ∧ call.form.isCall ∧ call.info.id < c.nextId
        ∧ e.info.location = call.info.location := by
  have hplaces : (parse "ask(input('a'))").toOption.any (fun c =>
      ((["input", "ask"].foldl (fun d p => d.suspend p) c).repair.nodes.filter
        fun n => c.nextId ≤ n.info.id).map (·.info.location) = [.between 0 15, .between 4 14]) = true := by
    decide +kernel
  cases hparse : parse "ask(input('a'))" with
  | error e =>
    rw [hparse] at hplaces
    cases hplaces
  | ok c =>
    rw [hparse] at hplaces
    exact ⟨c, rfl, of_decide_eq_true hplaces, completes_repair_suspended.2 _ c hparse ["input", "ask"]⟩

end NoteCell
