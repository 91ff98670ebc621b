import NoteCell.Proofs.Grammar.Moved

/-!
What actions build, but for places. Where its tokens stand decides nothing about a tree but the
places of its nodes, and nothing about what is wrong with it.
-/
namespace NoteCell

/-! ### Trees without places -/

section

variable {f : NodeInfo → NodeInfo} (e : Expr)

theorem Expr.describe_mapInfo : (e.mapInfo f).describe = e.describe := by
  rw [describe, describe, form_mapInfo]
  cases e.form <;> rfl

theorem Expr.isPlace_mapInfo : (e.mapInfo f).isPlace = e.isPlace := by
  rw [isPlace, isPlace, form_mapInfo]
  cases e.form <;> rfl

end

mutual

theorem Expr.unassignable?_mapInfo {f : NodeInfo → NodeInfo} (e : Expr) :
    (e.mapInfo f).unassignable? = e.unassignable?.map (mapInfo f) := by
  match e with
  | .node info form =>
    rw [mapInfo_node]
    cases form
    case list items | tuple items =>
      simp only [ExprForm.map, unassignable?]
      exact Expr.firstUnassignable?_mapInfo items
    all_goals simp [ExprForm.map, unassignable?, mapInfo_node]

theorem Expr.firstUnassignable?_mapInfo {f : NodeInfo → NodeInfo} (es : List Expr) :
    firstUnassignable? (es.map (mapInfo f)) = (firstUnassignable? es).map (mapInfo f) := by
  match es with
  | [] => rfl
  | e :: es =>
    simp only [List.map_cons, firstUnassignable?]
    rw [e.unassignable?_mapInfo, firstUnassignable?_mapInfo es]
    cases e.unassignable? <;> rfl

end

def Expr.placeless : Expr → Expr := mapInfo .placeless

theorem Expr.placeless_node (info : NodeInfo) (form : ExprForm Expr) :
    placeless (node info form) = node info.placeless (form.map placeless) :=
  mapInfo_node info form

theorem Expr.form_placeless (e : Expr) : e.placeless.form = e.form.map placeless := e.form_mapInfo

@[simp] theorem Expr.nesting_placeless (e : Expr) : e.placeless.info.nesting = e.info.nesting := by
  cases e
  rw [placeless_node]
  rfl

def Stmt.placeless : Stmt → Stmt := mapInfo .placeless

theorem Stmt.placeless_node (info : NodeInfo) (form : StmtForm Stmt) :
    placeless (node info form) = node info.placeless (form.map Expr.placeless placeless) :=
  mapInfo_node info form

@[simp] theorem Stmt.nesting_placeless (s : Stmt) : s.placeless.info.nesting = s.info.nesting := by
  cases s
  rw [placeless_node]
  rfl

namespace Grammar

def placelessArgument : Argument → Argument
  | .positional value => .positional value.placeless
  | .keyword name value => .keyword name value.placeless

def placelessParam (p : Param) : Param := ⟨p.name, p.default?.map .placeless⟩

def placelessClause (c : Clause) : Clause :=
  ⟨.unknown, c.test.placeless, c.body.map .placeless⟩

-- What is built from a nonterminal, without its places.
def Symbol.placeless : (s : Symbol) → s.Value → s.Value
  | level _ => Expr.placeless
  | comparisons => List.map fun (op, e) => (op, e.placeless)
  | argument => placelessArgument
  | entry => fun (k, v) => (k.placeless, v.placeless)
  | parameter => placelessParam
  | comma item => List.map item.placeless

/-! ### Results that are alike -/

-- Results that are the same but for what a function drops of them.
def Alike {α β : Type} (g : α → β) (x y : Except SyntaxFault α) : Prop := x.map g = y.map g

section

variable {α β γ δ : Type} {g : α → γ} {g' : β → δ} {x x' : Except SyntaxFault α}

theorem Alike.ok {a a' : α} (h : g a' = g a) : Alike g (.ok a') (.ok a) := congrArg Except.ok h

theorem Alike.bind {k k' : α → Except SyntaxFault β} (hx : Alike g x' x)
    (hk : ∀ a a', g a' = g a → Alike g' (k' a') (k a)) : Alike g' (x' >>= k') (x >>= k) := by
  cases x' <;> cases x
  case ok.ok a' a => exact hk a a' (Except.ok.inj hx)
  case error.error e' e =>
    obtain rfl : e' = e := Except.error.inj hx
    rfl
  all_goals cases hx

theorem Alike.of_ok {a : α} (h : Alike g x' (.ok a)) : ∃ a', x' = .ok a' ∧ g a' = g a := by
  cases x' with
  | error e => cases h
  | ok a' => exact ⟨a', rfl, Except.ok.inj h⟩

end

/-! ### Actions -/

section

variable (l : Location)

theorem makeExpr_placeless (form : ExprForm Expr) :
    (makeExpr l form).map .placeless = makeExpr .unknown (form.map .placeless) := by
  have hnesting : (form.map Expr.placeless).children.map (·.info.nesting)
      = form.children.map (·.info.nesting) := by
    simp [ExprForm.children_map, Function.comp_def]
  have hbuild : (Expr.build form l).placeless = Expr.build (form.map .placeless) .unknown := by
    rw [Expr.build, Expr.placeless_node, Expr.build, hnesting]
    rfl
  have hdepth : (Expr.build form l).info.nesting
      = (Expr.build (form.map .placeless) .unknown).info.nesting := by
    rw [← hbuild, Expr.nesting_placeless]
  rw [makeExpr, makeExpr, hdepth, ← hbuild]
  split <;> rfl

theorem makeStmt_placeless (form : StmtForm Stmt) :
    (makeStmt l form).map .placeless = makeStmt .unknown (form.map .placeless .placeless) := by
  have hexprs : (form.map Expr.placeless Stmt.placeless).exprs.map (·.info.nesting)
      = form.exprs.map (·.info.nesting) := by
    simp [StmtForm.exprs_map, Function.comp_def]
  have hstmts : (form.map Expr.placeless Stmt.placeless).stmts.map (·.info.nesting)
      = form.stmts.map (·.info.nesting) := by
    simp [StmtForm.stmts_map, Function.comp_def]
  have hbuild : (Stmt.build form l).placeless
      = Stmt.build (form.map .placeless .placeless) .unknown := by
    rw [Stmt.build, Stmt.placeless_node, Stmt.build, hexprs, hstmts]
    rfl
  have hdepth : (Stmt.build form l).info.nesting
      = (Stmt.build (form.map .placeless .placeless) .unknown).info.nesting := by
    rw [← hbuild, Stmt.nesting_placeless]
  rw [makeStmt, makeStmt, hdepth, ← hbuild]
  split <;> rfl

theorem makeKeyword_placeless (target value : Expr) : (makeKeyword target value).map placelessArgument
    = makeKeyword target.placeless value.placeless := by
  rw [makeKeyword, makeKeyword, Expr.form_placeless]
  cases target.form <;> rfl

def placelessKeyword (k : String × Expr) : String × Expr := (k.1, k.2.placeless)

theorem splitArguments_placeless (args : List Expr) (keywords : List (String × Expr))
    (given : List Argument) :
    (splitArguments args keywords given).map (Prod.map (List.map .placeless) (List.map placelessKeyword))
      = splitArguments (args.map .placeless) (keywords.map placelessKeyword)
          (given.map placelessArgument) := by
  induction given generalizing args keywords
  case nil => rfl
  case cons a given ih =>
    cases a with
    | positional value =>
      rw [List.map_cons, placelessArgument, splitArguments, splitArguments, List.isEmpty_map]
      split
      case isTrue => rw [ih, List.map_append]; rfl
      case isFalse => rfl
    | keyword name value =>
      have hany : (keywords.map placelessKeyword).any (·.1 = name) = keywords.any (·.1 = name) :=
        List.any_map
      rw [List.map_cons, placelessArgument, splitArguments, splitArguments, hany]
      split
      case isTrue => rfl
      case isFalse => rw [ih, List.map_append]; rfl

theorem makeCall_placeless (func : Expr) (given : List Argument) :
    (makeCall l func given).map .placeless
      = makeCall .unknown func.placeless (given.map placelessArgument) := by
  have hsplit : (splitArguments [] [] given).map _ = splitArguments [] [] (given.map _) :=
    splitArguments_placeless [] [] given
  rw [makeCall, makeCall, ← hsplit]
  cases splitArguments [] [] given with
  | error e => rfl
  | ok split => exact makeExpr_placeless l (.call func split.1 split.2)

theorem findSome?_placeless (targets : List Expr) :
    (targets.map Expr.placeless).findSome? Expr.unassignable?
      = (targets.findSome? Expr.unassignable?).map .placeless := by
  induction targets
  case nil => rfl
  case cons t ts ih =>
    have ht : t.placeless.unassignable? = t.unassignable?.map .placeless := t.unassignable?_mapInfo
    rw [List.map_cons, List.findSome?_cons, List.findSome?_cons, ht, ih]
    cases t.unassignable? <;> rfl

theorem makeAssignment_placeless (first : Expr) (rest : List Expr) :
    (makeAssignment l first rest).map .placeless
      = makeAssignment .unknown first.placeless (rest.map .placeless) := by
  rw [makeAssignment, makeAssignment, List.getLast?_map]
  cases rest.getLast? with
  | none => exact makeStmt_placeless l (.expr first)
  | some value =>
    have hfind := findSome?_placeless (first :: rest.dropLast)
    rw [List.map_cons, List.map_dropLast] at hfind
    simp only [Option.map_some, hfind]
    cases (first :: rest.dropLast).findSome? Expr.unassignable? with
    | some part => exact congrArg (Except.error ∘ SyntaxFault.assignTo) part.describe_mapInfo.symm
    | none =>
      rw [← List.map_dropLast]
      exact makeStmt_placeless l (.assign (first :: rest.dropLast) value)

theorem makeAugmented_placeless (target : Expr) (op : BinaryOp) (value : Expr) :
    (makeAugmented l target op value).map .placeless
      = makeAugmented .unknown target.placeless op value.placeless := by
  have hplace : target.placeless.isPlace = target.isPlace := target.isPlace_mapInfo
  have hdescribe : target.placeless.describe = target.describe := target.describe_mapInfo
  rw [makeAugmented, makeAugmented, hplace, hdescribe]
  split
  case isTrue => exact makeStmt_placeless l (.augAssign target op value)
  case isFalse => rfl

theorem chain_placeless (orelse : List Stmt) (cs : List Clause) :
    (chain orelse cs).map (List.map .placeless)
      = chain (orelse.map .placeless) (cs.map placelessClause) := by
  induction cs
  case nil => rfl
  case cons c cs ih =>
    rw [List.map_cons, chain, chain, ← ih]
    cases chain orelse cs with
    | error e => rfl
    | ok rest =>
      have hmake : _ = makeStmt .unknown (.ifElse c.test.placeless _ _) :=
        makeStmt_placeless c.location (.ifElse c.test c.body rest)
      simp only [Except.map, ok_bind, placelessClause, ← hmake]
      cases makeStmt c.location (.ifElse c.test c.body rest) <;> rfl

end

section

variable {l l' : Location}

theorem makeExpr_alike {form form' : ExprForm Expr}
    (h : form'.map Expr.placeless = form.map Expr.placeless) :
    Alike Expr.placeless (makeExpr l' form') (makeExpr l form) := by
  rw [Alike, makeExpr_placeless, makeExpr_placeless, h]

theorem makeStmt_alike {form form' : StmtForm Stmt}
    (h : form'.map Expr.placeless Stmt.placeless = form.map Expr.placeless Stmt.placeless) :
    Alike Stmt.placeless (makeStmt l' form') (makeStmt l form) := by
  rw [Alike, makeStmt_placeless, makeStmt_placeless, h]

theorem makeKeyword_alike {target target' value value' : Expr}
    (ht : target'.placeless = target.placeless) (hv : value'.placeless = value.placeless) :
    Alike placelessArgument (makeKeyword target' value') (makeKeyword target value) := by
  rw [Alike, makeKeyword_placeless, makeKeyword_placeless, ht, hv]

theorem makeCall_alike {func func' : Expr} {given given' : List Argument}
    (hf : func'.placeless = func.placeless)
    (hg : given'.map placelessArgument = given.map placelessArgument) :
    Alike Expr.placeless (makeCall l' func' given') (makeCall l func given) := by
  rw [Alike, makeCall_placeless, makeCall_placeless, hf, hg]

end

theorem joint_placeless (joint : Joint) (left right : Expr) :
    (joint.form left right).map .placeless = joint.form left.placeless right.placeless := by
  cases joint <;> rfl

variable (f : Span → Span)

-- Moving tokens moves nodes, and changes nothing else of a tree or of what is wrong with it.
theorem Derivation.act_move {s : Symbol} (d : Derivation s) :
    Alike s.placeless (d.move f).act d.act := by
  induction d
  all_goals simp only [move, act]
  case conditional hbody htest horelse =>
    refine hbody.bind fun _ _ hb => htest.bind fun _ _ ht => horelse.bind fun _ _ ho => ?_
    have h := congr (congrArg₂ ExprForm.conditional ht hb) ho
    exact makeExpr_alike h
  case joined link _ hleft hright =>
    refine hleft.bind fun _ _ hl => hright.bind fun _ _ hr => makeExpr_alike ?_
    have hform := congrArg₂ link.joint.form hl hr
    exact (joint_placeless _ _ _).trans (hform.trans (joint_placeless _ _ _).symm)
  case not h => exact h.bind fun _ _ h => makeExpr_alike (congrArg (ExprForm.unary .not) h)
  case compared op _ _ hleft hright hrest =>
    exact hleft.bind fun _ _ hl => hright.bind fun _ _ hr => hrest.bind fun _ _ hs =>
      makeExpr_alike
        (congrArg₂ ExprForm.compare hl (congrArg₂ List.cons (congrArg (Prod.mk op.op) hr) hs))
  case comparison op _ _ hright hrest =>
    exact hright.bind fun _ _ hr => hrest.bind fun _ _ hs =>
      .ok (congrArg₂ List.cons (congrArg (Prod.mk op.op) hr) hs)
  case minus h => exact h.bind fun _ _ h => makeExpr_alike (congrArg (ExprForm.unary .neg) h)
  case plus h => exact h.bind fun _ _ h => makeExpr_alike (congrArg (ExprForm.unary .pos) h)
  case power hbase hexponent =>
    exact hbase.bind fun _ _ hb => hexponent.bind fun _ _ he =>
      makeExpr_alike (congrArg₂ (ExprForm.binary .pow) hb he)
  case await h => exact h.bind fun _ _ h => makeExpr_alike (congrArg ExprForm.await h)
  case member hvalue =>
    exact hvalue.bind fun _ _ h => makeExpr_alike (congrArg (ExprForm.member · _) h)
  case call hfunc hargs =>
    exact hfunc.bind fun _ _ hf => hargs.bind fun _ _ ha => makeCall_alike hf ha
  case subscript hvalue hindex =>
    exact hvalue.bind fun _ _ hv => hindex.bind fun _ _ hi =>
      makeExpr_alike (congrArg₂ ExprForm.subscript hv hi)
  case positional h => exact h.bind fun _ _ h => .ok (congrArg Argument.positional h)
  case keyword htarget hvalue =>
    exact htarget.bind fun _ _ ht => hvalue.bind fun _ _ hv => makeKeyword_alike ht hv
  case tuple hfirst hrest =>
    exact hfirst.bind fun _ _ hf => hrest.bind fun _ _ hr =>
      makeExpr_alike (congrArg ExprForm.tuple (congrArg₂ List.cons hf hr))
  case list h => exact h.bind fun _ _ h => makeExpr_alike (congrArg ExprForm.list h)
  case dict h => exact h.bind fun _ _ h => makeExpr_alike (congrArg ExprForm.dict h)
  case entry hkey hvalue =>
    exact hkey.bind fun _ _ hk => hvalue.bind fun _ _ hv => .ok (congrArg₂ Prod.mk hk hv)
  case optional name _ _ h =>
    exact h.bind fun _ _ h => .ok (congrArg (fun e => Param.mk name.text (some e)) h)
  case lastItem h => exact h.bind fun _ _ h => .ok (congrArg (· :: []) h)
  case item hitem hrest =>
    exact hitem.bind fun _ _ hi => hrest.bind fun _ _ hr => .ok (congrArg₂ List.cons hi hr)
  case strings first rest =>
    rw [List.map_map]
    exact makeExpr_alike rfl
  case name | int | float | true_ | false_ | none_ | unit => exact makeExpr_alike rfl
  case noComparisons | noItems | required => exact .ok rfl
  all_goals assumption

/-! ### Statements -/

section

variable {l l' : Location}

theorem makeAssignment_alike {first first' : Expr} {rest rest' : List Expr}
    (hf : first'.placeless = first.placeless) (hr : rest'.map Expr.placeless = rest.map Expr.placeless) :
    Alike Stmt.placeless (makeAssignment l' first' rest') (makeAssignment l first rest) := by
  rw [Alike, makeAssignment_placeless, makeAssignment_placeless, hf, hr]

theorem makeAugmented_alike {target target' value value' : Expr} (op : BinaryOp)
    (ht : target'.placeless = target.placeless) (hv : value'.placeless = value.placeless) :
    Alike Stmt.placeless (makeAugmented l' target' op value') (makeAugmented l target op value) := by
  rw [Alike, makeAugmented_placeless, makeAugmented_placeless, ht, hv]

theorem chain_alike {orelse orelse' : List Stmt} {cs cs' : List Clause}
    (ho : orelse'.map Stmt.placeless = orelse.map Stmt.placeless)
    (hc : cs'.map placelessClause = cs.map placelessClause) :
    Alike (List.map Stmt.placeless) (chain orelse' cs') (chain orelse cs) := by
  rw [Alike, chain_placeless, chain_placeless, ho, hc]

theorem Alike.mapM {α α' β γ : Type} {g : β → γ} {k : α → Except SyntaxFault β}
    {k' : α' → Except SyntaxFault β} {move : α → α'} (h : ∀ a, Alike g (k' (move a)) (k a))
    (as : List α) : Alike (List.map g) ((as.map move).mapM k') (as.mapM k) := by
  induction as
  case nil => exact .ok rfl
  case cons a as ih =>
    rw [List.map_cons, List.mapM_cons, List.mapM_cons]
    exact (h a).bind fun _ _ ha => ih.bind fun _ _ has => .ok (congrArg₂ List.cons ha has)

theorem Alike.mapM_option {α α' β γ : Type} {g : β → γ} {k : α → Except SyntaxFault β}
    {k' : α' → Except SyntaxFault β} {move : α → α'} (h : ∀ a, Alike g (k' (move a)) (k a))
    (a : Option α) : Alike (Option.map g) ((a.map move).mapM k') (a.mapM k) := by
  cases a with
  | none => exact .ok rfl
  | some a => exact (h a).bind fun _ _ ha => .ok (congrArg some ha)

end

theorem TestList.act_move (t : TestList) (next next' : Nat) :
    Alike Expr.placeless ((t.move f).act next') (t.act next) := by
  cases t with
  | single e => exact e.act_move f
  | tuple first comma rest =>
    exact (first.act_move f).bind fun _ _ hf => (rest.act_move f).bind fun _ _ hr =>
      makeExpr_alike (congrArg ExprForm.tuple (congrArg₂ List.cons hf hr))

theorem actAssigned_move (rest : List (Span × TestList)) (next next' : Nat) :
    Alike (List.map Expr.placeless) (actAssigned next' (rest.map (Prod.map f (.move f))))
      (actAssigned next rest) := by
  induction rest
  case nil => exact .ok rfl
  case cons p rest ih =>
    exact (p.2.act_move f _ _).bind fun _ _ he => ih.bind fun _ _ hs =>
      .ok (congrArg₂ List.cons he hs)

@[simp] theorem DottedName.path_move (d : DottedName) : (d.move f).path = d.path := by
  simp [path, move, Name.move]

@[simp] theorem ImportAlias.value_move (a : ImportAlias) : (a.move f).value = a.value := by
  simp [value, move, Name.move, Function.comp_def]

@[simp] theorem ImportAliases.values_move (as : ImportAliases) : (as.move f).values = as.values := by
  simp [values, move]

theorem SmallStatement.act_move (s : SmallStatement) (next next' : Nat) :
    Alike Stmt.placeless ((s.move f).act next') (s.act next) := by
  cases s
  case assignment first rest =>
    exact (first.act_move f _ _).bind fun _ _ hf => (actAssigned_move f rest _ _).bind fun _ _ hr =>
      makeAssignment_alike hf hr
  case augmented target op value =>
    exact (target.act_move f).bind fun _ _ ht => (value.act_move f _ _).bind fun _ _ hv =>
      makeAugmented_alike op.op ht hv
  case pass | breakLoop | continueLoop =>
    rw [move, act, act]
    exact makeStmt_alike rfl
  case ret _ value =>
    exact (Alike.mapM_option (fun t => t.act_move f _ _) value).bind fun _ _ h =>
      makeStmt_alike (congrArg StmtForm.ret h)
  case raise _ exc =>
    exact (Alike.mapM_option (fun e => e.act_move f) exc).bind fun _ _ h =>
      makeStmt_alike (congrArg StmtForm.raise h)
  case imports _ names =>
    rw [move, act, act, names.values_move]
    exact makeStmt_alike rfl
  case importFrom _ path _ names =>
    rw [move, act, act, path.path_move, names.values_move]
    exact makeStmt_alike rfl

theorem actSmalls_move (s : SmallStatement) (rest : List (Span × SmallStatement)) (next next' : Nat) :
    Alike (List.map Stmt.placeless) (actSmalls next' (s.move f) (rest.map (Prod.map f (.move f))))
      (actSmalls next s rest) := by
  induction rest generalizing s
  case nil => exact (s.act_move f _ _).bind fun _ _ h => .ok (congrArg (· :: []) h)
  case cons p rest ih =>
    exact (s.act_move f _ _).bind fun _ _ hs => (ih p.2).bind fun _ _ hr =>
      .ok (congrArg₂ List.cons hs hr)

theorem SimpleStatements.act_move (s : SimpleStatements) :
    Alike (List.map Stmt.placeless) (s.move f).act s.act :=
  actSmalls_move f s.first s.rest _ _

theorem ForTarget.act_move (t : ForTarget) : Alike Expr.placeless (t.move f).act t.act := by
  have hname (n : Name) : Alike Expr.placeless (n.move f).act n.act := makeExpr_alike rfl
  cases t with
  | single n => exact hname n
  | tuple first comma second rest =>
    have hitems := Alike.mapM hname (first :: second :: rest.map (·.2))
    rw [List.map_cons, List.map_cons, List.map_map] at hitems
    rw [move, act, act, List.map_map]
    exact hitems.bind fun _ _ h => makeExpr_alike (congrArg ExprForm.tuple h)

def StmtSymbol.placeless : (s : StmtSymbol) → s.Value → s.Value
  | compound => Stmt.placeless
  | clauses => List.map placelessClause
  | statement | suite | statements | orelse => List.map Stmt.placeless

theorem StmtDerivation.act_move {s : StmtSymbol} (d : StmtDerivation s) :
    Alike s.placeless (d.move f).act d.act := by
  induction d
  all_goals simp only [move, act]
  case simple s => exact s.act_move f
  case compound h => exact h.bind fun _ _ h => .ok (congrArg (· :: []) h)
  case conditional test _ _ _ _ hbody hclauses horelse =>
    exact (test.act_move f).bind fun _ _ ht => hbody.bind fun _ _ hb => hclauses.bind fun _ _ hc =>
      horelse.bind fun _ _ ho => (chain_alike ho hc).bind fun _ _ hchain => by
        have h := congr (congrArg₂ StmtForm.ifElse ht hb) hchain
        exact makeStmt_alike h
  case whileLoop test _ _ hbody =>
    exact (test.act_move f).bind fun _ _ ht => hbody.bind fun _ _ hb =>
      makeStmt_alike (congrArg₂ StmtForm.whileLoop ht hb)
  case forLoop target _ iter _ _ hbody =>
    refine (target.act_move f).bind fun _ _ ht => (iter.act_move f).bind fun _ _ hi => ?_
    refine hbody.bind fun _ _ hb => ?_
    have hform := congr (congrArg₂ StmtForm.forEach ht hi) hb
    exact makeStmt_alike hform
  case define async_ _ name _ params _ _ _ hbody =>
    refine (params.act_move f).bind fun _ _ hp => hbody.bind fun _ _ hb => ?_
    rw [Option.isSome_map]
    have h := congrArg₂ (StmtForm.define name.text · · async_.isSome) hp hb
    exact makeStmt_alike h
  case line s => exact s.act_move f
  case block hfirst hrest | more hfirst hrest =>
    refine hfirst.bind fun _ _ hf => hrest.bind fun _ _ hr => .ok ?_
    exact List.map_append.trans ((congrArg₂ (· ++ ·) hf hr).trans List.map_append.symm)
  case clause test _ _ _ hbody hrest =>
    exact (test.act_move f).bind fun _ _ ht => hbody.bind fun _ _ hb => hrest.bind fun _ _ hr =>
      .ok (congrArg₂ List.cons (congrArg₂ (Clause.mk .unknown) ht hb) hr)
  case otherwise h => exact h
  case noStatements | noClauses | nothingElse => exact .ok rfl

end Grammar
end NoteCell
