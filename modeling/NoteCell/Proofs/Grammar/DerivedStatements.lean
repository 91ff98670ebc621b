import NoteCell.Proofs.Grammar.Derived
import NoteCell.Proofs.Parsing.PrintedStatement

/-!
Whatever the rules for statements read is derived by the grammar, and what they build is what the
actions of its derivation build.
-/
namespace NoteCell

open NoteCell.Grammar NoteCell.Parser

namespace Cursor

-- Reading takes a row of tokens and counts what lies before `stop` as read.
structure Takes (c : Cursor) (ts : List Located) (stop : Nat) (c' : Cursor) : Prop where
  rest : c.rest = ts ++ c'.rest
  stop : c'.stop = stop
  error : c'.error = c.error

variable {c c' c'' : Cursor} {ts us : List Located} {n : Nat}

-- To count what lies before the next token as read does not move it.
theorem start_reached (c : Cursor) : Cursor.start { c with stop := c.start } = c.start := by
  obtain ⟨rest, error, stop⟩ := c
  cases rest <;> rfl

theorem Consumes.takes (h : c.Consumes ts c') (hne : ts ≠ []) : c.Takes ts (stopOf ts) c' :=
  ⟨h.rest, h.stop_eq hne, h.error⟩

namespace Takes

theorem start (h : c.Takes ts n c') (hne : ts ≠ []) : c.start = startOf ts := by
  obtain ⟨t, ts, rfl⟩ := List.exists_cons_of_ne_nil hne
  rw [Cursor.start, h.rest]
  rfl

theorem place (h : c.Takes ts n c') (hne : ts ≠ []) :
    Location.between c.start c'.stop = .between (startOf ts) n := by
  rw [h.start hne, h.stop]

end Takes

theorem Consumes.takes_trans (h : c.Consumes ts c') (h' : c'.Takes us n c'') :
    c.Takes (ts ++ us) n c'' where
  rest := by rw [h.rest, h'.rest, List.append_assoc]
  stop := h'.stop
  error := h'.error.trans h.error

theorem Takes.trans (h : c.Takes ts n c') (h' : c'.Consumes us c'') (hne : us ≠ []) :
    c.Consumes (ts ++ us) c'' where
  rest := by rw [h.rest, h'.rest, List.append_assoc]
  stop := by
    rw [h'.stop_eq hne, stopOf, List.getLast?_append]
    cases hlast : us.getLast? with
    | none => exact absurd (List.getLast?_eq_none_iff.mp hlast) hne
    | some t => rfl
  error := h'.error.trans h.error

end Cursor

namespace Grammar

/-! ### Lists of expressions -/

section

variable {n k : Nat} {c c' c'' : Cursor}

theorem of_makeStmtBefore {follows : Option Token → Bool} {form : StmtForm Stmt}
    {location : Location} {s : Stmt}
    (h : makeStmtBefore follows form location c = .ok (s, c')) :
    c' = c ∧ Grammar.makeStmt location form = .ok s := by
  rw [makeStmtBefore] at h
  rw [Grammar.makeStmt]
  split at h
  case isTrue hle =>
    obtain ⟨rfl, rfl⟩ := of_pure h
    exact ⟨rfl, if_pos hle⟩
  case isFalse => cases h

theorem TestList.tokens_ne_nil (t : TestList) : t.tokens ≠ [] := by
  cases t with
  | single e => exact Grammar.tokens_ne_nil e
  | tuple => exact List.append_ne_nil_of_right_ne_nil _ (List.cons_ne_nil _ _)

theorem noItems_of_act {s : Symbol} {d : Derivation (.comma s)} (h : d.act = .ok []) :
    d = .noItems := by
  cases d with
  | noItems => rfl
  | lastItem e =>
    obtain ⟨_, _, heq⟩ := of_bind_eq_ok h
    cases heq
  | item e comma rest =>
    obtain ⟨_, _, htail⟩ := of_bind_eq_ok h
    obtain ⟨_, _, heq⟩ := of_bind_eq_ok htail
    cases heq

theorem TestList.stop_tuple {first : Expression} {comma : Span}
    {rest : Derivation (.comma (.level .expression))} (h : rest ≠ .noItems) (next : Nat) :
    (tuple first comma rest).stop next = stopOf (tuple first comma rest).tokens := by
  cases rest with
  | noItems => exact absurd rfl h
  | lastItem | item => rfl

theorem of_exprList {r : Expr × Bool} (h : exprList n c = .ok (r, c')) :
    ∃ t : TestList, t.act c'.start = .ok r.1 ∧ c.Takes t.tokens (t.stop c'.start) c'
      ∧ (r.2 = false → ∃ e, t = .single e) := by
  have hn := exprDerivations n
  rw [exprList, bind_ok (start_eq c)] at h
  obtain ⟨first, v, _, hfirst, kfirst, h⟩ := hn.expression.of_bind h
  obtain ⟨comma, _, kcomma, h⟩ | ⟨_, h⟩ := of_ifAccept h
  · obtain ⟨rest, vs, c₁, hrest, krest, h⟩ := hn.elements.of_bind h
    have ktuple := kfirst.trans (kcomma.cons krest)
    have hne := TestList.tokens_ne_nil (.tuple first comma rest)
    have hmade {c₂ : Cursor}
        (ht : c.Takes (TestList.tuple first comma rest).tokens
          ((TestList.tuple first comma rest).stop c₂.start) c₂)
        (h : (do return (← makeExprBefore endsBareTuple (.tuple (v :: vs)) c.start, true) :
          Parser (Expr × Bool)) c₂ = .ok (r, c')) : ∃ t : TestList, t.act c'.start = .ok r.1
            ∧ c.Takes t.tokens (t.stop c'.start) c' ∧ (r.2 = false → ∃ e, t = .single e) := by
      obtain ⟨e, _, he, hend⟩ := Parser.of_bind h
      obtain ⟨rfl, hmake⟩ := of_makeExprBefore he
      obtain ⟨rfl, rfl⟩ := of_pure hend
      refine ⟨.tuple first comma rest, ?_, ht, by simp⟩
      rw [ht.place hne] at hmake
      rw [TestList.act, hfirst, hrest]
      exact hmake
    cases vs with
    | nil =>
      obtain rfl := noItems_of_act hrest
      refine @hmade { c₁ with stop := c₁.start } ⟨ktuple.rest, ?_, ktuple.error⟩ h
      rw [Cursor.start_reached]
      rfl
    | cons v vs =>
      refine hmade ?_ h
      rw [TestList.stop_tuple (by rintro rfl; cases hrest)]
      exact ktuple.takes hne
  · obtain ⟨rfl, rfl⟩ := of_pure h
    exact ⟨.single first, hfirst, kfirst.takes (Grammar.tokens_ne_nil first), fun _ => ⟨first, rfl⟩⟩

theorem of_bind_exprList {β : Type} {q : Expr × Bool → Parser β} {b : β}
    (h : (exprList n >>= q) c = .ok (b, c')) : ∃ (t : TestList) (r : Expr × Bool) (c₁ : Cursor),
      t.act c₁.start = .ok r.1 ∧ c.Takes t.tokens (t.stop c₁.start) c₁
        ∧ (r.2 = false → ∃ e, t = .single e) ∧ q r c₁ = .ok (b, c') := by
  obtain ⟨r, c₁, hr, hq⟩ := Parser.of_bind h
  obtain ⟨t, ht, kt, hsingle⟩ := of_exprList hr
  exact ⟨t, r, c₁, ht, kt, hsingle, hq⟩

theorem getLast_cons {α β : Type} (a b : β) (x : α) (l : List (α × β)) :
    ((((x, b) :: l).getLast?.map (·.2)).getD a) = (l.getLast?.map (·.2)).getD b := by
  rw [List.getLast?_cons]
  cases l.getLast? <;> rfl

-- Expressions behind equals signs, after a first one.
theorem of_assigned {es : List Expr} {c₀ : Cursor} {first : TestList}
    (hfirst : c₀.Takes first.tokens (first.stop c.start) c)
    (h : assigned n k c = .ok (es, c')) :
    ∃ rest : List (Span × TestList), actAssigned c'.start rest = .ok es
      ∧ c.start = nextAssigned c'.start rest
      ∧ c₀.Takes (first.tokens ++ assignedTokens rest)
          (((rest.getLast?.map (·.2)).getD first).stop c'.start) c' := by
  induction k generalizing c₀ c c' es first with
  | zero => exact (of_misplaced h).elim
  | succ k ih =>
    rw [assigned] at h
    obtain ⟨assign, c₁, kassign, h⟩ | ⟨_, h⟩ := of_ifAccept h
    · obtain ⟨t, r, c₂, ht, kt, _, h⟩ := of_bind_exprList h
      obtain ⟨es, _, hes, h⟩ := Parser.of_bind h
      obtain ⟨rest, hrest, hnext, krest⟩ := ih kt hes
      obtain ⟨rfl, rfl⟩ := of_pure h
      refine ⟨(assign, t) :: rest, ?_, kassign.start (List.cons_ne_nil _ _), ?_⟩
      · rw [actAssigned, ← hnext, ht, ok_bind, hrest]
        rfl
      · have k := (hfirst.trans kassign (List.cons_ne_nil _ _)).takes_trans krest
        rw [List.append_assoc] at k
        rw [getLast_cons]
        exact k
    · obtain ⟨rfl, rfl⟩ := of_pure h
      refine ⟨[], rfl, rfl, ?_⟩
      rw [assignedTokens, List.flatMap_nil, List.append_nil]
      exact hfirst

/-! ### Imports -/

theorem of_dottedRest {ss : List String} (h : dottedRest n c = .ok (ss, c')) :
    ∃ rest : List (Span × Name), rest.map (·.2.text) = ss
      ∧ c.Consumes (rest.flatMap fun p => [sign .dot p.1, p.2.token]) c' := by
  induction n generalizing c c' ss with
  | zero => exact (of_misplaced h).elim
  | succ n ih =>
    rw [dottedRest] at h
    obtain ⟨dot, _, kdot, h⟩ | ⟨_, h⟩ := of_ifAccept h
    · obtain ⟨name, _, kname, h⟩ := of_bind_identifier h
      obtain ⟨_, _, hrest, h⟩ := Parser.of_bind h
      obtain ⟨rest, rfl, krest⟩ := ih hrest
      obtain ⟨rfl, rfl⟩ := of_pure h
      exact ⟨(dot, name) :: rest, rfl, kdot.cons (kname.cons krest)⟩
    · obtain ⟨rfl, rfl⟩ := of_pure h
      exact ⟨[], rfl, .refl _⟩

theorem of_dottedName {path : List String} (h : dottedName n c = .ok (path, c')) :
    ∃ d : DottedName, d.path = path ∧ c.Consumes d.tokens c' := by
  rw [dottedName] at h
  obtain ⟨first, _, kfirst, h⟩ := of_bind_identifier h
  obtain ⟨_, _, hrest, h⟩ := Parser.of_bind h
  obtain ⟨rest, rfl, krest⟩ := of_dottedRest hrest
  obtain ⟨rfl, rfl⟩ := of_pure h
  exact ⟨⟨first, rest⟩, rfl, kfirst.cons krest⟩

theorem of_alias {a : Alias} (h : alias_ n c = .ok (a, c')) :
    ∃ d : ImportAlias, d.value = a ∧ c.Consumes d.tokens c' := by
  rw [alias_] at h
  obtain ⟨_, _, hpath, h⟩ := Parser.of_bind h
  obtain ⟨path, rfl, kpath⟩ := of_dottedName hpath
  obtain ⟨as_, _, kas, h⟩ | ⟨_, h⟩ := of_ifAccept h
  · obtain ⟨name, _, kname, h⟩ := of_bind_identifier h
    obtain ⟨rfl, rfl⟩ := of_pure h
    exact ⟨⟨path, some (as_, name)⟩, rfl, kpath.trans (kas.cons kname)⟩
  · obtain ⟨rfl, rfl⟩ := of_pure h
    exact ⟨⟨path, none⟩, rfl, kpath.trans (.refl _)⟩

theorem of_aliases {as : List Alias} (h : aliases n c = .ok (as, c')) :
    ∃ d : ImportAliases, d.values = as ∧ c.Consumes d.tokens c' := by
  induction n generalizing c c' as with
  | zero => exact (of_misplaced h).elim
  | succ n ih =>
    rw [aliases] at h
    obtain ⟨_, _, hfirst, h⟩ := Parser.of_bind h
    obtain ⟨first, rfl, kfirst⟩ := of_alias hfirst
    obtain ⟨comma, _, kcomma, h⟩ | ⟨_, h⟩ := of_ifAccept h
    · obtain ⟨_, _, hrest, h⟩ := Parser.of_bind h
      obtain ⟨rest, rfl, krest⟩ := ih hrest
      obtain ⟨rfl, rfl⟩ := of_pure h
      exact ⟨⟨first, (comma, rest.first) :: rest.rest⟩, rfl, kfirst.trans (kcomma.cons krest)⟩
    · obtain ⟨rfl, rfl⟩ := of_pure h
      exact ⟨⟨first, []⟩, rfl, kfirst.trans (.refl _)⟩

/-! ### Simple statements -/

-- What a simple statement comes to before the cursor behind it.
def DerivesSmall (c c' : Cursor) (s : Stmt) : Prop :=
  ∃ d : SmallStatement, d.act c'.start = .ok s ∧ c.Takes d.tokens (d.stop c'.start) c'

theorem SmallStatement.tokens_ne_nil (s : SmallStatement) : s.tokens ≠ [] := by
  cases s with
  | assignment first rest =>
    exact List.append_ne_nil_of_left_ne_nil first.tokens_ne_nil _
  | augmented => exact List.append_ne_nil_of_right_ne_nil _ (List.cons_ne_nil _ _)
  | _ => exact List.cons_ne_nil _ _

-- A statement made behind all its tokens.
theorem of_makeSimple {form : StmtForm Stmt} {d : SmallStatement} {s : Stmt} {c₁ : Cursor}
    (hc : c.Takes d.tokens (d.stop c₁.start) c₁)
    (hact : d.act c₁.start = Grammar.makeStmt (d.place c₁.start) form)
    (h : makeSimple form c.start c₁ = .ok (s, c')) : DerivesSmall c c' s := by
  rw [makeSimple, bind_ok (stop_eq c₁)] at h
  obtain ⟨rfl, hs⟩ := of_makeStmtBefore h
  refine ⟨d, ?_, hc⟩
  rw [hact, SmallStatement.place, ← hc.place d.tokens_ne_nil, hs]

theorem findSome?_unassignable (targets : List Expr) :
    targets.findSome? Expr.unassignable?
      = (targets.find? (·.unassignable?.isSome)).bind Expr.unassignable? := by
  induction targets with
  | nil => rfl
  | cons t ts ih =>
    cases ht : t.unassignable? with
    | none => simp [ht, ih]
    | some part => simp [ht]

theorem of_assignment {first : TestList} {rest : List (Span × TestList)} {e : Expr}
    {es : List Expr} {s : Stmt} {c₁ : Cursor}
    (hc : c.Takes (SmallStatement.assignment first rest).tokens
      ((SmallStatement.assignment first rest).stop c₁.start) c₁)
    (hfirst : first.act (nextAssigned c₁.start rest) = .ok e)
    (hrest : actAssigned c₁.start rest = .ok es)
    (h : assignment e es c.start c₁ = .ok (s, c')) : DerivesSmall c c' s := by
  have hact : (SmallStatement.assignment first rest).act c₁.start
      = makeAssignment ((SmallStatement.assignment first rest).place c₁.start) e es := by
    rw [SmallStatement.act, hfirst, ok_bind, hrest]
    rfl
  rw [assignment] at h
  rw [makeAssignment] at hact
  cases hlast : es.getLast? with
  | none =>
    rw [hlast] at h hact
    exact of_makeSimple hc hact h
  | some value =>
    rw [hlast] at h hact
    dsimp only at h hact
    rw [findSome?_unassignable] at hact
    cases hfind : (e :: es.dropLast).find? (·.unassignable?.isSome) with
    | some target =>
      rw [hfind] at h
      exact (of_refuse h).elim
    | none =>
      rw [hfind] at h hact
      exact of_makeSimple hc hact h

theorem of_exprStatement {s : Stmt} (h : exprStatement n c = .ok (s, c')) :
    DerivesSmall c c' s := by
  rw [exprStatement, bind_ok (start_eq c)] at h
  obtain ⟨first, r, c₁, hfirst, kfirst, hsingle, h⟩ := of_bind_exprList h
  obtain ⟨e, isTuple⟩ := r
  dsimp only at h
  rw [bind_ok (rfl : peek? c₁ = .ok (c₁.head?, c₁))] at h
  generalize hop : (if isTuple = true then none else c₁.head? >>= Token.augmented?) = o at h
  cases o with
  | none =>
    obtain ⟨es, _, hes, h⟩ := Parser.of_bind h
    obtain ⟨rest, hrest, hnext, krest⟩ := of_assigned kfirst hes
    exact of_assignment krest (hnext ▸ hfirst) hrest h
  | some op =>
    cases isTuple with
    | true => cases hop
    | false =>
      obtain ⟨target, rfl⟩ := hsingle rfl
      cases ht : c₁.head? with
      | none =>
        rw [ht] at hop
        cases hop
      | some t =>
        rw [ht] at hop
        obtain ⟨span, _, kop, h⟩ := of_bind_advance ht h
        obtain ⟨value, r, c₂, hvalue, kvalue, _, h⟩ := of_bind_exprList h
        obtain ⟨v, _⟩ := r
        have k := (kfirst.trans kop (List.cons_ne_nil _ _)).takes_trans kvalue
        rw [List.append_assoc] at k
        dsimp only at h
        split at h
        case isTrue hplace =>
          refine of_makeSimple (d := .augmented target ⟨⟨t, span⟩, op, hop⟩ value) k ?_ h
          have htarget : target.act = .ok e := hfirst
          rw [SmallStatement.act, htarget, ok_bind, hvalue, ok_bind, makeAugmented, if_pos hplace]
        case isFalse => exact (of_refuse h).elim

theorem of_small {s : Stmt} (h : small n c = .ok (s, c')) : DerivesSmall c c' s := by
  rw [small, bind_ok (start_eq c), bind_ok (rfl : peek? c = .ok (c.head?, c))] at h
  generalize ht : c.head? = t at h
  split at h
  case h_1 =>
    obtain ⟨span, _, ks, h⟩ := of_bind_advance ht h
    exact of_makeSimple (d := .pass span) (ks.takes (List.cons_ne_nil _ _)) rfl h
  case h_2 =>
    obtain ⟨span, _, ks, h⟩ := of_bind_advance ht h
    exact of_makeSimple (d := .breakLoop span) (ks.takes (List.cons_ne_nil _ _)) rfl h
  case h_3 =>
    obtain ⟨span, _, ks, h⟩ := of_bind_advance ht h
    exact of_makeSimple (d := .continueLoop span) (ks.takes (List.cons_ne_nil _ _)) rfl h
  case h_4 =>
    obtain ⟨span, c₁, ks, h⟩ := of_bind_advance ht h
    obtain ⟨starts, _, hstarts, h⟩ := Parser.of_bind h
    cases hstarts
    split at h
    · obtain ⟨value, r, _, hvalue, kvalue, _, h⟩ := of_bind_exprList h
      obtain ⟨v, _⟩ := r
      have k := ks.takes_trans kvalue
      refine of_makeSimple (d := .ret span (some value)) ?_ ?_ h
      · simpa [SmallStatement.tokens, SmallStatement.stop, Grammar.word] using k
      · rw [SmallStatement.act, Option.mapM_some, hvalue]
        rfl
    · exact of_makeSimple (d := .ret span none) (ks.takes (List.cons_ne_nil _ _)) rfl h
  case h_5 =>
    obtain ⟨span, c₁, ks, h⟩ := of_bind_advance ht h
    obtain ⟨starts, _, hstarts, h⟩ := Parser.of_bind h
    cases hstarts
    split at h
    · obtain ⟨exc, _, _, hexc, kexc, h⟩ := (exprDerivations n).expression.of_bind h
      have k := (ks.trans kexc).takes (List.cons_ne_nil _ _)
      refine of_makeSimple (d := .raise span (some exc)) ?_ ?_ h
      · simpa [SmallStatement.tokens, SmallStatement.stop, Grammar.word] using k
      · rw [SmallStatement.act, Option.mapM_some, hexc]
        rfl
    · exact of_makeSimple (d := .raise span none) (ks.takes (List.cons_ne_nil _ _)) rfl h
  case h_6 =>
    obtain ⟨span, _, ks, h⟩ := of_bind_advance ht h
    obtain ⟨_, _, hnames, h⟩ := Parser.of_bind h
    obtain ⟨names, rfl, knames⟩ := of_aliases hnames
    have k := (ks.trans knames).takes (List.cons_ne_nil _ _)
    exact of_makeSimple (d := .imports span names) k rfl h
  case h_7 =>
    obtain ⟨from_, _, kfrom, h⟩ := of_bind_advance ht h
    obtain ⟨_, _, hpath, h⟩ := Parser.of_bind h
    obtain ⟨path, rfl, kpath⟩ := of_dottedName hpath
    obtain ⟨import_, _, kimport, h⟩ := of_bind_expect h
    obtain ⟨_, _, hnames, h⟩ := Parser.of_bind h
    obtain ⟨names, rfl, knames⟩ := of_aliases hnames
    have k := (kfrom.cons (kpath.trans (kimport.cons knames))).takes (List.cons_ne_nil _ _)
    exact of_makeSimple (d := .importFrom from_ path import_ names) k rfl h
  case h_8 => exact of_exprStatement h

-- The statements of a line, up to the end of the line.
theorem of_smalls {ss : List Stmt} (h : smalls n k c = .ok (ss, c')) {newline : Span}
    (hend : c'.Consumes [⟨.newline, newline⟩] c'') :
    ∃ d : SimpleStatements, d.act = .ok ss ∧ c.Consumes d.tokens c'' := by
  induction k generalizing c c' ss with
  | zero => exact (of_misplaced h).elim
  | succ k ih =>
    rw [smalls] at h
    obtain ⟨s, c₁, hs, h⟩ := Parser.of_bind h
    obtain ⟨d, hd, kd⟩ := of_small hs
    obtain ⟨semicolon, c₂, ksemicolon, h⟩ | ⟨_, h⟩ := of_ifAccept h
    · have hstart : c₁.start = semicolon.start := ksemicolon.start (List.cons_ne_nil _ _)
      rw [hstart] at hd kd
      rw [bind_ok (rfl : peek? c₂ = .ok (c₂.head?, c₂))] at h
      split at h
      · obtain ⟨rfl, rfl⟩ := of_pure h
        refine ⟨⟨d, [], some semicolon, newline⟩, ?_,
          kd.trans (ksemicolon.cons hend) (List.cons_ne_nil _ _)⟩
        rw [SimpleStatements.act, actSmalls]
        change (do return [← d.act semicolon.start]) = _
        rw [hd]
        rfl
      · obtain ⟨rest, _, hrest, h⟩ := Parser.of_bind h
        obtain ⟨rfl, rfl⟩ := of_pure h
        obtain ⟨e, he, ke⟩ := ih hrest hend
        refine ⟨⟨d, (semicolon, e.first) :: e.rest, e.semicolon, e.newline⟩, ?_, ?_⟩
        · have htail : actSmalls (startOf e.ending) e.first e.rest = .ok rest := he
          rw [SimpleStatements.act, actSmalls, hd, ok_bind]
          change (do let ss ← actSmalls (startOf e.ending) e.first e.rest; return s :: ss) = _
          rw [htail]
          rfl
        · have k := kd.trans (ksemicolon.cons ke) (List.cons_ne_nil _ _)
          simpa [SimpleStatements.tokens, SimpleStatements.ending, smallTokens, Grammar.sign]
            using k
    · obtain ⟨rfl, rfl⟩ := of_pure h
      have hstart : c'.start = newline.start := hend.start (List.cons_ne_nil _ _)
      rw [hstart] at hd kd
      refine ⟨⟨d, [], none, newline⟩, ?_, kd.trans hend (List.cons_ne_nil _ _)⟩
      rw [SimpleStatements.act, actSmalls]
      change (do return [← d.act newline.start]) = _
      rw [hd]
      rfl

theorem of_simple {ss : List Stmt} (h : simple n c = .ok (ss, c')) :
    ∃ d : SimpleStatements, d.act = .ok ss ∧ c.Consumes d.tokens c' := by
  rw [simple] at h
  obtain ⟨_, _, hss, h⟩ := Parser.of_bind h
  obtain ⟨newline, _, knewline, h⟩ := of_bind_expect h
  obtain ⟨rfl, rfl⟩ := of_pure h
  exact of_smalls hss knewline

/-! ### Parts of compound statements -/

theorem of_targetName {e : Expr} (h : targetName c = .ok (e, c')) :
    ∃ name : Name, name.act = .ok e ∧ c.Consumes [name.token] c' := by
  rw [targetName, bind_ok (start_eq c)] at h
  obtain ⟨name, _, kname, h⟩ := of_bind_identifier h
  obtain ⟨rfl, hmake⟩ := of_makeExprBefore h
  refine ⟨name, ?_, kname⟩
  rw [Name.act, ← kname.place (List.cons_ne_nil _ _)]
  exact hmake

theorem of_targetNames {es : List Expr} (h : targetNames n c = .ok (es, c')) :
    ∃ (first : Name) (rest : List (Span × Name)),
      (first :: rest.map (·.2)).mapM Name.act = .ok es
        ∧ c.Consumes (first.token :: rest.flatMap fun p => [sign .comma p.1, p.2.token]) c' := by
  induction n generalizing c c' es with
  | zero => exact (of_misplaced h).elim
  | succ n ih =>
    rw [targetNames] at h
    obtain ⟨_, _, hfirst, h⟩ := Parser.of_bind h
    obtain ⟨first, hact, kfirst⟩ := of_targetName hfirst
    obtain ⟨comma, _, kcomma, h⟩ | ⟨_, h⟩ := of_ifAccept h
    · obtain ⟨_, _, hrest, h⟩ := Parser.of_bind h
      obtain ⟨second, rest, hes, krest⟩ := ih hrest
      obtain ⟨rfl, rfl⟩ := of_pure h
      refine ⟨first, (comma, second) :: rest, ?_, kfirst.cons (kcomma.cons krest)⟩
      rw [List.mapM_cons, hact, List.map_cons, hes]
      rfl
    · obtain ⟨rfl, rfl⟩ := of_pure h
      refine ⟨first, [], ?_, kfirst⟩
      rw [List.mapM_cons, hact]
      rfl

theorem of_loopTarget {e : Expr} (h : loopTarget n c = .ok (e, c')) :
    ∃ d : ForTarget, d.act = .ok e ∧ c.Consumes d.tokens c' := by
  rw [loopTarget, bind_ok (start_eq c)] at h
  obtain ⟨es, _, hes, h⟩ := Parser.of_bind h
  obtain ⟨first, rest, hact, kes⟩ := of_targetNames hes
  cases rest with
  | nil =>
    obtain ⟨e', hfirst, htail⟩ := of_bind_eq_ok ((List.mapM_cons ..).symm.trans hact)
    cases htail
    obtain ⟨rfl, rfl⟩ := of_pure h
    exact ⟨.single first, hfirst, kes⟩
  | cons p rest =>
    obtain ⟨comma, second⟩ := p
    have htuple : ∃ e₁ e₂ es', es = e₁ :: e₂ :: es' := by
      obtain ⟨e₁, _, htail⟩ := of_bind_eq_ok ((List.mapM_cons ..).symm.trans hact)
      obtain ⟨es', htail', heq⟩ := of_bind_eq_ok htail
      obtain ⟨e₂, _, htail''⟩ := of_bind_eq_ok ((List.mapM_cons ..).symm.trans htail')
      obtain ⟨es'', _, heq'⟩ := of_bind_eq_ok htail''
      cases heq'
      cases heq
      exact ⟨e₁, e₂, es'', rfl⟩
    obtain ⟨e₁, e₂, es', rfl⟩ := htuple
    obtain ⟨rfl, hmake⟩ := of_makeExprBefore h
    refine ⟨.tuple first comma second rest, ?_, kes⟩
    rw [kes.place (List.cons_ne_nil _ _)] at hmake
    have hitems : (first :: second :: rest.map (·.2)).mapM Name.act = .ok (e₁ :: e₂ :: es') := hact
    rw [ForTarget.act, hitems]
    exact hmake

theorem derives_param (n : Nat) : Derives .parameter (param n) := by
  intro c v c' h
  rw [param] at h
  obtain ⟨name, _, kname, h⟩ := of_bind_identifier h
  obtain ⟨assign, _, kassign, h⟩ | ⟨_, h⟩ := of_ifAccept h
  · obtain ⟨default, _, _, hdefault, kdefault, h⟩ := (exprDerivations n).expression.of_bind h
    obtain ⟨rfl, rfl⟩ := of_pure h
    refine ⟨.optional name assign default, ?_, kname.cons (kassign.cons kdefault)⟩
    rw [Derivation.act, hdefault]
    rfl
  · obtain ⟨rfl, rfl⟩ := of_pure h
    exact ⟨.required name, rfl, kname⟩

theorem derives_params (n : Nat) : Derives (.comma .parameter) (params n) := by
  rw [params_eq]
  induction n with
  | zero => exact .misplaced
  | succ n ih => exact (derives_param n).row ih

theorem of_chainClauses {follows : Option Token → Bool} {orelse ss : List Stmt}
    {cs : List Clause} (h : chainClauses follows orelse cs c = .ok (ss, c')) :
    c' = c ∧ chain orelse cs = .ok ss := by
  induction cs generalizing c' ss with
  | nil =>
    obtain ⟨rfl, rfl⟩ := of_pure h
    exact ⟨rfl, rfl⟩
  | cons clause cs ih =>
    rw [chainClauses] at h
    obtain ⟨rest, _, hrest, hlast⟩ := Parser.of_bind h
    obtain ⟨rfl, hchain⟩ := ih hrest
    obtain ⟨s, _, hs, hend⟩ := Parser.of_bind hlast
    obtain ⟨rfl, hmake⟩ := of_makeStmtBefore hs
    obtain ⟨rfl, rfl⟩ := of_pure hend
    refine ⟨rfl, ?_⟩
    rw [chain, hchain, ok_bind, hmake]
    rfl

theorem of_openBlock {u : Unit} (h : openBlock c = .ok (u, c')) :
    ∃ indent, c.Consumes [⟨.indent, indent⟩] c' := by
  rw [openBlock] at h
  obtain ⟨r, _, haccept, h⟩ := Parser.of_bind h
  cases r with
  | true =>
    obtain ⟨_, rfl⟩ := of_pure h
    exact of_accept_true haccept
  | false =>
    obtain ⟨t, _, hpeek, h⟩ := Parser.of_bind h
    cases t <;> cases h

end

/-! ### Statements -/

def StmtDerives (s : StmtSymbol) (p : Parser s.Value) : Prop :=
  ∀ c v c', p c = .ok (v, c') → ∃ d : StmtDerivation s, d.act = .ok v ∧ c.Consumes d.tokens c'

-- What a rule reads is at least one statement and the end of their block.
def BlockDerives (p : Parser (List Stmt)) : Prop :=
  ∀ c v c', p c = .ok (v, c') → ∃ (first : StmtDerivation .statement)
    (rest : StmtDerivation .statements) (dedent : Span),
      (StmtDerivation.more first rest).act = .ok v
        ∧ c.Consumes (first.tokens ++ (rest.tokens ++ [⟨.dedent, dedent⟩])) c'

structure StmtDerivations (n : Nat) : Prop where
  statement : StmtDerives .statement (statement n)
  conditional : StmtDerives .compound (conditional n)
  clauses : StmtDerives .clauses (clauses n)
  whileLoop : StmtDerives .compound (whileLoop n)
  forLoop : StmtDerives .compound (forLoop n)
  definition : StmtDerives .compound (definition n)
  suite : StmtDerives .suite (suite n)
  block : BlockDerives (block n)

theorem StmtDerives.misplaced {s : StmtSymbol} : StmtDerives s misplaced :=
  fun _ _ _ hp => (of_misplaced hp).elim

section

variable {c c' c₁ : Cursor} {s : StmtSymbol}

theorem StmtDerives.of_bind {p : Parser s.Value} {β : Type} {q : s.Value → Parser β} {b : β}
    (hp : StmtDerives s p) (h : (p >>= q) c = .ok (b, c')) :
    ∃ (d : StmtDerivation s) (v : s.Value) (c₁ : Cursor),
      d.act = .ok v ∧ c.Consumes d.tokens c₁ ∧ q v c₁ = .ok (b, c') := by
  obtain ⟨v, c₁, hv, hq⟩ := Parser.of_bind h
  obtain ⟨d, hd, hc⟩ := hp c v c₁ hv
  exact ⟨d, v, c₁, hd, hc, hq⟩

theorem StmtDerivation.tokens_ne_nil (d : StmtDerivation .compound) : d.tokens ≠ [] := by
  cases d with
  | define async_ => cases async_ <;> exact List.cons_ne_nil _ _
  | _ => exact List.cons_ne_nil _ _

-- A statement made behind all tokens of its derivation.
theorem of_makeCompound {form : StmtForm Stmt} {d : StmtDerivation .compound} {s : Stmt}
    (hc : c.Consumes d.tokens c₁) (hact : d.act = Grammar.makeStmt d.place form)
    (h : makeCompound form c.start c₁ = .ok (s, c')) : d.act = .ok s ∧ c.Consumes d.tokens c' := by
  rw [makeCompound, bind_ok (stop_eq c₁)] at h
  obtain ⟨rfl, hs⟩ := of_makeStmtBefore h
  rw [hact, StmtDerivation.place, ← hc.place d.tokens_ne_nil, hs]
  exact ⟨rfl, hc⟩

end

namespace StmtDerivations

variable {n : Nat} (h : StmtDerivations n)

include h

theorem statement_succ : StmtDerives .statement (Parser.statement (n + 1)) := by
  intro c v c' hp
  have hcompound {p : Parser Stmt} (hd : StmtDerives .compound p)
      (hp : (do return [← p] : Parser (List Stmt)) c = .ok (v, c')) :
      ∃ d : StmtDerivation .statement, d.act = .ok v ∧ c.Consumes d.tokens c' := by
    obtain ⟨d, s, _, hact, kd, hp⟩ := hd.of_bind hp
    obtain ⟨rfl, rfl⟩ := of_pure hp
    refine ⟨.compound d, ?_, kd⟩
    rw [StmtDerivation.act, hact]
    rfl
  rw [Parser.statement, bind_ok (rfl : peek? c = .ok (c.head?, c))] at hp
  generalize c.head? = t at hp
  split at hp
  · exact hcompound h.conditional hp
  · exact hcompound h.whileLoop hp
  · exact hcompound h.forLoop hp
  · exact hcompound h.definition hp
  · exact hcompound h.definition hp
  · obtain ⟨d, hd, kd⟩ := of_simple hp
    exact ⟨.simple d, hd, kd⟩

theorem of_elsePart {c c' : Cursor} {ss : List Stmt} (hp : elsePart n n c = .ok (ss, c')) :
    ∃ (clauses : StmtDerivation .clauses) (orelse : StmtDerivation .orelse) (cs : List Clause)
      (es : List Stmt), clauses.act = .ok cs ∧ orelse.act = .ok es ∧ chain es cs = .ok ss
        ∧ c.Consumes (clauses.tokens ++ orelse.tokens) c' := by
  rw [elsePart] at hp
  obtain ⟨clauses, cs, _, hcs, kcs, hp⟩ := h.clauses.of_bind hp
  obtain ⟨else_, _, kelse, hp⟩ | ⟨_, hp⟩ := of_ifAccept hp
  · obtain ⟨colon, _, kcolon, hp⟩ := of_bind_expect hp
    obtain ⟨body, es, _, hbody, kbody, hp⟩ := h.suite.of_bind hp
    obtain ⟨rfl, hchain⟩ := of_chainClauses hp
    exact ⟨clauses, .otherwise else_ colon body, cs, es, hcs, hbody, hchain,
      kcs.trans (kelse.cons (kcolon.cons kbody))⟩
  · obtain ⟨rfl, hchain⟩ := of_chainClauses hp
    exact ⟨clauses, .nothingElse, cs, [], hcs, rfl, hchain, kcs.trans (.refl _)⟩

theorem conditional_succ : StmtDerives .compound (Parser.conditional (n + 1)) := by
  intro c v c' hp
  rw [conditional_eq, bind_ok (start_eq c)] at hp
  obtain ⟨if_, _, kif, hp⟩ := of_bind_expect hp
  obtain ⟨test, _, _, htest, ktest, hp⟩ := (exprDerivations n).expression.of_bind hp
  obtain ⟨colon, _, kcolon, hp⟩ := of_bind_expect hp
  obtain ⟨body, _, _, hbody, kbody, hp⟩ := h.suite.of_bind hp
  obtain ⟨_, _, hrest, hp⟩ := Parser.of_bind hp
  obtain ⟨clauses, orelse, _, _, hcs, horelse, hchain, krest⟩ := h.of_elsePart hrest
  refine ⟨.conditional if_ test colon body clauses orelse, of_makeCompound ?_ ?_ hp⟩
  · exact kif.cons (ktest.trans (kcolon.cons (kbody.trans krest)))
  · rw [StmtDerivation.act, htest, hbody, hcs, horelse]
    change (do Grammar.makeStmt _ (.ifElse _ _ (← chain _ _))) = _
    rw [hchain]
    rfl

theorem clauses_succ : StmtDerives .clauses (Parser.clauses (n + 1)) := by
  intro c v c' hp
  rw [Parser.clauses, bind_ok (start_eq c)] at hp
  obtain ⟨elif_, _, kelif, hp⟩ | ⟨_, hp⟩ := of_ifAccept hp
  · obtain ⟨test, _, _, htest, ktest, hp⟩ := (exprDerivations n).expression.of_bind hp
    obtain ⟨colon, _, kcolon, hp⟩ := of_bind_expect hp
    obtain ⟨body, _, c₁, hbody, kbody, hp⟩ := h.suite.of_bind hp
    rw [bind_ok (stop_eq c₁)] at hp
    obtain ⟨rest, _, _, hrest, krest, hp⟩ := h.clauses.of_bind hp
    obtain ⟨rfl, rfl⟩ := of_pure hp
    have k := kelif.cons (ktest.trans (kcolon.cons kbody))
    refine ⟨.clause elif_ test colon body rest, ?_, k.trans krest⟩
    rw [StmtDerivation.act, htest, hbody, hrest, k.place (List.cons_ne_nil _ _)]
    rfl
  · obtain ⟨rfl, rfl⟩ := of_pure hp
    exact ⟨.noClauses, rfl, .refl _⟩

theorem whileLoop_succ : StmtDerives .compound (Parser.whileLoop (n + 1)) := by
  intro c v c' hp
  rw [Parser.whileLoop, bind_ok (start_eq c)] at hp
  obtain ⟨while_, _, kwhile, hp⟩ := of_bind_expect hp
  obtain ⟨test, _, _, htest, ktest, hp⟩ := (exprDerivations n).expression.of_bind hp
  obtain ⟨colon, _, kcolon, hp⟩ := of_bind_expect hp
  obtain ⟨body, _, _, hbody, kbody, hp⟩ := h.suite.of_bind hp
  refine ⟨.whileLoop while_ test colon body, of_makeCompound ?_ ?_ hp⟩
  · exact kwhile.cons (ktest.trans (kcolon.cons kbody))
  · rw [StmtDerivation.act, htest, hbody]
    rfl

theorem forLoop_succ : StmtDerives .compound (Parser.forLoop (n + 1)) := by
  intro c v c' hp
  rw [Parser.forLoop, bind_ok (start_eq c)] at hp
  obtain ⟨for_, _, kfor, hp⟩ := of_bind_expect hp
  obtain ⟨_, _, ht, hp⟩ := Parser.of_bind hp
  obtain ⟨target, htarget, ktarget⟩ := of_loopTarget ht
  obtain ⟨in_, _, kin, hp⟩ := of_bind_expect hp
  obtain ⟨iter, _, _, hiter, kiter, hp⟩ := (exprDerivations n).expression.of_bind hp
  obtain ⟨colon, _, kcolon, hp⟩ := of_bind_expect hp
  obtain ⟨body, _, _, hbody, kbody, hp⟩ := h.suite.of_bind hp
  refine ⟨.forLoop for_ target in_ iter colon body, of_makeCompound ?_ ?_ hp⟩
  · exact kfor.cons (ktarget.trans (kin.cons (kiter.trans (kcolon.cons kbody))))
  · rw [StmtDerivation.act, htarget, hiter, hbody]
    rfl

theorem definition_succ : StmtDerives .compound (Parser.definition (n + 1)) := by
  intro c v c' hp
  rw [Parser.definition, bind_ok (start_eq c)] at hp
  obtain ⟨isAsync, c₁, hasync, hp⟩ := Parser.of_bind hp
  have hopt : ∃ async_ : Option Span, async_.isSome = isAsync
      ∧ c.Consumes (async_.toList.map (Grammar.word .async_)) c₁ := by
    cases isAsync with
    | true =>
      obtain ⟨span, k⟩ := of_accept_true hasync
      exact ⟨some span, rfl, k⟩
    | false =>
      obtain ⟨rfl, _⟩ := of_accept_false hasync
      exact ⟨none, rfl, .refl _⟩
  obtain ⟨async_, rfl, kasync⟩ := hopt
  obtain ⟨def_, _, kdef, hp⟩ := of_bind_expect hp
  obtain ⟨name, _, kname, hp⟩ := of_bind_identifier hp
  obtain ⟨opening, _, kopening, hp⟩ := of_bind_expect hp
  obtain ⟨params, _, _, hparams, kparams, hp⟩ := (derives_params n).of_bind hp
  obtain ⟨closing, _, kclosing, hp⟩ := of_bind_expect hp
  obtain ⟨colon, _, kcolon, hp⟩ := of_bind_expect hp
  obtain ⟨body, _, _, hbody, kbody, hp⟩ := h.suite.of_bind hp
  refine ⟨.define async_ def_ name opening params closing colon body, of_makeCompound ?_ ?_ hp⟩
  · exact kasync.trans (kdef.cons (kname.cons (kopening.cons
      (kparams.trans (kclosing.cons (kcolon.cons kbody))))))
  · rw [StmtDerivation.act, hparams, hbody]
    rfl

theorem suite_succ : StmtDerives .suite (Parser.suite (n + 1)) := by
  intro c v c' hp
  rw [Parser.suite] at hp
  obtain ⟨newline, _, knewline, hp⟩ | ⟨_, hp⟩ := of_ifAccept hp
  · obtain ⟨_, _, hopen, hp⟩ := Parser.of_bind hp
    obtain ⟨indent, kindent⟩ := of_openBlock hopen
    obtain ⟨first, rest, dedent, hact, kblock⟩ := h.block _ _ _ hp
    exact ⟨.block newline indent first rest dedent, hact, knewline.cons (kindent.cons kblock)⟩
  · obtain ⟨d, hd, kd⟩ := of_simple hp
    exact ⟨.line d, hd, kd⟩

theorem block_succ : BlockDerives (Parser.block (n + 1)) := by
  intro c v c' hp
  rw [Parser.block] at hp
  obtain ⟨first, vs, _, hfirst, kfirst, hp⟩ := h.statement.of_bind hp
  obtain ⟨dedent, _, kdedent, hp⟩ | ⟨_, hp⟩ := of_ifAccept hp
  · obtain ⟨rfl, rfl⟩ := of_pure hp
    refine ⟨first, .noStatements, dedent, ?_, kfirst.trans kdedent⟩
    rw [StmtDerivation.act, hfirst]
    exact congrArg Except.ok (List.append_nil _)
  · obtain ⟨_, _, hrest, hp⟩ := Parser.of_bind hp
    obtain ⟨second, rest, dedent, hact, krest⟩ := h.block _ _ _ hrest
    obtain ⟨rfl, rfl⟩ := of_pure hp
    refine ⟨first, .more second rest, dedent, ?_, ?_⟩
    · rw [StmtDerivation.act, hfirst, hact]
      rfl
    · rw [StmtDerivation.tokens, List.append_assoc]
      exact kfirst.trans krest

theorem succ : StmtDerivations (n + 1) where
  statement := h.statement_succ
  conditional := h.conditional_succ
  clauses := h.clauses_succ
  whileLoop := h.whileLoop_succ
  forLoop := h.forLoop_succ
  definition := h.definition_succ
  suite := h.suite_succ
  block := h.block_succ

end StmtDerivations

theorem stmtDerivations (n : Nat) : StmtDerivations n := by
  induction n with
  | zero =>
    constructor
    case block => exact fun _ _ _ hp => (of_misplaced hp).elim
    all_goals exact StmtDerives.misplaced
  | succ n ih => exact ih.succ

-- Whatever is read up to the end of the source is a derivation of a program.
theorem of_statements {n : Nat} {c c' : Cursor} {ss : List Stmt}
    (h : statements n c = .ok (ss, c')) :
    ∃ d : Program, d.act = .ok ss ∧ c.Consumes d.tokens c' ∧ c'.rest = [] := by
  induction n generalizing c c' ss with
  | zero => exact (of_misplaced h).elim
  | succ n ih =>
    rw [statements] at h
    obtain ⟨r, c₁, hr, h⟩ := Parser.of_bind h
    cases hr
    split at h
    · obtain ⟨rfl, rfl⟩ := of_pure h
      exact ⟨.noStatements, rfl, .refl _, rfl⟩
    · obtain ⟨first, _, _, hfirst, kfirst, h⟩ := (stmtDerivations n).statement.of_bind h
      obtain ⟨_, _, hrest, h⟩ := Parser.of_bind h
      obtain ⟨rest, hact, krest, hend⟩ := ih hrest
      obtain ⟨rfl, rfl⟩ := of_pure h
      refine ⟨.more first rest, ?_, kfirst.trans krest, hend⟩
      rw [StmtDerivation.act, hfirst, hact]
      rfl

end Grammar
end NoteCell
