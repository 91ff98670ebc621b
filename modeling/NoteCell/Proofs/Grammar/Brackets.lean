import NoteCell.Proofs.Grammar.Derivations
import NoteCell.Proofs.Reading.Statements

/-!
Brackets of derived tokens. Whatever the grammar derives closes the brackets that it opens.
-/
namespace NoteCell.Grammar

def Closes (ts : List Located) : Prop := Balanced (kinds ts)

namespace Closes

variable {ts us : List Located}

theorem nil : Closes [] := Balanced.nil

theorem plain {t : Located} (ht : t.token.isPlain) (h : Closes ts) : Closes (t :: ts) :=
  Balanced.plain ht h

theorem single {t : Located} (ht : t.token.isPlain) : Closes [t] := .plain ht .nil

theorem append (h : Closes ts) (h' : Closes us) : Closes (ts ++ us) := by
  rw [Closes, kinds_append]
  exact Balanced.append h h'

theorem enclosed {opening closing : Sign} (ho : opening.opens) (hc : closing.closes) {o c : Span}
    (h : Closes ts) (h' : Closes us) : Closes (sign opening o :: (ts ++ sign closing c :: us)) := by
  rw [Closes, kinds_cons, kinds_append]
  exact Balanced.enclosed ho hc h h'

theorem of_plain (h : ∀ t ∈ ts, t.token.isPlain) : Closes ts := by
  induction ts
  case nil => exact nil
  case cons t ts ih =>
    obtain ⟨ht, hts⟩ := List.forall_mem_cons.mp h
    exact .plain ht (ih hts)

theorem flatMap {α : Type} {f : α → List Located} (h : ∀ a, Closes (f a)) (as : List α) :
    Closes (as.flatMap f) := by
  induction as
  case nil => exact nil
  case cons a as ih => exact (h a).append ih

end Closes

/-! ### Tokens of one line -/

-- A token that may stand anywhere on a line, also at its end.
def isInline : Token → Bool
  | .sign s => !s.opens && !s.closes && s != .dot
  | t => !t.isLayout

theorem isPlain_of_isInline {t : Token} (h : isInline t) : t.isPlain := by
  cases t
  case sign s =>
    have h : (!s.opens && !s.closes && s != .dot) = true := h
    exact ((Bool.and_eq_true _ _).mp h).1
  all_goals rfl

-- Tokens that make up expressions and simple statements. Brackets have their partners, and what
-- stands behind a dot is a name.
inductive Inline : List Located → Prop
  | nil : Inline []
  | cons {t : Located} {ts : List Located} (ht : isInline t.token) (h : Inline ts) : Inline (t :: ts)
  | member (dot : Span) (n : Name) {ts : List Located} (h : Inline ts) :
    Inline (sign .dot dot :: n.token :: ts)
  | enclosed {opening closing : Sign} {o c : Span} {ts us : List Located} (ho : opening.opens)
    (hc : closing.closes) (h : Inline ts) (h' : Inline us) :
    Inline (sign opening o :: (ts ++ sign closing c :: us))

namespace Inline

variable {ts us : List Located}

theorem single {t : Located} (ht : isInline t.token) : Inline [t] := .cons ht .nil

theorem append (h : Inline ts) (h' : Inline us) : Inline (ts ++ us) := by
  induction h
  case nil => exact h'
  case cons ht _ ih => exact .cons ht ih
  case member dot n _ _ ih => exact .member dot n ih
  case enclosed ho hc h _ _ ih =>
    rw [List.cons_append, List.append_assoc, List.cons_append]
    exact .enclosed ho hc h ih

theorem of_forall (h : ∀ t ∈ ts, isInline t.token) : Inline ts := by
  induction ts
  case nil => exact nil
  case cons t ts ih =>
    obtain ⟨ht, hts⟩ := List.forall_mem_cons.mp h
    exact .cons ht (ih hts)

theorem flatMap {α : Type} {f : α → List Located} (h : ∀ a, Inline (f a)) (as : List α) :
    Inline (as.flatMap f) := by
  induction as
  case nil => exact nil
  case cons a as ih => exact (h a).append ih

theorem closes (h : Inline ts) : Closes ts := by
  induction h
  case nil => exact .nil
  case cons ht _ ih => exact .plain (isPlain_of_isInline ht) ih
  case member ih => exact .plain rfl (.plain rfl ih)
  case enclosed ho hc _ _ ih ih' => exact .enclosed ho hc ih ih'

theorem isLayout_eq (h : Inline ts) : ∀ t ∈ ts, t.token.isLayout = false := by
  induction h
  case nil => exact List.forall_mem_nil _
  case cons t ts ht _ ih =>
    refine List.forall_mem_cons.mpr ⟨?_, ih⟩
    cases htoken : t.token <;> rw [htoken] at ht <;> first | rfl | cases ht
  case member ih => exact List.forall_mem_cons.mpr ⟨rfl, List.forall_mem_cons.mpr ⟨rfl, ih⟩⟩
  case enclosed ih ih' =>
    exact List.forall_mem_cons.mpr
      ⟨rfl, List.forall_mem_append.mpr ⟨ih, List.forall_mem_cons.mpr ⟨rfl, ih'⟩⟩⟩

-- A dot has a name behind it.
theorem last_ne_dot (h : Inline ts) : ∀ t ∈ ts.getLast?, t.token ≠ .sign .dot := by
  induction h
  case nil => simp
  case cons t ts ht _ ih =>
    rw [List.getLast?_cons]
    cases hlast : ts.getLast? with
    | none =>
      rintro _ ⟨⟩ hdot
      have hdot : t.token = .sign .dot := hdot
      rw [hdot] at ht
      cases ht
    | some u =>
      rw [hlast] at ih
      exact ih
  case member n ts _ ih =>
    rw [List.getLast?_cons_cons, List.getLast?_cons]
    cases hlast : ts.getLast? with
    | none =>
      rintro _ ⟨⟩ hdot
      cases hdot
    | some u =>
      rw [hlast] at ih
      exact ih
  case enclosed opening closing o c ts us _ hc _ _ _ ih =>
    have hlast : (sign opening o :: (ts ++ sign closing c :: us)).getLast?
        = some (us.getLast?.getD (sign closing c)) := by
      rw [List.getLast?_cons, List.getLast?_append, List.getLast?_cons]
      rfl
    rw [hlast]
    cases hus : us.getLast? with
    | none =>
      rintro _ ⟨⟩ hdot
      obtain rfl : closing = .dot := Token.sign.inj hdot
      cases hc
    | some u =>
      rw [hus] at ih
      exact ih

end Inline

theorem isInline_of_joint? {f : Family} {t : Token} {joint : Joint} (h : f.joint? t = some joint) :
    isInline t := by
  cases t
  case sign s => cases f <;> cases s <;> first | rfl | cases h
  case newline | indent | dedent => cases f <;> cases h
  all_goals rfl

theorem isInline_of_augmented? {t : Token} {op : BinaryOp} (h : t.augmented? = some op) :
    isInline t := by
  cases t
  case sign s => cases s <;> first | rfl | cases h
  case newline | indent | dedent => cases h
  all_goals rfl

theorem Comparator.inline (op : Comparator) : Inline op.words := by
  have hinline : ∀ t ∈ op.op.tokens, isInline t := by cases op.op <;> decide
  rw [← op.spelled] at hinline
  exact .of_forall fun t ht => hinline t.token (List.mem_map_of_mem ht)

theorem Derivation.inline {s : Symbol} (d : Derivation s) : Inline d.tokens := by
  induction d
  case conditional hbody htest horelse =>
    exact hbody.append (.cons rfl (htest.append (.cons rfl horelse)))
  case joined f _ link _ hleft hright =>
    exact hleft.append (.cons (isInline_of_joint? link.joint_eq) hright)
  case compared op _ _ hleft hright hrest =>
    exact hleft.append (op.inline.append (hright.append hrest))
  case comparison op _ _ hright hrest => exact op.inline.append (hright.append hrest)
  case not h | minus h | plus h | await h => exact .cons rfl h
  case power hbase hexponent => exact hbase.append (.cons rfl hexponent)
  case member dot n hvalue => exact hvalue.append (.member dot n .nil)
  case call hfunc hargs => exact hfunc.append (.enclosed rfl rfl hargs .nil)
  case subscript hvalue hindex => exact hvalue.append (.enclosed rfl rfl hindex .nil)
  case keyword htarget hvalue => exact htarget.append (.cons rfl hvalue)
  case strings first rest =>
    exact .cons rfl (.of_forall (List.forall_mem_map.mpr fun _ _ => rfl))
  case enclosed h => exact .enclosed rfl rfl h .nil
  case unit => exact .enclosed rfl rfl .nil .nil
  case tuple opening _ comma _ closing hfirst hrest =>
    have hitems := hfirst.append (hrest.cons (t := sign .comma comma) rfl)
    have h := @Inline.enclosed .lparen .rparen opening closing _ _ rfl rfl hitems .nil
    rwa [List.append_assoc, List.cons_append] at h
  case list h => exact .enclosed rfl rfl h .nil
  case dict h => exact .enclosed rfl rfl h .nil
  case entry hkey hvalue => exact hkey.append (.cons rfl hvalue)
  case optional h => exact .cons rfl (.cons rfl h)
  case item hitem hrest => exact hitem.append (.cons rfl hrest)
  case name | int | float | true_ | false_ | none_ | required => exact .single rfl
  case noComparisons | noItems => exact .nil
  all_goals assumption

theorem Derivation.closes {s : Symbol} (d : Derivation s) : Closes d.tokens := d.inline.closes

/-! ### Simple statements -/

theorem TestList.inline (t : TestList) : Inline t.tokens := by
  cases t with
  | single e => exact e.inline
  | tuple first comma rest => exact first.inline.append (.cons rfl rest.inline)

theorem TestList.closes (t : TestList) : Closes t.tokens := t.inline.closes

theorem DottedName.inline (d : DottedName) : Inline d.tokens :=
  .cons rfl (.flatMap (fun p => .member p.1 p.2 .nil) d.rest)

theorem ImportAlias.inline (a : ImportAlias) : Inline a.tokens :=
  a.name.inline.append (.flatMap (fun _ => .cons rfl (.single rfl)) a.asname.toList)

theorem ImportAliases.inline (as : ImportAliases) : Inline as.tokens :=
  as.first.inline.append (.flatMap (fun p => .cons rfl p.2.inline) as.rest)

theorem SmallStatement.inline (s : SmallStatement) : Inline s.tokens := by
  cases s with
  | assignment first rest =>
    exact first.inline.append (.flatMap (fun p => .cons rfl p.2.inline) rest)
  | augmented target op value =>
    exact target.inline.append (.cons (isInline_of_augmented? op.op_eq) value.inline)
  | pass | breakLoop | continueLoop => exact .single rfl
  | ret _ value => exact .cons rfl (.flatMap TestList.inline value.toList)
  | raise _ exc => exact .cons rfl (.flatMap Derivation.inline exc.toList)
  | imports _ names => exact .cons rfl names.inline
  | importFrom _ path _ names => exact .cons rfl (path.inline.append (.cons rfl names.inline))

theorem SmallStatement.closes (s : SmallStatement) : Closes s.tokens := s.inline.closes

/-! ### Statements -/

theorem SimpleStatements.closes (s : SimpleStatements) : Closes s.tokens := by
  have hrest : Closes (smallTokens s.rest) := .flatMap (fun p => .plain rfl p.2.closes) s.rest
  have hending : Closes s.ending := by
    rw [SimpleStatements.ending]
    cases s.semicolon with
    | none => exact .single rfl
    | some span => exact .plain rfl (.single rfl)
  exact s.first.closes.append (hrest.append hending)

theorem ForTarget.closes (t : ForTarget) : Closes t.tokens := by
  cases t with
  | single n => exact .single rfl
  | tuple first comma second rest =>
    exact .plain rfl (.plain rfl (.plain rfl (.flatMap (fun _ => .plain rfl (.single rfl)) rest)))

theorem StmtDerivation.closes {s : StmtSymbol} (d : StmtDerivation s) : Closes d.tokens := by
  induction d
  case simple s => exact s.closes
  case compound h => exact h
  case conditional test _ _ _ _ hbody hclauses horelse =>
    exact .plain rfl (test.closes.append (.plain rfl (hbody.append (hclauses.append horelse))))
  case whileLoop test _ _ hbody => exact .plain rfl (test.closes.append (.plain rfl hbody))
  case forLoop target _ iter _ _ hbody =>
    exact .plain rfl (target.closes.append (.plain rfl (iter.closes.append (.plain rfl hbody))))
  case define async_ _ _ _ params _ _ _ hbody =>
    cases async_ with
    | none => exact .plain rfl (.plain rfl (.enclosed rfl rfl params.closes (.plain rfl hbody)))
    | some span =>
      exact .plain rfl (.plain rfl (.plain rfl (.enclosed rfl rfl params.closes (.plain rfl hbody))))
  case line s => exact s.closes
  case block hfirst hrest =>
    exact .plain rfl (.plain rfl (hfirst.append (hrest.append (.single rfl))))
  case noStatements | noClauses | nothingElse => exact .nil
  case more hfirst hrest => exact hfirst.append hrest
  case clause test _ _ _ hbody hrest =>
    exact (Closes.plain rfl (test.closes.append (.plain rfl hbody))).append hrest
  case otherwise hbody => exact .plain rfl (.plain rfl hbody)

end NoteCell.Grammar
