import NoteCell.Proofs.Grammar.Unambiguous
import NoteCell.Proofs.Grammar.DerivedStatements

/-!
No row of tokens has two derivations of a program.
-/
namespace NoteCell.Grammar

open NoteCell.Parser

/-! ### First tokens -/

theorem startsStatement_of_opens {k : Nat} {t : Token} (h : t.opens k) : t.startsStatement := by
  cases t
  case word w => cases w <;> first | rfl | cases h
  case sign s => cases s <;> first | rfl | cases h
  all_goals first | rfl | cases h

-- A row of tokens that begins with the first of a statement.
def Starts (ts : List Located) : Prop := ∃ t us, ts = t :: us ∧ t.token.startsStatement

theorem Starts.append {ts : List Located} (h : Starts ts) (us : List Located) :
    Starts (ts ++ us) := by
  obtain ⟨t, vs, rfl, ht⟩ := h
  exact ⟨t, vs ++ us, rfl, ht⟩

theorem starts_level {l : Level} (d : Derivation (.level l)) : Starts d.tokens := by
  obtain ⟨t, ts, hkinds, ht⟩ := opens_tokens d
  obtain ⟨u, us, hu, rfl, -⟩ := List.map_eq_cons_iff.mp hkinds
  exact ⟨u, us, hu, startsStatement_of_opens ht⟩

theorem TestList.starts (t : TestList) : Starts t.tokens := by
  cases t with
  | single e => exact starts_level e
  | tuple first => exact (starts_level first).append _

theorem SmallStatement.starts (s : SmallStatement) : Starts s.tokens := by
  cases s with
  | assignment first rest => exact first.starts.append _
  | augmented target op value => exact (starts_level target).append _
  | _ => exact ⟨_, _, rfl, rfl⟩

theorem SimpleStatements.starts (s : SimpleStatements) : Starts s.tokens :=
  s.first.starts.append _

theorem StmtDerivation.starts {s : StmtSymbol} (d : StmtDerivation s)
    (hs : s = .statement ∨ s = .compound) : Starts d.tokens := by
  cases d with
  | simple s => exact s.starts
  | compound s => exact s.starts (.inr rfl)
  | define async_ => cases async_ <;> exact ⟨_, _, rfl, rfl⟩
  | conditional | whileLoop | forLoop => exact ⟨_, _, rfl, rfl⟩
  | _ => simp at hs

/-! ### Lists of expressions -/

-- Tokens behind a list of expressions.
abbrev EndsList (ts : List Located) : Prop := (Symbol.comma (.level .expression)).Ends ts

-- Tokens behind a simple statement.
def EndsSmall (ts : List Located) : Prop :=
  ∃ t us, ts = t :: us ∧ (t.token = .newline ∨ t.token = .sign .semicolon)

theorem endsList_cons {t : Located} {ts : List Located} (hhold : t.token.hold = 0)
    (hcomma : t.token ≠ .sign .comma) (hstarts : t.token.startsExpression = false) :
    EndsList (t :: ts) := by
  refine ⟨Nat.lt_one_iff.mpr hhold, fun h => hcomma (Option.some.inj h), fun h => ?_⟩
  have h : t.token.startsExpression = true := Opens.startsWith h []
  rw [hstarts] at h
  cases h

theorem EndsSmall.list {ts : List Located} (h : EndsSmall ts) : EndsList ts := by
  obtain ⟨t, us, rfl, ht⟩ := h
  obtain ht | ht := ht <;> exact endsList_cons (by rw [ht]; rfl) (by simp [ht]) (by rw [ht]; rfl)

theorem EndsSmall.not_starts {ts us : List Located} (h : EndsSmall (ts ++ us)) (hs : Starts ts) :
    False := by
  obtain ⟨t, vs, rfl, ht⟩ := hs
  obtain ⟨u, ws, heq, hu⟩ := h
  obtain ⟨rfl, -⟩ := List.cons.inj heq
  obtain hu | hu := hu <;> rw [hu] at ht <;> cases ht

theorem EndsSmall.head_ne {t : Located} {ts : List Located} (h : EndsSmall (t :: ts))
    (hnewline : t.token ≠ .newline) (hsemicolon : t.token ≠ .sign .semicolon) : False := by
  obtain ⟨u, us, heq, hu⟩ := h
  obtain ⟨rfl, -⟩ := List.cons.inj heq
  exact hu.elim hnewline hsemicolon

section

variable {rest rest' : List Located}

/-! ### Parts led by a sign -/

-- Tokens that do not begin with one of the given.
def NotBefore (stops : List Token) (ts : List Located) : Prop := ∀ t ∈ ts.head?, t.token ∉ stops

theorem EndsSmall.notBefore {stops : List Token} (h : EndsSmall rest)
    (hstops : .newline ∉ stops ∧ .sign .semicolon ∉ stops) : NotBefore stops rest := by
  obtain ⟨t, ts, rfl, ht⟩ := h
  rintro u hu
  obtain rfl := Option.some.inj hu
  obtain ht | ht := ht
  · rw [ht]
    exact hstops.1
  · rw [ht]
    exact hstops.2

theorem notBefore_cons {stops : List Token} {t : Located} {ts : List Located}
    (h : t.token ∉ stops) : NotBefore stops (t :: ts) := by
  rintro u hu
  obtain rfl := Option.some.inj hu
  exact h

theorem NotBefore.head {stops : List Token} {t : Located} {ts : List Located}
    (h : NotBefore stops (t :: ts)) (ht : t.token ∈ stops) : False :=
  h t rfl ht

-- Parts that are each led by the same sign.
theorem led_eq {α : Type} {lead : Sign} (tokens : α → List Located) (Ends : List Located → Prop)
    (hpart : ∀ a a' ts ts', Ends ts → Ends ts' → tokens a ++ ts = tokens a' ++ ts' →
      a = a' ∧ ts = ts')
    (hlead : ∀ span ts, Ends (sign lead span :: ts)) {as as' : List (Span × α)}
    (hrest : Ends rest ∧ NotBefore [.sign lead] rest)
    (hrest' : Ends rest' ∧ NotBefore [.sign lead] rest')
    (h : (as.flatMap fun p => sign lead p.1 :: tokens p.2) ++ rest
      = (as'.flatMap fun p => sign lead p.1 :: tokens p.2) ++ rest') :
    as = as' ∧ rest = rest' := by
  have hends {rest : List Located} (as : List (Span × α)) (hrest : Ends rest) :
      Ends ((as.flatMap fun p => sign lead p.1 :: tokens p.2) ++ rest) := by
    cases as with
    | nil => exact hrest
    | cons p as => exact hlead p.1 _
  induction as generalizing as' with
  | nil =>
    cases as' with
    | nil => exact ⟨rfl, h⟩
    | cons p as' =>
      rw [List.flatMap_nil, List.nil_append] at h
      subst h
      exact (hrest.2.head (by simp [sign])).elim
  | cons p as ih =>
    cases as' with
    | nil =>
      rw [List.flatMap_nil, List.nil_append] at h
      subst h
      exact (hrest'.2.head (by simp [sign])).elim
    | cons p' as' =>
      obtain ⟨span, a⟩ := p
      obtain ⟨span', a'⟩ := p'
      simp only [List.flatMap_cons, List.append_assoc, List.cons_append] at h
      obtain ⟨hspan, h₁⟩ := List.cons.inj h
      obtain ⟨rfl, h₂⟩ := hpart a a' _ _ (hends as hrest.1) (hends as' hrest'.1) h₁
      obtain ⟨rfl, rfl⟩ := ih h₂
      cases hspan
      exact ⟨rfl, rfl⟩

/-! ### Assignments -/

theorem TestList.eq {t t' : TestList} (hrest : EndsList rest) (hrest' : EndsList rest')
    (h : t.tokens ++ rest = t'.tokens ++ rest') : t = t' ∧ rest = rest' := by
  cases t with
  | single e =>
    cases t' with
    | single e' =>
      obtain ⟨rfl, rfl⟩ := (unique e trivial).eq hrest.1 hrest'.1 h
      exact ⟨rfl, rfl⟩
    | tuple first' comma' items' =>
      simp only [TestList.tokens, List.append_assoc, List.cons_append] at h
      obtain ⟨rfl, rfl⟩ := (unique e trivial).eq hrest.1 (ends_level rfl) h
      exact (hrest.2.1 rfl).elim
  | tuple first comma items =>
    cases t' with
    | single e' =>
      simp only [TestList.tokens, List.append_assoc, List.cons_append] at h
      obtain ⟨rfl, rfl⟩ := (unique first trivial).eq (ends_level rfl) hrest'.1 h
      exact (hrest'.2.1 rfl).elim
    | tuple first' comma' items' =>
      simp only [TestList.tokens, List.append_assoc, List.cons_append] at h
      obtain ⟨rfl, h₁⟩ := (unique first trivial).eq (ends_level rfl) (ends_level rfl) h
      obtain ⟨hcomma, h₂⟩ := List.cons.inj h₁
      obtain ⟨rfl, rfl⟩ := (unique items trivial).eq hrest hrest' h₂
      cases hcomma
      exact ⟨rfl, rfl⟩

theorem endsList_assigned (as : List (Span × TestList)) (hrest : EndsSmall rest) :
    EndsList (assignedTokens as ++ rest) := by
  cases as with
  | nil => exact hrest.list
  | cons p as => exact endsList_cons rfl (by simp [sign]) rfl

theorem assigned_eq {as as' : List (Span × TestList)} (hrest : EndsSmall rest)
    (hrest' : EndsSmall rest')
    (h : assignedTokens as ++ rest = assignedTokens as' ++ rest') : as = as' ∧ rest = rest' :=
  led_eq TestList.tokens EndsList (fun _ _ _ _ => TestList.eq)
    (fun _ _ => endsList_cons rfl (by simp [sign]) rfl)
    ⟨hrest.list, hrest.notBefore (by simp)⟩ ⟨hrest'.list, hrest'.notBefore (by simp)⟩ h

/-! ### Imports -/

theorem Name.eq_of_append {n n' : Name} {ts ts' : List Located}
    (h : [n.token] ++ ts = [n'.token] ++ ts') : n = n' ∧ ts = ts' :=
  have ⟨hn, hts⟩ := List.cons.inj h
  ⟨Name.ext_token hn, hts⟩

theorem DottedName.eq {d d' : DottedName} (hrest : NotBefore [.sign .dot] rest)
    (hrest' : NotBefore [.sign .dot] rest') (h : d.tokens ++ rest = d'.tokens ++ rest') :
    d = d' ∧ rest = rest' := by
  obtain ⟨first, parts⟩ := d
  obtain ⟨first', parts'⟩ := d'
  obtain ⟨hfirst, h₁⟩ := List.cons.inj h
  obtain rfl := Name.ext_token hfirst
  obtain ⟨rfl, rfl⟩ := led_eq (fun n : Name => [n.token]) (fun _ => True)
    (fun _ _ _ _ _ _ => Name.eq_of_append) (fun _ _ => trivial) ⟨trivial, hrest⟩
    ⟨trivial, hrest'⟩ h₁
  exact ⟨rfl, rfl⟩

theorem ImportAlias.eq {a a' : ImportAlias} (hrest : NotBefore [.sign .dot, .word .as_] rest)
    (hrest' : NotBefore [.sign .dot, .word .as_] rest')
    (h : a.tokens ++ rest = a'.tokens ++ rest') : a = a' ∧ rest = rest' := by
  obtain ⟨name, asname⟩ := a
  obtain ⟨name', asname'⟩ := a'
  have hends {rest : List Located} (asname : Option (Span × Name))
      (hrest : NotBefore [.sign .dot, .word .as_] rest) : NotBefore [.sign .dot]
        ((asname.toList.flatMap fun p => [word .as_ p.1, p.2.token]) ++ rest) := by
    cases asname with
    | none =>
      intro t ht hdot
      exact hrest t ht (List.mem_cons.mpr (.inl (List.mem_singleton.mp hdot)))
    | some p => exact notBefore_cons (by simp [word])
  simp only [ImportAlias.tokens, List.append_assoc] at h
  obtain ⟨rfl, h₁⟩ := DottedName.eq (hends asname hrest) (hends asname' hrest') h
  cases asname with
  | none =>
    cases asname' with
    | none => exact ⟨rfl, h₁⟩
    | some p =>
      subst h₁
      exact (hrest.head (by simp [word])).elim
  | some p =>
    cases asname' with
    | none =>
      subst h₁
      exact (hrest'.head (by simp [word])).elim
    | some p' =>
      obtain ⟨has, h₂⟩ := List.cons.inj h₁
      obtain ⟨hname, rfl⟩ := List.cons.inj h₂
      have hp : p = p' := Prod.ext (congrArg Located.span has) (Name.ext_token hname)
      exact ⟨by rw [hp], rfl⟩

theorem ImportAliases.eq {as as' : ImportAliases} (hrest : EndsSmall rest)
    (hrest' : EndsSmall rest') (h : as.tokens ++ rest = as'.tokens ++ rest') :
    as = as' ∧ rest = rest' := by
  obtain ⟨first, parts⟩ := as
  obtain ⟨first', parts'⟩ := as'
  have hends {rest : List Located} (parts : List (Span × ImportAlias)) (hrest : EndsSmall rest) :
      NotBefore [.sign .dot, .word .as_]
        ((parts.flatMap fun p => sign .comma p.1 :: p.2.tokens) ++ rest) := by
    cases parts with
    | nil => exact hrest.notBefore (by simp)
    | cons p parts => exact notBefore_cons (by simp [sign])
  simp only [ImportAliases.tokens, List.append_assoc] at h
  obtain ⟨rfl, h₁⟩ := ImportAlias.eq (hends parts hrest) (hends parts' hrest') h
  obtain ⟨rfl, rfl⟩ := led_eq ImportAlias.tokens (NotBefore [.sign .dot, .word .as_])
    (fun _ _ _ _ => ImportAlias.eq) (fun _ _ => notBefore_cons (by simp [sign]))
    ⟨hrest.notBefore (by simp), hrest.notBefore (by simp)⟩
    ⟨hrest'.notBefore (by simp), hrest'.notBefore (by simp)⟩ h₁
  exact ⟨rfl, rfl⟩

/-! ### Simple statements -/

-- The word that a simple statement begins with, if it is not an expression.
def SmallStatement.keyword? : SmallStatement → Option Keyword
  | assignment .. | augmented .. => none
  | pass _ => some .pass_
  | breakLoop _ => some .break_
  | continueLoop _ => some .continue_
  | ret .. => some .return_
  | raise .. => some .raise_
  | imports .. => some .import_
  | importFrom .. => some .from_

theorem not_opens_word {l : Level} {d : Derivation (.level l)} {k : Keyword} {span : Span}
    {ts : List Located} (hk : (Token.word k).startsExpression = false)
    (h : word k span :: ts = d.tokens ++ rest) : False := by
  have hstarts := (opens_tokens d).startsWith (kinds rest)
  rw [← kinds_append, ← h] at hstarts
  have hstarts : (Token.word k).startsExpression = true := hstarts
  rw [hk] at hstarts
  cases hstarts

theorem SmallStatement.keyword?_eq {s : SmallStatement} {k : Keyword} {span : Span}
    {ts : List Located} (hk : (Token.word k).startsExpression = false)
    (h : word k span :: ts = s.tokens ++ rest) : s.keyword? = some k := by
  cases s
  case assignment first assigned =>
    cases first with
    | single e =>
      rw [SmallStatement.tokens, TestList.tokens, List.append_assoc] at h
      exact (not_opens_word hk h).elim
    | tuple first comma items =>
      rw [SmallStatement.tokens, TestList.tokens, List.append_assoc, List.append_assoc] at h
      exact (not_opens_word hk h).elim
  case augmented target op value =>
    rw [SmallStatement.tokens, List.append_assoc] at h
    exact (not_opens_word hk h).elim
  all_goals
    obtain ⟨hword, -⟩ := List.cons.inj h
    cases hword
    rfl

theorem AugOp.ext_token {op op' : AugOp} (h : op.token = op'.token) : op = op' := by
  obtain ⟨t, op, hop⟩ := op
  obtain ⟨t', op', hop'⟩ := op'
  cases h
  obtain rfl := Option.some.inj (hop.symm.trans hop')
  rfl

theorem AugOp.ends (op : AugOp) (ts : List Located) : EndsList (op.token :: ts) := by
  obtain ⟨⟨t, span⟩, op, hop⟩ := op
  have hop : t.augmented? = some op := hop
  unfold Token.augmented? at hop
  split at hop
  case h_8 => cases hop
  all_goals exact endsList_cons rfl (by simp) rfl

theorem AugOp.not_ends_assigned {op : AugOp} {ts : List Located} {as : List (Span × TestList)}
    (hrest : EndsSmall rest) (h : assignedTokens as ++ rest = op.token :: ts) : False := by
  obtain ⟨⟨t, span⟩, op, hop⟩ := op
  have hop : t.augmented? = some op := hop
  cases as with
  | nil =>
    rw [assignedTokens, List.flatMap_nil, List.nil_append] at h
    subst h
    refine hrest.head_ne ?_ ?_ <;> rintro rfl <;> cases hop
  | cons p as =>
    obtain ⟨hsign, -⟩ := List.cons.inj h
    cases hsign
    cases hop

theorem SmallStatement.not_augmented {target : Expression} {op : AugOp} {first : TestList}
    {as : List (Span × TestList)} {ts : List Located} (hrest : EndsSmall rest)
    (h : target.tokens ++ op.token :: ts = first.tokens ++ (assignedTokens as ++ rest)) :
    False := by
  cases first with
  | single e =>
    obtain ⟨rfl, h₁⟩ := (unique target trivial).eq (op.ends ts).1 (endsList_assigned as hrest).1 h
    exact AugOp.not_ends_assigned hrest h₁.symm
  | tuple first comma items =>
    rw [TestList.tokens, List.append_assoc] at h
    obtain ⟨rfl, h₁⟩ := (unique target trivial).eq (op.ends ts).1 (ends_level rfl) h
    obtain ⟨hop, -⟩ := List.cons.inj h₁
    have hcomma := op.op_eq
    rw [hop] at hcomma
    cases hcomma

theorem EndsSmall.option_eq {α : Type} {tokens : α → List Located} {a a' : Option α}
    (hpart : ∀ a a' ts ts', EndsSmall ts → EndsSmall ts' → tokens a ++ ts = tokens a' ++ ts' →
      a = a' ∧ ts = ts')
    (hstarts : ∀ a, Starts (tokens a)) (hrest : EndsSmall rest) (hrest' : EndsSmall rest')
    (h : a.toList.flatMap tokens ++ rest = a'.toList.flatMap tokens ++ rest') :
    a = a' ∧ rest = rest' := by
  cases a with
  | none =>
    cases a' with
    | none => exact ⟨rfl, h⟩
    | some a' =>
      simp only [Option.toList_none, Option.toList_some, List.flatMap_nil, List.flatMap_singleton,
        List.nil_append] at h
      subst h
      exact (hrest.not_starts (hstarts a')).elim
  | some a =>
    cases a' with
    | none =>
      simp only [Option.toList_none, Option.toList_some, List.flatMap_nil, List.flatMap_singleton,
        List.nil_append] at h
      subst h
      exact (hrest'.not_starts (hstarts a)).elim
    | some a' =>
      simp only [Option.toList_some, List.flatMap_singleton] at h
      obtain ⟨rfl, rfl⟩ := hpart a a' _ _ hrest hrest' h
      exact ⟨rfl, rfl⟩

theorem SmallStatement.eq {s s' : SmallStatement} (hrest : EndsSmall rest)
    (hrest' : EndsSmall rest') (h : s.tokens ++ rest = s'.tokens ++ rest') :
    s = s' ∧ rest = rest' := by
  cases s
  case assignment first as =>
    cases s'
    case assignment first' as' =>
      simp only [SmallStatement.tokens, List.append_assoc] at h
      obtain ⟨rfl, h₁⟩ := TestList.eq (endsList_assigned as hrest) (endsList_assigned as' hrest') h
      obtain ⟨rfl, rfl⟩ := assigned_eq hrest hrest' h₁
      exact ⟨rfl, rfl⟩
    case augmented target' op' value' =>
      simp only [SmallStatement.tokens, List.append_assoc, List.cons_append] at h
      exact (SmallStatement.not_augmented hrest h.symm).elim
    all_goals cases keyword?_eq rfl h.symm
  case augmented target op value =>
    cases s'
    case assignment first' as' =>
      simp only [SmallStatement.tokens, List.append_assoc, List.cons_append] at h
      exact (SmallStatement.not_augmented hrest' h).elim
    case augmented target' op' value' =>
      simp only [SmallStatement.tokens, List.append_assoc, List.cons_append] at h
      obtain ⟨rfl, h₁⟩ := (unique target trivial).eq (op.ends _).1 (op'.ends _).1 h
      obtain ⟨hop, h₂⟩ := List.cons.inj h₁
      obtain rfl := AugOp.ext_token hop
      obtain ⟨rfl, rfl⟩ := TestList.eq hrest.list hrest'.list h₂
      exact ⟨rfl, rfl⟩
    all_goals cases keyword?_eq rfl h.symm
  case pass | breakLoop | continueLoop =>
    have hword := keyword?_eq rfl h
    cases s' <;> cases hword
    obtain ⟨hspan, rfl⟩ := List.cons.inj h
    cases hspan
    exact ⟨rfl, rfl⟩
  case ret value =>
    have hword := keyword?_eq rfl h
    cases s' <;> cases hword
    obtain ⟨hspan, h₁⟩ := List.cons.inj h
    obtain ⟨rfl, rfl⟩ := EndsSmall.option_eq (fun _ _ _ _ h h' => TestList.eq h.list h'.list)
      TestList.starts hrest hrest' h₁
    cases hspan
    exact ⟨rfl, rfl⟩
  case raise exc =>
    have hword := keyword?_eq rfl h
    cases s' <;> cases hword
    obtain ⟨hspan, h₁⟩ := List.cons.inj h
    obtain ⟨rfl, rfl⟩ := EndsSmall.option_eq
      (fun (e : Expression) _ _ _ h h' => (unique e trivial).eq h.list.1 h'.list.1)
      starts_level hrest hrest' h₁
    cases hspan
    exact ⟨rfl, rfl⟩
  case imports names =>
    have hword := keyword?_eq rfl h
    cases s' <;> cases hword
    obtain ⟨hspan, h₁⟩ := List.cons.inj h
    obtain ⟨rfl, rfl⟩ := ImportAliases.eq hrest hrest' h₁
    cases hspan
    exact ⟨rfl, rfl⟩
  case importFrom path import_ names =>
    have hword := keyword?_eq rfl h
    cases s' <;> cases hword
    simp only [SmallStatement.tokens, List.append_assoc, List.cons_append] at h
    obtain ⟨hspan, h₁⟩ := List.cons.inj h
    obtain ⟨rfl, h₂⟩ := DottedName.eq (notBefore_cons (by simp [word]))
      (notBefore_cons (by simp [word])) h₁
    obtain ⟨himport, h₃⟩ := List.cons.inj h₂
    obtain ⟨rfl, rfl⟩ := ImportAliases.eq hrest hrest' h₃
    cases hspan
    cases himport
    exact ⟨rfl, rfl⟩

theorem endsSmall_smalls (as : List (Span × SmallStatement)) (semicolon : Option Span)
    (newline : Span) : EndsSmall (smallTokens as
      ++ (semicolon.toList.map (sign .semicolon) ++ ⟨.newline, newline⟩ :: rest)) := by
  cases as with
  | nil =>
    cases semicolon with
    | none => exact ⟨_, _, rfl, .inl rfl⟩
    | some semicolon => exact ⟨_, _, rfl, .inr rfl⟩
  | cons p as => exact ⟨_, _, rfl, .inr rfl⟩

-- A semicolon that ends its line is followed by no statement.
theorem not_smalls {p : Span × SmallStatement} {as : List (Span × SmallStatement)}
    {semicolon : Option Span} {newline : Span} {ts : List Located}
    (h : semicolon.toList.map (sign .semicolon) ++ ⟨.newline, newline⟩ :: rest
      = smallTokens (p :: as) ++ ts) : False := by
  rw [smallTokens, List.flatMap_cons, List.append_assoc, List.cons_append] at h
  cases semicolon with
  | none => cases (List.cons.inj h).1
  | some semicolon =>
    obtain ⟨-, h₁⟩ := List.cons.inj h
    have hends : EndsSmall (p.2.tokens ++ (smallTokens as ++ ts)) := ⟨_, _, h₁.symm, .inl rfl⟩
    exact hends.not_starts p.2.starts

-- Statements behind semicolons, and the end of their line.
theorem smalls_eq {as as' : List (Span × SmallStatement)} {semicolon semicolon' : Option Span}
    {newline newline' : Span}
    (h : smallTokens as ++ (semicolon.toList.map (sign .semicolon) ++ ⟨.newline, newline⟩ :: rest)
      = smallTokens as'
        ++ (semicolon'.toList.map (sign .semicolon) ++ ⟨.newline, newline'⟩ :: rest')) :
    as = as' ∧ semicolon = semicolon' ∧ newline = newline' ∧ rest = rest' := by
  induction as generalizing as' with
  | nil =>
    cases as' with
    | nil =>
      cases semicolon with
      | none =>
        cases semicolon' with
        | none =>
          cases h
          exact ⟨rfl, rfl, rfl, rfl⟩
        | some semicolon' => cases (List.cons.inj h).1
      | some semicolon =>
        cases semicolon' with
        | none => cases (List.cons.inj h).1
        | some semicolon' =>
          cases h
          exact ⟨rfl, rfl, rfl, rfl⟩
    | cons p' as' => exact (not_smalls h).elim
  | cons p as ih =>
    cases as' with
    | nil => exact (not_smalls h.symm).elim
    | cons p' as' =>
      obtain ⟨span, s⟩ := p
      obtain ⟨span', s'⟩ := p'
      rw [smallTokens, List.flatMap_cons, List.append_assoc, List.cons_append, smallTokens,
        List.flatMap_cons, List.append_assoc, List.cons_append] at h
      obtain ⟨hspan, h₁⟩ := List.cons.inj h
      obtain ⟨rfl, h₂⟩ := SmallStatement.eq (endsSmall_smalls as semicolon newline)
        (endsSmall_smalls as' semicolon' newline') h₁
      obtain ⟨rfl, rfl, rfl, rfl⟩ := ih h₂
      cases hspan
      exact ⟨rfl, rfl, rfl, rfl⟩

theorem SimpleStatements.eq {s s' : SimpleStatements}
    (h : s.tokens ++ rest = s'.tokens ++ rest') : s = s' ∧ rest = rest' := by
  obtain ⟨first, as, semicolon, newline⟩ := s
  obtain ⟨first', as', semicolon', newline'⟩ := s'
  simp only [SimpleStatements.tokens, SimpleStatements.ending, List.append_assoc, List.cons_append,
    List.nil_append] at h
  obtain ⟨rfl, h₁⟩ := SmallStatement.eq (endsSmall_smalls as semicolon newline)
    (endsSmall_smalls as' semicolon' newline') h
  obtain ⟨rfl, rfl, rfl, rfl⟩ := smalls_eq h₁
  exact ⟨rfl, rfl⟩

/-! ### Compound statements -/

-- The names of a target.
def ForTarget.names : ForTarget → Name × List (Span × Name)
  | single n => (n, [])
  | tuple first comma second rest => (first, (comma, second) :: rest)

theorem ForTarget.tokens_eq (t : ForTarget) : t.tokens
    = t.names.1.token :: t.names.2.flatMap fun p => sign .comma p.1 :: [p.2.token] := by
  cases t <;> rfl

theorem ForTarget.names_inj {t t' : ForTarget} (h : t.names = t'.names) : t = t' := by
  cases t <;> cases t' <;> cases h <;> rfl

theorem ForTarget.eq {t t' : ForTarget} (hrest : NotBefore [.sign .comma] rest)
    (hrest' : NotBefore [.sign .comma] rest') (h : t.tokens ++ rest = t'.tokens ++ rest') :
    t = t' ∧ rest = rest' := by
  rw [ForTarget.tokens_eq, ForTarget.tokens_eq] at h
  obtain ⟨hfirst, h₁⟩ := List.cons.inj h
  obtain ⟨hnames, rfl⟩ := led_eq (fun n : Name => [n.token]) (fun _ => True)
    (fun _ _ _ _ _ _ => Name.eq_of_append) (fun _ _ => trivial) ⟨trivial, hrest⟩
    ⟨trivial, hrest'⟩ h₁
  exact ⟨ForTarget.names_inj (Prod.ext (Name.ext_token hfirst) hnames), rfl⟩

-- Tokens behind which a nonterminal for statements is over.
def StmtSymbol.Ends : StmtSymbol → List Located → Prop
  | statement, ts | compound, ts => NotBefore [.word .elif_, .word .else_] ts
  | suite, _ => True
  | statements, ts => ∀ t ∈ ts.head?, t.token = .dedent
  | clauses, ts => NotBefore [.word .elif_] ts
  | orelse, ts => NotBefore [.word .else_] ts

def StmtUnique {s : StmtSymbol} (d : StmtDerivation s) : Prop :=
  ∀ d' rest rest', s.Ends rest → s.Ends rest' → d.tokens ++ rest = d'.tokens ++ rest' →
    d = d' ∧ rest = rest'

theorem Starts.notBefore {ts : List Located} (h : Starts ts) (us : List Located) :
    NotBefore [.word .elif_, .word .else_] (ts ++ us) := by
  obtain ⟨t, vs, rfl, ht⟩ := h
  refine notBefore_cons ?_
  intro hmem
  simp only [List.mem_cons, List.not_mem_nil, or_false] at hmem
  obtain hmem | hmem := hmem <;> rw [hmem] at ht <;> cases ht

-- Behind a statement there may be a further one or what may stand behind all of them.
theorem ends_statements (d : StmtDerivation .statements) (hrest : StmtSymbol.statements.Ends rest) :
    StmtSymbol.statement.Ends (d.tokens ++ rest) := by
  cases d with
  | noStatements =>
    intro t ht hmem
    rw [hrest t ht] at hmem
    simp at hmem
  | more first more =>
    rw [StmtDerivation.tokens, List.append_assoc]
    exact (first.starts (.inl rfl)).notBefore _

theorem not_ends_statements {d : StmtDerivation .statement} {ts : List Located}
    (h : StmtSymbol.statements.Ends (d.tokens ++ ts)) : False := by
  obtain ⟨t, us, hus, ht⟩ := d.starts (.inl rfl)
  rw [hus] at h
  rw [h t rfl] at ht
  cases ht

-- The words that compound statements begin with.
def compoundWords : List Keyword := [.if_, .while_, .for_, .async_, .def_]

theorem StmtDerivation.exists_word (d : StmtDerivation .compound) :
    ∃ k ∈ compoundWords, ∃ span ts, d.tokens = word k span :: ts := by
  cases d with
  | conditional if_ => exact ⟨.if_, by decide, if_, _, rfl⟩
  | whileLoop while_ => exact ⟨.while_, by decide, while_, _, rfl⟩
  | forLoop for_ => exact ⟨.for_, by decide, for_, _, rfl⟩
  | define async_ def_ =>
    cases async_ with
    | none => exact ⟨.def_, by decide, def_, _, rfl⟩
    | some async_ => exact ⟨.async_, by decide, async_, _, rfl⟩

theorem SimpleStatements.not_word {s : SimpleStatements} {k : Keyword} {span : Span}
    {ts : List Located} (hk : k ∈ compoundWords)
    (h : word k span :: ts = s.tokens ++ rest) : False := by
  rw [SimpleStatements.tokens, List.append_assoc] at h
  have hplain : (Token.word k).startsExpression = false := by
    revert hk
    cases k <;> decide
  have hword := SmallStatement.keyword?_eq hplain h
  cases hs : s.first <;> rw [hs] at hword <;> cases hword <;> revert hk <;> decide

theorem not_compound {s : SimpleStatements} {d : StmtDerivation .compound}
    (h : s.tokens ++ rest = d.tokens ++ rest') : False := by
  obtain ⟨k, hk, span, ts, hts⟩ := d.exists_word
  rw [hts] at h
  exact s.not_word hk h.symm

theorem not_block {s : SimpleStatements} {newline : Span} {ts : List Located}
    (h : s.tokens ++ rest = ⟨.newline, newline⟩ :: ts) : False := by
  obtain ⟨t, us, hus, ht⟩ := s.starts
  rw [hus] at h
  obtain ⟨rfl, -⟩ := List.cons.inj h
  cases ht

end

namespace StmtUnique

theorem simple (s : SimpleStatements) : StmtUnique (.simple s) := by
  intro d' rest rest' hrest hrest' h
  cases d' with
  | simple s' =>
    obtain ⟨rfl, rfl⟩ := SimpleStatements.eq h
    exact ⟨rfl, rfl⟩
  | compound s' => exact (not_compound h).elim

theorem compound {s : StmtDerivation .compound} (hs : StmtUnique s) :
    StmtUnique (.compound s) := by
  intro d' rest rest' hrest hrest' h
  cases d' with
  | simple s' => exact (not_compound h.symm).elim
  | compound s' =>
    obtain ⟨rfl, rfl⟩ := hs s' rest rest' hrest hrest' h
    exact ⟨rfl, rfl⟩

theorem ends_orelse (d : StmtDerivation .orelse) {rest : List Located}
    (hrest : StmtSymbol.compound.Ends rest) : StmtSymbol.clauses.Ends (d.tokens ++ rest) := by
  cases d with
  | nothingElse =>
    intro t ht hmem
    exact hrest t ht (List.mem_cons.mpr (.inl (List.mem_singleton.mp hmem)))
  | otherwise else_ colon body => exact notBefore_cons (by simp [word])

theorem conditional {test : Expression} {body : StmtDerivation .suite}
    {clauses : StmtDerivation .clauses} {orelse : StmtDerivation .orelse}
    (hbody : StmtUnique body) (hclauses : StmtUnique clauses) (horelse : StmtUnique orelse)
    (if_ colon : Span) : StmtUnique (.conditional if_ test colon body clauses orelse) := by
  intro d' rest rest' hrest hrest' h
  cases d' with
  | conditional if_' test' colon' body' clauses' orelse' =>
    simp only [StmtDerivation.tokens, List.append_assoc, List.cons_append] at h
    obtain ⟨hif, h₁⟩ := List.cons.inj h
    obtain ⟨rfl, h₂⟩ := (unique test trivial).eq (ends_level rfl) (ends_level rfl) h₁
    obtain ⟨hcolon, h₃⟩ := List.cons.inj h₂
    obtain ⟨rfl, h₄⟩ := hbody body' _ _ trivial trivial h₃
    obtain ⟨rfl, h₅⟩ := hclauses clauses' _ _ (ends_orelse orelse hrest)
      (ends_orelse orelse' hrest') h₄
    have helse {rest : List Located} (hrest : StmtSymbol.compound.Ends rest) :
        StmtSymbol.orelse.Ends rest :=
      fun t ht hmem => hrest t ht (List.mem_cons_of_mem _ hmem)
    obtain ⟨rfl, rfl⟩ := horelse orelse' _ _ (helse hrest) (helse hrest') h₅
    cases hif
    cases hcolon
    exact ⟨rfl, rfl⟩
  | whileLoop | forLoop => cases (List.cons.inj h).1
  | define async_' => cases async_' <;> cases (List.cons.inj h).1

theorem whileLoop {test : Expression} {body : StmtDerivation .suite} (hbody : StmtUnique body)
    (while_ colon : Span) : StmtUnique (.whileLoop while_ test colon body) := by
  intro d' rest rest' hrest hrest' h
  cases d' with
  | whileLoop while_' test' colon' body' =>
    simp only [StmtDerivation.tokens, List.append_assoc, List.cons_append] at h
    obtain ⟨hwhile, h₁⟩ := List.cons.inj h
    obtain ⟨rfl, h₂⟩ := (unique test trivial).eq (ends_level rfl) (ends_level rfl) h₁
    obtain ⟨hcolon, h₃⟩ := List.cons.inj h₂
    obtain ⟨rfl, rfl⟩ := hbody body' _ _ trivial trivial h₃
    cases hwhile
    cases hcolon
    exact ⟨rfl, rfl⟩
  | conditional | forLoop => cases (List.cons.inj h).1
  | define async_' => cases async_' <;> cases (List.cons.inj h).1

theorem forLoop {target : ForTarget} {iter : Expression} {body : StmtDerivation .suite}
    (hbody : StmtUnique body) (for_ in_ colon : Span) :
    StmtUnique (.forLoop for_ target in_ iter colon body) := by
  intro d' rest rest' hrest hrest' h
  cases d' with
  | forLoop for_' target' in_' iter' colon' body' =>
    simp only [StmtDerivation.tokens, List.append_assoc, List.cons_append] at h
    obtain ⟨hfor, h₁⟩ := List.cons.inj h
    obtain ⟨rfl, h₂⟩ := ForTarget.eq (notBefore_cons (by simp [word]))
      (notBefore_cons (by simp [word])) h₁
    obtain ⟨hin, h₃⟩ := List.cons.inj h₂
    obtain ⟨rfl, h₄⟩ := (unique iter trivial).eq (ends_level rfl) (ends_level rfl) h₃
    obtain ⟨hcolon, h₅⟩ := List.cons.inj h₄
    obtain ⟨rfl, rfl⟩ := hbody body' _ _ trivial trivial h₅
    cases hfor
    cases hin
    cases hcolon
    exact ⟨rfl, rfl⟩
  | conditional | whileLoop => cases (List.cons.inj h).1
  | define async_' => cases async_' <;> cases (List.cons.inj h).1

theorem async_eq {async_ async_' : Option Span} {def_ def_' : Span} {ts ts' : List Located}
    (h : async_.toList.map (word .async_) ++ word .def_ def_ :: ts
      = async_'.toList.map (word .async_) ++ word .def_ def_' :: ts') :
    async_ = async_' ∧ word .def_ def_ :: ts = word .def_ def_' :: ts' := by
  cases async_ with
  | none =>
    cases async_' with
    | none => exact ⟨rfl, h⟩
    | some => cases (List.cons.inj h).1
  | some async_ =>
    cases async_' with
    | none => cases (List.cons.inj h).1
    | some async_' =>
      obtain ⟨hasync, h₁⟩ := List.cons.inj h
      cases hasync
      exact ⟨rfl, h₁⟩

theorem define {async_ : Option Span} {params : Derivation (.comma .parameter)}
    {body : StmtDerivation .suite} (hbody : StmtUnique body) (def_ : Span) (name : Name)
    (opening closing colon : Span) :
    StmtUnique (.define async_ def_ name opening params closing colon body) := by
  intro d' rest rest' hrest hrest' h
  cases d' with
  | define async_' def_' name' opening' params' closing' colon' body' =>
    simp only [StmtDerivation.tokens, List.append_assoc, List.cons_append] at h
    obtain ⟨rfl, h₁⟩ := async_eq h
    obtain ⟨hdef, h₂⟩ := List.cons.inj h₁
    obtain ⟨hname, h₃⟩ := List.cons.inj h₂
    obtain ⟨hopening, h₄⟩ := List.cons.inj h₃
    obtain ⟨rfl, h₅⟩ := (unique params trivial).eq (ends_closing trivial rfl)
      (ends_closing trivial rfl) h₄
    obtain ⟨hclosing, h₆⟩ := List.cons.inj h₅
    obtain ⟨hcolon, h₇⟩ := List.cons.inj h₆
    obtain ⟨rfl, rfl⟩ := hbody body' _ _ trivial trivial h₇
    obtain rfl := Name.ext_token hname
    cases hdef
    cases hopening
    cases hclosing
    cases hcolon
    exact ⟨rfl, rfl⟩
  | conditional | whileLoop | forLoop => cases async_ <;> cases (List.cons.inj h).1

theorem line (s : SimpleStatements) : StmtUnique (.line s) := by
  intro d' rest rest' hrest hrest' h
  cases d' with
  | line s' =>
    obtain ⟨rfl, rfl⟩ := SimpleStatements.eq h
    exact ⟨rfl, rfl⟩
  | block newline' indent' first' more' dedent' => exact (not_block h).elim

theorem block {first : StmtDerivation .statement} {more : StmtDerivation .statements}
    (hfirst : StmtUnique first) (hmore : StmtUnique more) (newline indent dedent : Span) :
    StmtUnique (.block newline indent first more dedent) := by
  intro d' rest rest' hrest hrest' h
  cases d' with
  | line s' => exact (not_block h.symm).elim
  | block newline' indent' first' more' dedent' =>
    have hdedent (dedent : Span) (ts : List Located) :
        StmtSymbol.statements.Ends (⟨.dedent, dedent⟩ :: ts) :=
      fun t ht => Option.some.inj ht ▸ rfl
    simp only [StmtDerivation.tokens, List.append_assoc, List.cons_append, List.nil_append] at h
    obtain ⟨hnewline, h₁⟩ := List.cons.inj h
    obtain ⟨hindent, h₂⟩ := List.cons.inj h₁
    obtain ⟨rfl, h₃⟩ := hfirst first' _ _ (ends_statements more (hdedent _ _))
      (ends_statements more' (hdedent _ _)) h₂
    obtain ⟨rfl, h₄⟩ := hmore more' _ _ (hdedent _ _) (hdedent _ _) h₃
    cases h₄
    cases hnewline
    cases hindent
    exact ⟨rfl, rfl⟩

theorem noStatements : StmtUnique .noStatements := by
  intro d' rest rest' hrest hrest' h
  cases d' with
  | noStatements => exact ⟨rfl, h⟩
  | more first' more' =>
    rw [StmtDerivation.tokens, StmtDerivation.tokens, List.nil_append, List.append_assoc] at h
    exact (not_ends_statements (h ▸ hrest)).elim

theorem more {first : StmtDerivation .statement} {more : StmtDerivation .statements}
    (hfirst : StmtUnique first) (hmore : StmtUnique more) : StmtUnique (.more first more) := by
  intro d' rest rest' hrest hrest' h
  cases d' with
  | noStatements =>
    rw [StmtDerivation.tokens, StmtDerivation.tokens, List.nil_append, List.append_assoc] at h
    exact (not_ends_statements (h ▸ hrest')).elim
  | more first' more' =>
    simp only [StmtDerivation.tokens, List.append_assoc] at h
    obtain ⟨rfl, h₁⟩ := hfirst first' _ _ (ends_statements more hrest)
      (ends_statements more' hrest') h
    obtain ⟨rfl, rfl⟩ := hmore more' _ _ hrest hrest' h₁
    exact ⟨rfl, rfl⟩

theorem noClauses : StmtUnique .noClauses := by
  intro d' rest rest' hrest hrest' h
  cases d' with
  | noClauses => exact ⟨rfl, h⟩
  | clause elif_' test' colon' body' clauses' =>
    rw [StmtDerivation.tokens, List.nil_append] at h
    subst h
    exact (hrest.head (by simp [word])).elim

theorem clause {test : Expression} {body : StmtDerivation .suite}
    {clauses : StmtDerivation .clauses} (hbody : StmtUnique body) (hclauses : StmtUnique clauses)
    (elif_ colon : Span) : StmtUnique (.clause elif_ test colon body clauses) := by
  intro d' rest rest' hrest hrest' h
  cases d' with
  | noClauses =>
    rw [StmtDerivation.tokens, StmtDerivation.tokens, List.nil_append] at h
    subst h
    exact (hrest'.head (by simp [word])).elim
  | clause elif_' test' colon' body' clauses' =>
    simp only [StmtDerivation.tokens, List.append_assoc, List.cons_append] at h
    obtain ⟨helif, h₁⟩ := List.cons.inj h
    obtain ⟨rfl, h₂⟩ := (unique test trivial).eq (ends_level rfl) (ends_level rfl) h₁
    obtain ⟨hcolon, h₃⟩ := List.cons.inj h₂
    obtain ⟨rfl, h₄⟩ := hbody body' _ _ trivial trivial h₃
    obtain ⟨rfl, rfl⟩ := hclauses clauses' _ _ hrest hrest' h₄
    cases helif
    cases hcolon
    exact ⟨rfl, rfl⟩

theorem nothingElse : StmtUnique .nothingElse := by
  intro d' rest rest' hrest hrest' h
  cases d' with
  | nothingElse => exact ⟨rfl, h⟩
  | otherwise else_' colon' body' =>
    rw [StmtDerivation.tokens, List.nil_append] at h
    subst h
    exact (hrest.head (by simp [word])).elim

theorem otherwise {body : StmtDerivation .suite} (hbody : StmtUnique body) (else_ colon : Span) :
    StmtUnique (.otherwise else_ colon body) := by
  intro d' rest rest' hrest hrest' h
  cases d' with
  | nothingElse =>
    rw [StmtDerivation.tokens, StmtDerivation.tokens, List.nil_append] at h
    subst h
    exact (hrest'.head (by simp [word])).elim
  | otherwise else_' colon' body' =>
    obtain ⟨helse, h₁⟩ := List.cons.inj h
    obtain ⟨hcolon, h₂⟩ := List.cons.inj h₁
    obtain ⟨rfl, rfl⟩ := hbody body' _ _ trivial trivial h₂
    cases helse
    cases hcolon
    exact ⟨rfl, rfl⟩

end StmtUnique

theorem stmtUnique {s : StmtSymbol} (d : StmtDerivation s) : StmtUnique d := by
  induction d with
  | simple s => exact .simple s
  | compound s hs => exact .compound hs
  | conditional if_ test colon body clauses orelse hbody hclauses horelse =>
    exact .conditional hbody hclauses horelse if_ colon
  | whileLoop while_ test colon body hbody => exact .whileLoop hbody while_ colon
  | forLoop for_ target in_ iter colon body hbody => exact .forLoop hbody for_ in_ colon
  | define async_ def_ name opening params closing colon body hbody =>
    exact .define hbody def_ name opening closing colon
  | line s => exact .line s
  | block newline indent first more dedent hfirst hmore =>
    exact .block hfirst hmore newline indent dedent
  | noStatements => exact .noStatements
  | more first more hfirst hmore => exact .more hfirst hmore
  | noClauses => exact .noClauses
  | clause elif_ test colon body clauses hbody hclauses =>
    exact .clause hbody hclauses elif_ colon
  | nothingElse => exact .nothingElse
  | otherwise else_ colon body hbody => exact .otherwise hbody else_ colon

-- A program has one derivation at most.
theorem Program.eq {d d' : Program} (h : d.tokens = d'.tokens) : d = d' := by
  have hends : StmtSymbol.statements.Ends [] := nofun
  have happend : d.tokens ++ [] = d'.tokens ++ [] := by rw [h]
  exact (stmtUnique d d' [] [] hends hends happend).1

end NoteCell.Grammar
