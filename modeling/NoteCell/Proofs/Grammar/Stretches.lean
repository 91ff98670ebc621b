import NoteCell.Proofs.Grammar.Places

/-!
Stretches of statements. The statements of a block stand one behind the other where its tokens do, and
what is built from some tokens lies where they do.
-/
namespace NoteCell

namespace Location

-- A place all of which lies within another.
def Covers : Location → Location → Prop
  | ⟨some start, some stop⟩, ⟨some start', some stop'⟩ => start ≤ start' ∧ stop' ≤ stop
  | _, _ => False

instance (l m : Location) : Decidable (l.Covers m) :=
  match l, m with
  | ⟨some _, some _⟩, ⟨some _, some _⟩ => inferInstanceAs (Decidable (_ ∧ _))
  | ⟨none, _⟩, _ | ⟨some _, none⟩, _ | ⟨some _, some _⟩, ⟨none, _⟩
  | ⟨some _, some _⟩, ⟨some _, none⟩ => .isFalse id

-- A place that stops before another starts.
def Precedes : Location → Location → Prop
  | ⟨_, some stop⟩, ⟨some start, _⟩ => stop ≤ start
  | _, _ => False

theorem covers_between {start stop start' stop' : Nat} (hstart : start ≤ start') (hstop : stop' ≤ stop) :
    (between start stop).Covers (between start' stop') := ⟨hstart, hstop⟩

theorem precedes_between {start stop start' stop' : Nat} (h : stop ≤ start') :
    (between start stop).Precedes (between start' stop') := h

end Location

namespace Grammar

/-! ### Tokens within bounds -/

structure Within (lo hi : Nat) (ts : List Located) : Prop where
  le : lo ≤ hi
  tokens : ∀ t ∈ ts, lo ≤ t.span.start ∧ t.span.stop ≤ hi

section

variable {lo hi : Nat} {ts us : List Located}

theorem Ordered.within_placeOf (h : Ordered ts) (hne : ts ≠ []) :
    Within (startOf ts) (stopOf ts) ts :=
  ⟨(h.within List.infix_rfl hne).2.1, fun t ht => ⟨h.startOf_le t ht, h.le_stopOf t ht⟩⟩

theorem Ordered.exists_within (h : Ordered ts) : ∃ lo hi, Within lo hi ts := by
  by_cases hne : ts = []
  case pos =>
    subst hne
    exact ⟨0, 0, Nat.le_refl 0, List.forall_mem_nil _⟩
  case neg => exact ⟨_, _, h.within_placeOf hne⟩

theorem Within.of_isInfix (h : Within lo hi ts) (hus : us <:+: ts) : Within lo hi us :=
  ⟨h.le, fun t ht => h.tokens t (hus.subset ht)⟩

theorem Within.covers (h : Within lo hi ts) (hne : ts ≠ []) :
    (Location.between lo hi).Covers (placeOf ts) := by
  obtain ⟨t, ht, hstart⟩ := exists_startOf hne
  obtain ⟨u, hu, hstop⟩ := exists_stopOf hne
  exact Location.covers_between (hstart ▸ (h.tokens t ht).1) (hstop ▸ (h.tokens u hu).2)

-- The parts of a row are within bounds of their own.
theorem Ordered.seam (h : Ordered (ts ++ us)) (hbounds : Within lo hi (ts ++ us)) (hne : ts ≠ []) :
    Within lo (stopOf ts) ts ∧ Within (stopOf ts) hi us := by
  have hrow : Ordered ts := h.of_isInfix (List.prefix_append ts us).isInfix
  obtain ⟨t, ht, hstop⟩ := exists_stopOf hne
  have hbound := hbounds.tokens t (List.mem_append_left us ht)
  have hlo : lo ≤ stopOf ts := by
    calc lo ≤ t.span.start := hbound.1
      _ ≤ t.span.stop := hrow.forward t ht
      _ = stopOf ts := hstop
  refine ⟨⟨hlo, fun u hu => ?_⟩, ⟨hstop ▸ hbound.2, fun u hu => ?_⟩⟩
  · exact ⟨(hbounds.tokens u (List.mem_append_left us hu)).1, hrow.le_stopOf u hu⟩
  · have hseam := (List.pairwise_append.mp h.behind).2.2 t ht u hu
    exact ⟨hstop ▸ hseam, (hbounds.tokens u (List.mem_append_right ts hu)).2⟩

theorem Ordered.exists_seam (h : Ordered (ts ++ us)) (hbounds : Within lo hi (ts ++ us)) :
    ∃ mid, Within lo mid ts ∧ Within mid hi us := by
  by_cases hne : ts = []
  case pos =>
    subst hne
    exact ⟨lo, ⟨Nat.le_refl lo, List.forall_mem_nil _⟩, hbounds⟩
  case neg => exact ⟨stopOf ts, h.seam hbounds hne⟩

end

/-! ### Statements one behind the other -/

structure Stretch (lo hi : Nat) (ss : List Stmt) : Prop where
  le : lo ≤ hi
  within : ∀ s ∈ ss, (Location.between lo hi).Covers s.info.location
  apart : ss.Pairwise fun s t => s.info.location.Precedes t.info.location

theorem exists_between_of_covers {lo hi : Nat} {l : Location} (h : (Location.between lo hi).Covers l) :
    ∃ start stop, l = .between start stop ∧ lo ≤ start ∧ stop ≤ hi := by
  obtain ⟨start, stop⟩ := l
  cases start with
  | none => exact h.elim
  | some start =>
    cases stop with
    | none => exact h.elim
    | some stop => exact ⟨start, stop, rfl, h⟩

namespace Stretch

variable {lo mid hi : Nat} {ss us : List Stmt} {s : Stmt}

theorem nil (h : lo ≤ hi) : Stretch lo hi [] := ⟨h, List.forall_mem_nil _, .nil⟩

theorem single (hle : lo ≤ hi) (h : (Location.between lo hi).Covers s.info.location) :
    Stretch lo hi [s] :=
  ⟨hle, List.forall_mem_singleton.mpr h, List.pairwise_singleton _ s⟩

theorem append (h : Stretch lo mid ss) (h' : Stretch mid hi us) : Stretch lo hi (ss ++ us) := by
  have hapart : ∀ s ∈ ss, ∀ u ∈ us, s.info.location.Precedes u.info.location := by
    intro s hs u hu
    obtain ⟨_, _, hlocation, -, hstop⟩ := exists_between_of_covers (h.within s hs)
    obtain ⟨_, _, hlocation', hstart, -⟩ := exists_between_of_covers (h'.within u hu)
    rw [hlocation, hlocation']
    exact Location.precedes_between (Nat.le_trans hstop hstart)
  refine ⟨Nat.le_trans h.le h'.le, List.forall_mem_append.mpr ⟨fun s hs => ?_, fun u hu => ?_⟩,
    List.pairwise_append.mpr ⟨h.apart, h'.apart, hapart⟩⟩
  · obtain ⟨_, _, hlocation, hstart, hstop⟩ := exists_between_of_covers (h.within s hs)
    exact hlocation ▸ Location.covers_between hstart (Nat.le_trans hstop h'.le)
  · obtain ⟨_, _, hlocation, hstart, hstop⟩ := exists_between_of_covers (h'.within u hu)
    exact hlocation ▸ Location.covers_between (Nat.le_trans h.le hstart) hstop

end Stretch

-- What is built from two parts of a row stands where the row does, if that of each part does.
theorem Ordered.stretch_append {lo hi : Nat} {ts us : List Located} {ss vs : List Stmt}
    (h : Ordered (ts ++ us)) (hbounds : Within lo hi (ts ++ us))
    (hss : ∀ {lo hi}, Ordered ts → Within lo hi ts → Stretch lo hi ss)
    (hvs : ∀ {lo hi}, Ordered us → Within lo hi us → Stretch lo hi vs) : Stretch lo hi (ss ++ vs) := by
  obtain ⟨mid, hleft, hright⟩ := h.exists_seam hbounds
  exact (hss (h.of_isInfix (List.prefix_append ts us).isInfix) hleft).append
    (hvs (h.of_isInfix (List.suffix_append ts us).isInfix) hright)

/-! ### Blocks -/

section

variable {lo hi : Nat} {ss : List Stmt} {s : Stmt}

-- A simple statement stops before the next token starts.
theorem SmallStatement.covers {x : SmallStatement} {next : Located} {rest : List Located}
    (h : Ordered (x.tokens ++ next :: rest)) (hbounds : Within lo hi x.tokens)
    (hact : x.act next.span.start = .ok s) :
    (Location.between lo next.span.start).Covers s.info.location := by
  obtain ⟨form, hmake, -⟩ := of_act hact
  obtain ⟨rfl, -⟩ := of_makeStmt_eq_ok hmake
  have hrow : Ordered (x.tokens ++ [next]) := by
    rw [List.append_cons] at h
    exact h.of_isInfix (List.prefix_append _ rest).isInfix
  obtain ⟨t, ht, hstart⟩ := exists_startOf x.tokens_ne_nil
  exact Location.covers_between (hstart ▸ (hbounds.tokens t ht).1) (le_stop hrow).2

theorem SimpleStatements.stretch {x : SimpleStatements} (h : Ordered x.tokens)
    (hbounds : Within lo hi x.tokens) (hact : x.act = .ok ss) : Stretch lo hi ss := by
  obtain ⟨t, ending, hending, -, hstart⟩ := x.exists_ending
  rw [act, hstart] at hact
  rw [tokens, hending] at h hbounds
  generalize x.first = first at h hbounds hact
  generalize x.rest = rest at h hbounds hact
  -- What stands behind a statement starts with a token that it stops before.
  have hsmall {lo : Nat} {first : SmallStatement} {next : Located} {rest : List Located} {s : Stmt}
      (h : Ordered (first.tokens ++ next :: rest)) (hbounds : Within lo hi (first.tokens ++ next :: rest))
      (hs : first.act next.span.start = .ok s) :
      Stretch lo next.span.start [s] ∧ Within next.span.start hi (next :: rest) := by
    have hcovers := first.covers h (hbounds.of_isInfix (List.prefix_append _ _).isInfix) hs
    have hnext := hbounds.tokens next (by simp)
    have hrest : Ordered (next :: rest) := h.of_isInfix (List.suffix_append _ _).isInfix
    refine ⟨.single hnext.1 hcovers, Nat.le_trans (hrest.forward next List.mem_cons_self) hnext.2,
      fun u hu => ⟨hrest.startOf_le u hu, (hbounds.tokens u (List.mem_append_right _ hu)).2⟩⟩
  induction rest generalizing first ss lo
  case nil =>
    obtain ⟨s, hs, hact⟩ := of_bind_eq_ok hact
    cases hact
    obtain ⟨hfirst, hrest⟩ := hsmall h hbounds hs
    exact hfirst.append (.nil hrest.le)
  case cons p rest ih =>
    obtain ⟨s, hs, hact⟩ := of_bind_eq_ok hact
    obtain ⟨ss, hss, hact⟩ := of_bind_eq_ok hact
    cases hact
    have htokens : smallTokens (p :: rest) ++ t :: ending
        = sign .semicolon p.1 :: (p.2.tokens ++ (smallTokens rest ++ t :: ending)) := by
      simp [smallTokens]
    rw [htokens] at h hbounds
    obtain ⟨hfirst, hrest⟩ := hsmall h hbounds hs
    have htail := (List.suffix_cons (sign .semicolon p.1) (p.2.tokens ++ (smallTokens rest ++ t :: ending)))
    have hrow := h.of_isInfix (htail.trans (List.suffix_append first.tokens _)).isInfix
    exact hfirst.append (ih p.2 hrow (hrest.of_isInfix htail.isInfix) hss)

namespace StmtDerivation

-- A compound statement has the place of its tokens.
theorem covers {d : StmtDerivation .compound} (hbounds : Within lo hi d.tokens) (hact : d.act = .ok s) :
    (Location.between lo hi).Covers s.info.location := by
  obtain ⟨form, hmake⟩ := of_act hact
  obtain ⟨rfl, -⟩ := of_makeStmt_eq_ok hmake
  exact hbounds.covers d.tokens_ne_nil

-- What a derivation builds stands where its tokens do.
def Stretches (lo hi : Nat) : (s : StmtSymbol) → s.Value → Prop
  | .compound, s => Stretch lo hi [s]
  | .clauses, _ => True
  | .statement, ss | .suite, ss | .statements, ss | .orelse, ss => Stretch lo hi ss

theorem stretch {s : StmtSymbol} (d : StmtDerivation s) {v : s.Value} (h : Ordered d.tokens)
    (hbounds : Within lo hi d.tokens) (hact : d.act = .ok v) : Stretches lo hi s v := by
  induction d generalizing lo hi
  case simple x | line x => exact x.stretch h hbounds hact
  case compound hd =>
    obtain ⟨s, hs, hact⟩ := of_bind_eq_ok hact
    cases hact
    exact hd h hbounds hs
  case conditional | whileLoop | forLoop | define => exact .single hbounds.le (covers hbounds hact)
  case block newline indent first rest dedent hfirst hrest =>
    obtain ⟨ss, hss, hact⟩ := of_bind_eq_ok hact
    obtain ⟨us, hus, hact⟩ := of_bind_eq_ok hact
    cases hact
    have hinner : first.tokens ++ rest.tokens <:+: (block newline indent first rest dedent).tokens :=
      ⟨[⟨.newline, newline⟩, ⟨.indent, indent⟩], [⟨.dedent, dedent⟩], by simp⟩
    exact (h.of_isInfix hinner).stretch_append (hbounds.of_isInfix hinner)
      (fun h hbounds => hfirst h hbounds hss) fun h hbounds => hrest h hbounds hus
  case more hfirst hrest =>
    obtain ⟨ss, hss, hact⟩ := of_bind_eq_ok hact
    obtain ⟨us, hus, hact⟩ := of_bind_eq_ok hact
    cases hact
    exact h.stretch_append hbounds (fun h hbounds => hfirst h hbounds hss)
      fun h hbounds => hrest h hbounds hus
  case noStatements | nothingElse =>
    cases hact
    exact .nil hbounds.le
  case noClauses | clause => trivial
  case otherwise else_ colon body hbody =>
    have hinner : body.tokens <:+: (otherwise else_ colon body).tokens :=
      ⟨[word .else_ else_, sign .colon colon], [], by simp⟩
    exact hbody (h.of_isInfix hinner) (hbounds.of_isInfix hinner) hact

end StmtDerivation

-- The next of some further conditions stands for all that is behind it.
theorem stretch_orelse {clauses : StmtDerivation .clauses} {orelse : StmtDerivation .orelse}
    (h : Ordered (clauses.tokens ++ orelse.tokens))
    (hbounds : Within lo hi (clauses.tokens ++ orelse.tokens))
    (hact : actOrelse clauses orelse = .ok ss) : Stretch lo hi ss := by
  obtain ⟨cs, hcs, hact⟩ := of_bind_eq_ok hact
  obtain ⟨us, hus, hact⟩ := of_bind_eq_ok hact
  cases clauses with
  | noClauses =>
    cases hcs
    cases hact
    exact orelse.stretch h hbounds hus
  | clause elif_ test colon body rest =>
    obtain ⟨e, he, hcs⟩ := of_bind_eq_ok hcs
    obtain ⟨vs, hvs, hcs⟩ := of_bind_eq_ok hcs
    obtain ⟨cs, hrest, hcs⟩ := of_bind_eq_ok hcs
    cases hcs
    obtain ⟨ws, hws, hact⟩ := of_bind_eq_ok hact
    obtain ⟨s, hmake, hact⟩ := of_bind_eq_ok hact
    cases hact
    obtain ⟨rfl, -⟩ := of_makeStmt_eq_ok hmake
    have hown : word .elif_ elif_ :: (test.tokens ++ sign .colon colon :: body.tokens)
        <:+: (StmtDerivation.clause elif_ test colon body rest).tokens ++ orelse.tokens := by
      rw [StmtDerivation.tokens, List.append_assoc]
      exact (List.prefix_append _ _).isInfix
    exact .single hbounds.le ((hbounds.of_isInfix hown).covers (List.cons_ne_nil _ _))

end

end Grammar
end NoteCell
