import NoteCell.Proofs.Lexing.Known
import NoteCell.Proofs.Lexing.Seam

/-!
Runs of tokens. Tokens that stand side by side in a source come from lexemes that do, with no line
breaks between them but those that brackets join, and such lexemes make them anywhere.
-/
namespace NoteCell

-- The tokens that lexemes make within a line, when so many brackets are open before them.
inductive Run : Nat → List Lexeme → List Token → Prop
  | nil {b : Nat} : Run b [] []
  | token {b : Nat} {t : Token} {ls : List Lexeme} {ts : List Token} (h : Run (t.after b) ls ts) :
    Run b (.token t :: ls) (t :: ts)
  | joined {b : Nat} {ls : List Lexeme} {ts : List Token} (hb : b ≠ 0) (h : Run b ls ts) :
    Run b (.lineBreak :: ls) ts

-- A lexeme and a token at their places.
def Scanned.mark (i : Scanned) : Lexeme × Span := (i.lexeme, i.span)

def Located.mark (t : Located) : Lexeme × Span := (.token t.token, t.span)

theorem mark_getLast? {item : Scanned} {items : List Scanned} {t : Located} {ts : List Located}
    (hitem : item.mark = t.mark) (h : items.getLast?.map Scanned.mark = ts.getLast?.map Located.mark) :
    (item :: items).getLast?.map Scanned.mark = (t :: ts).getLast?.map Located.mark := by
  rw [List.getLast?_cons, List.getLast?_cons]
  cases hitems : items.getLast? <;> cases hts : ts.getLast? <;> rw [hitems, hts] at h
  case none.none => exact congrArg some hitem
  case some.some => exact h
  all_goals cases h

/-! ### Open brackets -/

section

variable {b d : Nat} {ls : List Lexeme} {ts us : List Token} {t : Token}

theorem opensWithin_append : OpensWithin b (ts ++ us)
    ↔ OpensWithin b ts ∧ OpensWithin (ts.foldl Token.after b) us := by
  induction ts generalizing b
  case nil => exact ⟨fun h => ⟨h.le, h⟩, And.right⟩
  case cons t ts ih => exact (and_congr_right fun _ => ih).trans and_assoc.symm

theorem Balanced.opensWithin (h : Balanced ts) (hb : b + bracketDepth ts ≤ Layout.maxBrackets) :
    OpensWithin b ts := by
  induction h generalizing b
  case nil => exact hb
  case plain t ts ht _ ih =>
    rw [Balanced.bracketDepth_plain ht] at hb
    refine ⟨by omega, ?_⟩
    rw [Token.after_plain ht]
    exact ih hb
  case enclosed o c ts us ho hc hts _ ih ih' =>
    rw [Balanced.bracketDepth_enclosed ho hc hts] at hb
    refine ⟨by omega, opensWithin_append.mpr ?_⟩
    rw [hts.foldl_after, after_opening ho]
    refine ⟨ih (by omega), by omega, ?_⟩
    rw [after_closing hc]
    exact ih' (by omega)

-- Balanced tokens close nothing that was open before them.
theorem Balanced.le_foldl (h : Balanced ts) (hus : us <+: ts) (b : Nat) :
    b ≤ us.foldl Token.after b := by
  induction h generalizing us b
  case nil =>
    obtain rfl := List.prefix_nil.mp hus
    exact Nat.le_refl b
  case plain t ts ht _ ih =>
    obtain rfl | ⟨vs, rfl, hvs⟩ := List.prefix_cons_iff.mp hus
    · exact Nat.le_refl b
    · rw [List.foldl_cons, Token.after_plain ht]
      exact ih hvs b
  case enclosed o c ts vs ho hc hts _ ih ih' =>
    obtain rfl | ⟨ws, rfl, rest, hrest⟩ := List.prefix_cons_iff.mp hus
    · exact Nat.le_refl b
    · rw [List.foldl_cons, after_opening ho]
      obtain ⟨xs, rfl, -⟩ | ⟨xs, rfl, hxs⟩ := List.append_eq_append_iff.mp hrest
      · exact Nat.le_of_succ_le (ih (List.prefix_append ws xs) (b + 1))
      · rw [List.foldl_append, hts.foldl_after]
        obtain rfl | ⟨ys, rfl, hys⟩ := List.prefix_cons_iff.mp ⟨rest, hxs.symm⟩
        · exact Nat.le_succ b
        · rw [List.foldl_cons, after_closing hc]
          exact ih' hys b

-- A run stays one as long as the line breaks in it are inside brackets.
theorem Run.moved (h : Run b ls ts) (hd : ∀ us, us <+: ts → us.foldl Token.after d ≠ 0) :
    Run d ls ts := by
  induction h generalizing d
  case nil => exact .nil
  case token t ls ts _ ih =>
    exact .token (ih fun us hus => hd (t :: us) ((List.prefix_cons_inj t).mpr hus))
  case joined ih => exact .joined (hd [] (List.nil_prefix)) (ih hd)

theorem Run.enclosed (h : Run b ls ts) (hts : Balanced ts) : Run 1 ls ts :=
  h.moved fun _ hus => Nat.ne_of_gt (hts.le_foldl hus 1)

end

namespace Layout

section

variable {stop b : Nat} {blocks : List Nat} {s : State} {item : Scanned} {items rest : List Scanned}
  {ls : List Lexeme} {ts : List Token} {before us after : List Located} {u next : Located}

theorem bracketsAfter_ok {t : Token} (h : t.after b ≤ maxBrackets) (offset : Nat) :
    bracketsAfter b t offset = .ok (t.after b) := by
  cases t
  case sign s =>
    rw [Token.after] at h ⊢
    rw [bracketsAfter]
    split at h
    case isTrue hopens => rw [if_pos hopens, if_pos hopens, if_neg (Nat.not_le.mpr h)]
    case isFalse hopens =>
      rw [if_neg hopens, if_neg hopens]
      split <;> rfl
  all_goals rfl

theorem arrange_joined (hitem : item.lexeme = .lineBreak) (hb : b ≠ 0) :
    arrange stop (.within blocks b) (item :: items) = arrange stop (.within blocks b) items := by
  rw [arrange, hitem]
  exact if_neg hb

theorem read?_run (h : Run b ls ts) (hitems : items.map (·.lexeme) = ls) (hts : OpensWithin b ts) :
    (arrange stop (.within blocks b) (items ++ rest)).read?
      = (arrange stop (.within blocks (ts.foldl Token.after b)) rest).read?.map (ts ++ ·) := by
  induction h generalizing items
  case nil =>
    obtain rfl := List.map_eq_nil_iff.mp hitems
    simp
  case token h ih =>
    obtain ⟨item, items, rfl, hitem, hitems⟩ := List.map_eq_cons_iff.mp hitems
    rw [List.cons_append, read?_token hitem, bracketsAfter_ok hts.2.le]
    dsimp only
    rw [ih hitems hts.2, Option.map_map]
    rfl
  case joined hb h ih =>
    obtain ⟨item, items, rfl, hitem, hitems⟩ := List.map_eq_cons_iff.mp hitems
    rw [List.cons_append, arrange_joined hitem hb, ih hitems hts]

-- What the first of some lexemes adds: layout alone, or a token behind some.
theorem arrange_cons (h : (arrange stop s (item :: items)).error = none)
    (hs : s.atLineStart → s.brackets = 0) :
    (∃ next layout, arrange stop s (item :: items) = (arrange stop next items).prepend layout
        ∧ (∀ t ∈ layout, t.token.isLayout) ∧ next.brackets = s.brackets
        ∧ (next.atLineStart → next.brackets = 0))
      ∨ ∃ t layout blocks, item.lexeme = .token t ∧ (∀ t ∈ layout, t.token.isLayout)
        ∧ arrange stop s (item :: items)
          = (arrange stop (.within blocks (t.after s.brackets)) items).prepend
            (layout ++ [⟨t, item.span⟩]) := by
  cases hitem : item.lexeme with
  | fault f at_ =>
    rw [arrange, hitem] at h
    cases h
  | lineBreak =>
    left
    by_cases hbrackets : s.brackets = 0
    case pos =>
      refine ⟨_, _, (leads_lineBreak hitem hbrackets).arranged stop items, ?_, rfl, fun _ => hbrackets⟩
      split
      · exact List.forall_mem_singleton.mpr rfl
      · exact List.forall_mem_nil _
    case neg =>
      exact ⟨s, [], (leads_joined hitem hbrackets).arranged stop items, List.forall_mem_nil _, rfl, hs⟩
  | token t =>
    right
    cases hplace : placeToken s item.lead t item.span with
    | error e =>
      rw [arrange, hitem] at h
      simp [hplace] at h
    | ok placed =>
      obtain ⟨ts, next⟩ := placed
      have harranged := (leads_token hitem hplace).arranged stop items
      have hbrackets := eq_after (brackets_of_placeToken hplace)
      obtain ⟨layout, blocks, brackets, rfl, hnext⟩ := placeToken_cases hplace
      split at hnext
      case isTrue =>
        obtain ⟨hindent, rfl⟩ := hnext
        obtain rfl : brackets = t.after s.brackets := hbrackets
        exact ⟨t, layout, blocks, rfl, isLayout_indentTo hindent, harranged⟩
      case isFalse hstarts =>
        obtain ⟨rfl, rfl⟩ := hnext
        obtain rfl : brackets = t.after s.brackets := hbrackets
        have hbegun : s.atLineStart = false :=
          Bool.eq_false_iff.mpr fun hstart => hstarts ⟨hstart, hs hstart⟩
        rw [hbegun] at harranged
        exact ⟨t, [], s.blocks, rfl, List.forall_mem_nil _, harranged⟩

theorem append_of_layout {ts us : List Located} (hts : ∀ t ∈ ts, t.token.isLayout)
    (hu : u.token.isLayout = false) (h : ts ++ us = before ++ u :: after) :
    ∃ between, before = ts ++ between ∧ us = between ++ u :: after := by
  obtain ⟨between, rfl, hus⟩ | ⟨between, rfl, hus⟩ := List.append_eq_append_iff.mp h
  · exact ⟨between, rfl, hus⟩
  · cases between with
    | nil => exact ⟨[], by simp, hus.symm⟩
    | cons t between =>
      obtain ⟨rfl, -⟩ := List.cons.inj hus
      have hlayout := hts u (by simp)
      rw [hu] at hlayout
      cases hlayout

-- Where a token comes from that is not one of layout, and the line that it leaves open.
theorem exists_token (h : arrange stop s items = ⟨before ++ u :: after, none⟩)
    (hu : u.token.isLayout = false) (hs : s.atLineStart → s.brackets = 0) :
    ∃ front item rest blocks, items = front ++ item :: rest ∧ item.lexeme = .token u.token
      ∧ item.span = u.span ∧ arrange stop (.within blocks
        (u.token.after ((before.map (·.token)).foldl Token.after s.brackets))) rest = ⟨after, none⟩ := by
  induction items generalizing s before
  case nil =>
    have htokens : finish s stop = before ++ u :: after := congrArg TokenStream.tokens h
    have hlayout := isLayout_finish u (htokens ▸ List.mem_append_right before List.mem_cons_self)
    rw [hu] at hlayout
    cases hlayout
  case cons item items ih =>
    obtain ⟨next, layout, harranged, hlaid, hbrackets, hnext⟩
      | ⟨t, layout, blocks, hitem, hlaid, harranged⟩ := arrange_cons (by rw [h]) hs
    all_goals rw [harranged] at h
    · obtain ⟨htokens, herror⟩ := TokenStream.mk.inj h
      obtain ⟨between, rfl, hrest⟩ := append_of_layout hlaid hu htokens
      obtain ⟨front, item', rest, blocks, rfl, hlexeme, hspan, hafter⟩ :=
        ih (congrArg₂ TokenStream.mk hrest herror) hnext
      refine ⟨item :: front, item', rest, blocks, rfl, hlexeme, hspan, ?_⟩
      rw [List.map_append, List.foldl_append, foldl_after_layout hlaid, ← hbrackets]
      exact hafter
    · obtain ⟨htokens, herror⟩ := TokenStream.mk.inj h
      rw [List.append_assoc] at htokens
      obtain ⟨between, rfl, hrest⟩ := append_of_layout hlaid hu htokens
      rw [List.map_append, List.foldl_append, foldl_after_layout hlaid]
      cases between with
      | nil =>
        obtain ⟨rfl, htail⟩ := List.cons.inj hrest
        exact ⟨[], item, items, blocks, rfl, hitem, rfl, congrArg₂ TokenStream.mk htail herror⟩
      | cons v between =>
        obtain ⟨rfl, htail⟩ := List.cons.inj hrest
        obtain ⟨front, item', rest, blocks, rfl, hlexeme, hspan, hafter⟩ :=
          ih (s := .within blocks (t.after s.brackets)) (congrArg₂ TokenStream.mk htail herror)
            (by simp [State.within])
        exact ⟨item :: front, item', rest, blocks, rfl, hlexeme, hspan, hafter⟩

theorem arrange_within {t : Token} (hitem : item.lexeme = .token t)
    (h : (arrange stop (.within blocks b) (item :: items)).error = none) :
    arrange stop (.within blocks b) (item :: items)
      = (arrange stop (.within blocks (t.after b)) items).prepend [⟨t, item.span⟩] := by
  rw [arrange, hitem] at h ⊢
  cases hbrackets : bracketsAfter b t item.span.start with
  | error e =>
    simp only [placeToken, State.within, hbrackets] at h
    cases h
  | ok b' =>
    obtain rfl := eq_after hbrackets
    simp only [placeToken, State.within, hbrackets]
    rfl

theorem arrange_ended (hitem : item.lexeme = .lineBreak) :
    arrange stop (.within blocks 0) (item :: items) = (arrange stop (.lineStart blocks) items).prepend [⟨.newline, item.span⟩] := by
  rw [arrange, hitem]
  rfl

-- The lexemes of tokens that stand side by side behind others on their line.
theorem exists_run (h : arrange stop (.within blocks b) items = ⟨us ++ after, none⟩)
    (hplain : ∀ u ∈ us, u.token.isLayout = false) :
    ∃ mid rest, items = mid ++ rest ∧ Run b (mid.map (·.lexeme)) (us.map (·.token))
      ∧ mid.getLast?.map Scanned.mark = us.getLast?.map Located.mark
      ∧ arrange stop (.within blocks ((us.map (·.token)).foldl Token.after b)) rest = ⟨after, none⟩ := by
  induction items generalizing us b
  all_goals
    cases us
    case nil => exact ⟨[], _, rfl, .nil, rfl, h⟩
    obtain ⟨hu, hus⟩ := List.forall_mem_cons.mp hplain
  case nil.cons u us =>
    have htokens : finish (.within blocks b) stop = u :: us ++ after := congrArg TokenStream.tokens h
    have hlayout := isLayout_finish u (by rw [htokens]; exact List.mem_cons_self)
    rw [hu] at hlayout
    cases hlayout
  case cons.cons item items ih u us =>
    cases hitem : item.lexeme with
    | fault f at_ =>
      rw [arrange, hitem] at h
      cases congrArg TokenStream.error h
    | lineBreak =>
      by_cases hb : b = 0
      case pos =>
        subst hb
        rw [arrange_ended hitem] at h
        obtain ⟨rfl, -⟩ := List.cons.inj (congrArg TokenStream.tokens h)
        cases hu
      case neg =>
        rw [arrange_joined hitem hb] at h
        obtain ⟨mid, rest, rfl, hrun, hlast, hrest⟩ := ih h hplain
        refine ⟨item :: mid, rest, rfl, ?_, ?_, hrest⟩
        · rw [List.map_cons, hitem]
          exact .joined hb hrun
        · cases mid with
          | nil => simp at hlast
          | cons i mid => rwa [List.getLast?_cons_cons]
    | token t =>
      rw [arrange_within hitem (by rw [h])] at h
      obtain ⟨htokens, herror⟩ := TokenStream.mk.inj h
      obtain ⟨rfl, htail⟩ := List.cons.inj htokens
      obtain ⟨mid, rest, rfl, hrun, hlast, hrest⟩ := ih (congrArg₂ TokenStream.mk htail herror) hus
      refine ⟨item :: mid, rest, rfl, ?_, ?_, hrest⟩
      · rw [List.map_cons, hitem]
        exact .token hrun
      · exact mark_getLast? (congrArg (Prod.mk · item.span) hitem) hlast

-- What comes next on a line comes from the next lexeme, or from the end of the source.
theorem start_next (h : arrange stop (.within blocks 0) items = ⟨next :: after, none⟩) :
    next.span.start = (items.head?.map (·.span.start)).getD stop := by
  cases items with
  | nil =>
    obtain ⟨rfl, -⟩ := List.cons.inj (congrArg TokenStream.tokens h)
    rfl
  | cons item items =>
    cases hitem : item.lexeme with
    | fault f at_ =>
      rw [arrange, hitem] at h
      cases congrArg TokenStream.error h
    | lineBreak =>
      rw [arrange_ended hitem] at h
      obtain ⟨rfl, -⟩ := List.cons.inj (congrArg TokenStream.tokens h)
      rfl
    | token t =>
      rw [arrange_within hitem (by rw [h])] at h
      obtain ⟨rfl, -⟩ := List.cons.inj (congrArg TokenStream.tokens h)
      rfl

end

end Layout
end NoteCell
