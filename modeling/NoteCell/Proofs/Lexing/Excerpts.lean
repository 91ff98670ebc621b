import NoteCell.Proofs.Lexing.Replaced

/-!
Excerpts of a source. What starts and ends with a lexeme falls into the same lexemes before any text
that divides lexemes, whatever stood before and behind it.
-/
namespace NoteCell

open Piece

theorem Padding.isLineBreak_of_comment {rest lead : List Char} (h : Padding rest lead)
    (hhash : '#' ∈ lead) : ∀ c ∈ rest.head?, isLineBreak c := by
  induction h
  case nil => cases hhash
  case blank c cs hc _ ih =>
    refine ih ((List.mem_cons.mp hhash).resolve_left ?_)
    obtain rfl | rfl | rfl := hc <;> decide
  case comment hrest => exact hrest
  case joined lineBreak cs hbreak _ ih =>
    refine ih ((List.mem_append.mp ((List.mem_cons.mp hhash).resolve_left (by decide))).resolve_left ?_)
    obtain rfl | rfl | rfl := hbreak <;> decide

section

variable {c : Char} {cs : List Char} {lexeme : Lexeme}

theorem isPadding_of_first (hfault : ∀ f offset, (first c cs).lexeme ≠ .fault f offset) :
    isPadding c = false := by
  cases hlexeme : (first c cs).lexeme with
  | token t => exact isPadding_of_token hlexeme
  | fault f offset => exact (hfault f offset hlexeme).elim
  | lineBreak =>
    have hbreak := isLineBreak_of_lineBreak hlexeme
    simp only [isLineBreak, Bool.or_eq_true, decide_eq_true_eq] at hbreak
    obtain rfl | rfl := hbreak <;> rfl

theorem first_point (hfault : ∀ f offset, (first '.' cs).lexeme ≠ .fault f offset)
    (hextra : (first '.' cs).extra = 0) : (first '.' cs).lexeme = .token (.sign .dot) := by
  cases hlexeme : (first '.' cs).lexeme with
  | fault f offset => exact (hfault f offset hlexeme).elim
  | lineBreak => cases isLineBreak_of_lineBreak hlexeme
  | token t =>
    have halone := first_take hlexeme
    rw [hextra, List.take_zero] at halone
    rw [← hlexeme, ← halone]
    rfl

end

-- The first lexeme of a text: where it stands and what is left behind it.
theorem of_scanFrom_cons {offset : Nat} {text : List Char} {item : Scanned} {items : List Scanned}
    (h : scanFrom offset text = item :: items) (hfault : ∀ f at_, item.lexeme ≠ .fault f at_) :
    ∃ c cs more, text = item.lead ++ (c :: cs ++ more)
      ∧ item.span = ⟨offset + utf8Length item.lead, offset + utf8Length item.lead + utf8Length (c :: cs)⟩
      ∧ first c (cs ++ more) = ⟨item.lexeme, cs.length⟩ ∧ scanFrom item.span.stop more = items
      ∧ ∀ lead more', lead = [] ∨ lead = item.lead →
        paddingLength false (lead ++ c :: more') = lead.length := by
  cases hdrop : text.drop (paddingLength false text) with
  | nil =>
    rw [scanFrom_nil hdrop] at h
    cases h
  | cons c cs =>
    rw [scanFrom_cons hdrop] at h
    obtain ⟨rfl, rfl⟩ := List.cons.inj h
    dsimp only at hfault
    have hparts : cs.take (first c cs).extra ++ cs.drop (first c cs).extra = cs :=
      List.take_append_drop _ cs
    have hlength : (cs.take (first c cs).extra).length = (first c cs).extra :=
      List.length_take_of_le (first_extra_le hfault)
    have htext : text = text.take (paddingLength false text) ++ c :: cs := by
      rw [← hdrop, List.take_append_drop]
    refine ⟨c, cs.take (first c cs).extra, cs.drop (first c cs).extra, ?_, rfl, ?_, rfl, ?_⟩
    · rw [List.cons_append, hparts]
      exact htext
    · rw [hparts, hlength]
    · have hc := isPadding_of_first hfault
      have hpadding := padding_take text
      rw [hdrop] at hpadding
      have hlead : paddingLength false (text.take (paddingLength false text) ++ c :: cs)
          = (text.take (paddingLength false text)).length := by
        have hlt : paddingLength false text < text.length := by
          rw [← Nat.not_le, ← List.drop_eq_nil_iff, hdrop]
          exact List.cons_ne_nil c cs
        rw [← htext, List.length_take_of_le hlt.le]
      rintro lead more' (rfl | rfl)
      · exact paddingLength_of_not_padding hc more'
      · refine paddingLength_replaced hlead (fun d hd => Option.some.inj hd ▸ hc) id ?_
        rintro (hflag | hhash)
        · cases hflag
        · exact hpadding.isLineBreak_of_comment hhash

-- What comes behind some lexemes is read from where they end.
theorem of_scanFrom_append {offset : Nat} {text : List Char} {front items : List Scanned}
    (h : scanFrom offset text = front ++ items)
    (hfault : ∀ i ∈ front, ∀ f at_, i.lexeme ≠ .fault f at_) : ∃ before rest, text = before ++ rest ∧ scanFrom (offset + utf8Length before) rest = items := by
  induction front generalizing offset text
  case nil => exact ⟨[], text, rfl, h⟩
  case cons item front ih =>
    obtain ⟨hitem, hfront⟩ := List.forall_mem_cons.mp hfault
    obtain ⟨c, cs, more, rfl, hspan, -, hmore, -⟩ := of_scanFrom_cons h hitem
    obtain ⟨before, rest, rfl, hrest⟩ := ih hmore hfront
    refine ⟨item.lead ++ (c :: cs ++ before), rest, by simp, ?_⟩
    rw [hspan] at hrest
    rw [utf8Length_append, utf8Length_append, ← Nat.add_assoc, ← Nat.add_assoc]
    exact hrest

-- Text that has been read from one lexeme to the end of another.
structure Excerpt (offset : Nat) (text : List Char) (item : Scanned) (items rest : List Scanned)
    (part behind : List Char) : Prop where
  text_eq : text = item.lead ++ (part ++ behind)
  start_eq : item.span.start = offset + utf8Length item.lead
  stop_eq : ((item :: items).getLast (List.cons_ne_nil item items)).span.stop
    = item.span.start + utf8Length part
  rest_eq : scanFrom (item.span.start + utf8Length part) behind = rest
  ne_nil : part ≠ []
  ne_point : part ≠ ['.']
  -- What stands before the first lexeme may be left out.
  scans {lead behind' : List Char} (hlead : lead = [] ∨ lead = item.lead)
    (hbehind : ∀ d ∈ behind'.head?, divides d) :
    Scans (lead ++ part) behind' ((lead, item.lexeme) :: items.map Scanned.bare)

theorem exists_excerpt {offset : Nat} {text : List Char} {item : Scanned} {items rest : List Scanned}
    (h : scanFrom offset text = item :: items ++ rest)
    (hfault : ∀ i ∈ item :: items, ∀ f at_, i.lexeme ≠ .fault f at_)
    (hlast : ((item :: items).getLast (List.cons_ne_nil item items)).lexeme ≠ .token (.sign .dot)) :
    ∃ part behind, Excerpt offset text item items rest part behind := by
  induction items generalizing offset text item
  all_goals
    obtain ⟨hitem, hitems⟩ := List.forall_mem_cons.mp hfault
    obtain ⟨c, cs, more, htext, hspan, hpiece, hrest, hlead⟩ := of_scanFrom_cons h hitem
  case nil =>
    refine ⟨c :: cs, more, htext, by rw [hspan], by rw [List.getLast_singleton, hspan], ?_,
      List.cons_ne_nil c cs, ?_, ?_⟩
    · rw [hspan] at hrest ⊢
      exact hrest
    · intro hpoint
      obtain ⟨rfl, rfl⟩ := List.cons.inj hpoint
      have hfirst := @first_point more
      rw [← List.nil_append more, hpiece] at hfirst
      exact hlast (hfirst hitem rfl)
    · intro lead behind' hlead' hbehind
      exact .lexeme (hlead lead _ hlead') (first_alike (.divided hbehind) hitem hpiece)
  case cons next items ih =>
    rw [List.getLast_cons (List.cons_ne_nil next items)] at hlast
    obtain ⟨part, behind, hpart⟩ := ih hrest hitems hlast
    have hstart : item.span.start + utf8Length (c :: cs ++ (next.lead ++ part))
        = next.span.start + utf8Length part := by
      rw [hpart.start_eq, hspan, utf8Length_append, utf8Length_append]
      dsimp only
      omega
    refine ⟨c :: cs ++ (next.lead ++ part), behind, ?_, by rw [hspan], ?_, ?_, by simp, ?_, ?_⟩
    · rw [htext, hpart.text_eq]
      simp only [List.append_assoc]
    · rw [List.getLast_cons (List.cons_ne_nil next items), hpart.stop_eq, hstart]
    · rw [hstart, hpart.rest_eq]
    · have hne := hpart.ne_nil
      simp [hne]
    · intro lead behind' hlead' hbehind
      have hfirst : first c (cs ++ (next.lead ++ part ++ behind')) = ⟨item.lexeme, cs.length⟩ := by
        have hne := List.append_ne_nil_of_right_ne_nil next.lead hpart.ne_nil
        obtain ⟨d, ds, hds⟩ := List.exists_cons_of_ne_nil hne
        rw [hpart.text_eq, ← List.append_assoc next.lead, hds] at hpiece
        rw [hds]
        refine first_alike (.shared fun hpoint => ?_) hitem hpiece
        -- The last lexeme is not a point, so that there is more behind one.
        have hmore : ds ≠ [] := by
          rintro rfl
          obtain ⟨hnil, hpart'⟩ | ⟨-, hnil⟩ := List.append_eq_singleton_iff.mp hds
          · exact hpart.ne_point (hpoint ▸ hpart')
          · exact hpart.ne_nil hnil
        obtain ⟨e, es, rfl⟩ := List.exists_cons_of_ne_nil hmore
        rfl
      have hscans := Scans.append (.lexeme (hlead lead _ hlead') hfirst) (hpart.scans (.inr rfl) hbehind)
      simpa [Scanned.bare] using hscans

end NoteCell
