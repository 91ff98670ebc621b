import NoteCell.Proofs.Lexing.Lossless

/-!
Borders of tokens. Every token of a source, also one that layout adds, starts and ends between two of
its characters, so that the text from one token to another is a part of the source.
-/
namespace NoteCell

-- A byte offset between two characters, or at one of the ends of a source.
def Border (source : String) (k : Nat) : Prop :=
  ∃ before after, source.toList = before ++ after ∧ k = utf8Length before

section

variable {source : String}

theorem border_end (source : String) : Border source source.utf8ByteSize :=
  ⟨source.toList, [], (List.append_nil _).symm, (utf8Length_toList source).symm⟩

theorem exists_slice {start stop : Nat} (hstart : Border source start) (hstop : Border source stop)
    (hle : start ≤ stop) : ∃ part, Slice source ⟨start, stop⟩ part := by
  obtain ⟨before, after, hbefore, rfl⟩ := hstart
  obtain ⟨before', after', hbefore', rfl⟩ := hstop
  obtain ⟨part, rfl, -⟩ | ⟨part, rfl, -⟩ := List.append_eq_append_iff.mp (hbefore.symm.trans hbefore')
  · exact ⟨part, before, after', hbefore', by rw [utf8Length_append]⟩
  · -- The other offset is the earlier one, so nothing is between them.
    rw [utf8Length_append] at hle
    refine ⟨[], before' ++ part, after, by simpa using hbefore, ?_⟩
    rw [utf8Length_append, utf8Length_nil]
    congr 1
    omega

theorem Slice.le {span : Span} {part : List Char} (h : Slice source span part) :
    span.stop ≤ source.utf8ByteSize := by
  obtain ⟨before, after, hsource, rfl⟩ := h
  rw [← utf8Length_toList, hsource, utf8Length_append, utf8Length_append]
  exact Nat.le_add_right _ _

/-! ### Lexemes -/

theorem Cut.borders {before text : List Char} {items : List Scanned}
    (hsource : source.toList = before ++ text) (h : Cut (utf8Length before) text items) :
    ∀ i ∈ items, Border source i.span.start ∧ Border source i.span.stop := by
  generalize hoffset : utf8Length before = offset at h
  induction h generalizing before
  case done => exact List.forall_mem_nil _
  case lexeme offset part rest item items _ _ hspan _ _ ih =>
    have hstart : source.toList = (before ++ item.lead) ++ (part ++ rest) := by simp [hsource]
    have hstop : source.toList = (before ++ item.lead ++ part) ++ rest := by simp [hsource]
    have hborders : item.span
        = ⟨utf8Length (before ++ item.lead), utf8Length (before ++ item.lead ++ part)⟩ := by
      rw [hspan, utf8Length_append, utf8Length_append, utf8Length_append, hoffset]
    refine List.forall_mem_cons.mpr ⟨?_, ih hstop (congrArg Span.stop hborders).symm⟩
    rw [hborders]
    exact ⟨⟨_, _, hstart, rfl⟩, ⟨_, _, hstop, rfl⟩⟩

/-! ### Tokens -/

namespace Layout

theorem span_of_indentTo {blocks blocks' : List Nat} {width offset : Nat} {layout : List Located}
    (h : indentTo blocks width offset = .ok (layout, blocks')) :
    ∀ t ∈ layout, t.span = ⟨offset, offset⟩ := by
  rw [indentTo] at h
  dsimp only at h
  split at h
  case isTrue =>
    split at h
    case isTrue => cases h
    case isFalse =>
      cases h
      exact List.forall_mem_singleton.mpr rfl
  case isFalse =>
    split at h
    case isTrue =>
      cases h
      exact fun t ht => List.eq_of_mem_replicate ht ▸ rfl
    case isFalse => cases h

-- Layout puts tokens only where a lexeme starts or stops, and at the end of the source.
theorem forall_edges_arrange {P : Nat → Prop} {stop : Nat} {s : State} {items : List Scanned}
    (hstop : P stop) (hitems : ∀ i ∈ items, P i.span.start ∧ P i.span.stop) :
    ∀ t ∈ (arrange stop s items).tokens, P t.span.start ∧ P t.span.stop := by
  induction items generalizing s
  case nil =>
    intro t ht
    obtain ht | ht := List.mem_append.mp ht
    · split at ht
      case isTrue => exact List.mem_singleton.mp ht ▸ ⟨hstop, hstop⟩
      case isFalse => cases ht
    · exact List.eq_of_mem_replicate ht ▸ ⟨hstop, hstop⟩
  case cons item rest ih =>
    obtain ⟨hitem, hrest⟩ := List.forall_mem_cons.mp hitems
    rw [arrange]
    cases item.lexeme with
    | fault f offset => exact List.forall_mem_nil _
    | lineBreak =>
      dsimp only
      split
      case isTrue =>
        split
        case isTrue => exact List.forall_mem_cons.mpr ⟨hitem, ih hrest⟩
        case isFalse => exact ih hrest
      case isFalse => exact ih hrest
    | token t =>
      dsimp only
      cases hplace : placeToken s item.lead t item.span with
      | error e => exact List.forall_mem_nil _
      | ok placed =>
        obtain ⟨ts, next⟩ := placed
        obtain ⟨layout, blocks, brackets, rfl, hnext⟩ := placeToken_cases hplace
        have hlayout : ∀ u ∈ layout, u.span = ⟨item.span.start, item.span.start⟩ := by
          split at hnext
          case isTrue => exact span_of_indentTo hnext.1
          case isFalse => exact hnext.1 ▸ List.forall_mem_nil _
        refine List.forall_mem_append.mpr ⟨List.forall_mem_append.mpr ⟨fun u hu => ?_, ?_⟩, ih hrest⟩
        · rw [hlayout u hu]
          exact ⟨hitem.1, hitem.1⟩
        · exact List.forall_mem_singleton.mpr hitem

end Layout

theorem borders_tokenize (source : String) :
    ∀ t ∈ (tokenize source).tokens, Border source t.span.start ∧ Border source t.span.stop := by
  have hcut := cut_scanFrom 0 source.toList
  exact Layout.forall_edges_arrange (border_end source) (hcut.borders (List.nil_append _).symm)

end

end NoteCell
