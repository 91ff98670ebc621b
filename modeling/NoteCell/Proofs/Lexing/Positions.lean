import Mathlib.Data.List.DropRight
import Mathlib.Data.List.Induction
import Mathlib.Data.Prod.Lex
import Mathlib.Order.Bounds.Basic
import NoteCell.Proofs.Lexing.Borders

/-!
Positions of offsets. Later borders of a text have later positions, so a position tells its border,
and every other offset has the position of the last border before it.
-/
namespace NoteCell
namespace Position

/-! ### Order -/

-- Earlier lines come first, and in a line earlier columns.
def rank (p : Position) : ℕ ×ₗ ℕ := toLex (p.line, p.column)

variable {cs before : List Char} {k : Nat}

theorem rank_lt_next (p : Position) (c : Char) : p.rank < (p.next c).rank := by
  rw [rank, rank, Prod.Lex.toLex_lt_toLex, next]
  split
  case isTrue => exact .inl p.line.lt_succ_self
  case isFalse => exact .inr ⟨rfl, p.column.lt_succ_self⟩

theorem rank_le_foldl (p : Position) (cs : List Char) : p.rank ≤ (cs.foldl next p).rank := by
  induction cs generalizing p
  case nil => exact le_rfl
  case cons c cs ih => exact (rank_lt_next p c).le.trans (ih (p.next c))

theorem rank_lt_foldl (p : Position) (hne : cs ≠ []) : p.rank < (cs.foldl next p).rank := by
  obtain ⟨c, cs, rfl⟩ := List.exists_cons_of_ne_nil hne
  exact (rank_lt_next p c).trans_le (rank_le_foldl (p.next c) cs)

/-! ### Lines and columns -/

-- The line is told by the line feeds, the column by what stands behind the last of them.
theorem foldl_next (cs : List Char) : cs.foldl next start
    = ⟨cs.count '\n' + 1, (cs.rtakeWhile (· ≠ '\n')).length + 1⟩ := by
  induction cs using List.reverseRecOn
  case nil => rfl
  case append_singleton cs c ih =>
    rw [List.foldl_append, ih, List.foldl_cons, List.foldl_nil, next, List.count_append,
      List.rtakeWhile_concat]
    split
    case isTrue hc => simp [hc]
    case isFalse hc => simp [hc]

theorem of_append (before after : List Char) :
    of (before ++ after) (utf8Length before) = before.foldl next start := by
  rw [of, charsBefore_append]

/-! ### Borders -/

theorem charsBefore_prefix (text : List Char) (k : Nat) : charsBefore text k <+: text := by
  induction text generalizing k
  case nil => exact List.prefix_rfl
  case cons c cs ih =>
    rw [charsBefore]
    split
    case isTrue => exact List.cons_prefix_cons.mpr ⟨rfl, ih _⟩
    case isFalse => exact List.nil_prefix

theorem utf8Length_charsBefore_le (text : List Char) (k : Nat) :
    utf8Length (charsBefore text k) ≤ k := by
  induction text generalizing k
  case nil => exact k.zero_le
  case cons c cs ih =>
    rw [charsBefore]
    split
    case isTrue hle =>
      rw [utf8Length_cons]
      have := ih (k - c.utf8Size)
      omega
    case isFalse => exact k.zero_le

-- Of what a text starts with, nothing that ends before an offset is longer.
theorem utf8Length_le_charsBefore (after : List Char) (hle : utf8Length before ≤ k) :
    utf8Length before ≤ utf8Length (charsBefore (before ++ after) k) := by
  induction before generalizing k
  case nil => exact Nat.zero_le _
  case cons c cs ih =>
    rw [utf8Length_cons] at hle
    rw [List.cons_append, charsBefore, if_pos (by omega), utf8Length_cons, utf8Length_cons]
    exact Nat.add_le_add_left (ih (by omega)) _

theorem border_charsBefore (text : String) (k : Nat) :
    Border text (utf8Length (charsBefore text.toList k)) := by
  obtain ⟨after, hafter⟩ := charsBefore_prefix text.toList k
  exact ⟨_, after, hafter.symm, rfl⟩

theorem isGreatest_charsBefore (text : String) (k : Nat) :
    IsGreatest {j | Border text j ∧ j ≤ k} (utf8Length (charsBefore text.toList k)) := by
  refine ⟨⟨border_charsBefore text k, utf8Length_charsBefore_le _ k⟩, ?_⟩
  rintro j ⟨⟨before, after, htext, rfl⟩, hle⟩
  rw [htext]
  exact utf8Length_le_charsBefore after hle

theorem of_charsBefore (text : String) (k : Nat) :
    of text.toList k = of text.toList (utf8Length (charsBefore text.toList k)) := by
  obtain ⟨after, hafter⟩ := charsBefore_prefix text.toList k
  have hof := of_append (charsBefore text.toList k) after
  rw [hafter] at hof
  exact hof.symm

theorem le_of_border {text : String} (hk : Border text k) : k ≤ text.utf8ByteSize := by
  obtain ⟨before, after, htext, rfl⟩ := hk
  rw [← utf8Length_toList, htext, utf8Length_append]
  exact Nat.le_add_right _ _

theorem isGreatest_end {text : String} (hle : text.utf8ByteSize ≤ k) :
    IsGreatest {j | Border text j ∧ j ≤ k} text.utf8ByteSize :=
  ⟨⟨border_end text, hle⟩, fun _ hj => le_of_border hj.1⟩

-- What stands between two borders has characters, each of which leads to a later position.
theorem strictMonoOn_rank (text : String) :
    StrictMonoOn (fun k => (of text.toList k).rank) {k | Border text k} := by
  intro j hj k hk hlt
  obtain ⟨part, before, after, htext, hspan⟩ := exists_slice hj hk hlt.le
  obtain ⟨rfl, rfl⟩ := Span.mk.inj hspan
  have hne : part ≠ [] := by
    rintro rfl
    simp [utf8Length_nil] at hlt
  have hstart : of text.toList (utf8Length before) = before.foldl next start := by
    rw [htext, List.append_assoc, of_append]
  have hstop : of text.toList (utf8Length before + utf8Length part)
      = part.foldl next (before.foldl next start) := by
    rw [htext, ← utf8Length_append, of_append, List.foldl_append]
  dsimp only
  rw [hstart, hstop]
  exact rank_lt_foldl _ hne

-- What the positions of a text tell about its offsets.
structure TellBorders (text : String) : Prop where
  increasing : StrictMonoOn (fun k => (of text.toList k).rank) {k | Border text k}
  injective : Set.InjOn (of text.toList) {k | Border text k}
  -- Any offset is taken back to a border, where the text can be cut. The line and the column are
  -- counted in what stands before the cut.
  floor : ∀ offset, ∃ k before, IsGreatest {j | Border text j ∧ j ≤ offset} k
    ∧ Slice text ⟨0, k⟩ before
    ∧ of text.toList offset = ⟨before.count '\n' + 1, (before.rtakeWhile (· ≠ '\n')).length + 1⟩
    ∧ of text.toList offset = of text.toList k
  clamped : ∀ offset, text.utf8ByteSize ≤ offset →
    of text.toList offset = of text.toList text.utf8ByteSize

theorem tellBorders (text : String) : TellBorders text where
  increasing := strictMonoOn_rank text
  injective _ hj _ hk hjk := (strictMonoOn_rank text).injOn hj hk (congrArg rank hjk)
  floor offset := by
    obtain ⟨after, hafter⟩ := charsBefore_prefix text.toList offset
    refine ⟨_, charsBefore text.toList offset, isGreatest_charsBefore text offset, ?_,
      foldl_next _, of_charsBefore text offset⟩
    exact ⟨[], after, hafter.symm, by simp [utf8Length_nil]⟩
  clamped offset hle := by
    rw [of_charsBefore, (isGreatest_charsBefore text offset).unique (isGreatest_end hle)]

example : of "é = 1\nbb".toList 1 = of "é = 1\nbb".toList 0 := by decide

example : of "é = 1\nbb".toList 1000 = ⟨2, 3⟩ := by decide

end Position
end NoteCell
