import NoteCell.Proofs.Printing.Brackets
import NoteCell.Token.Layout

/-!
Layout of printed lines. A text made of lines falls into the tokens of its lines and those of their
layout, unless its blocks or its brackets go too deep; then it has no tokens at all to go by.
-/
namespace NoteCell

-- The tokens of a stream that comes to the end of its source.
def TokenStream.read? (s : TokenStream) : Option (List Token) :=
  if s.error = none then some (s.tokens.map (·.token)) else none

namespace TokenStream

theorem read?_prepend (ts : List Located) (s : TokenStream) :
    (s.prepend ts).read? = s.read?.map (ts.map (·.token) ++ ·) := by
  obtain ⟨tokens, error⟩ := s
  cases error <;> simp [read?, prepend]

end TokenStream

namespace Layout

/-! ### Tokens within a line -/

-- Within a line with so many brackets open.
def State.within (blocks : List Nat) (brackets : Nat) : State := ⟨blocks, brackets, false, true⟩

section

variable {stop : Nat} {blocks : List Nat} {b : Nat} {item : Scanned} {items rest : List Scanned}
  {t : Token} {ts : List Token}

theorem read?_token (hitem : item.lexeme = .token t) :
    (arrange stop (.within blocks b) (item :: rest)).read?
      = match bracketsAfter b t item.span.start with
        | .ok b' => (arrange stop (.within blocks b') rest).read?.map (t :: ·)
        | .error _ => none := by
  rw [arrange, hitem]
  cases h : bracketsAfter b t item.span.start with
  | ok b' =>
    simp only [placeToken, State.within, h]
    exact TokenStream.read?_prepend _ _
  | error e =>
    simp only [placeToken, State.within, h]
    rfl

theorem read?_plain (hitem : item.lexeme = .token t) (ht : t.isPlain) :
    (arrange stop (.within blocks b) (item :: rest)).read?
      = (arrange stop (.within blocks b) rest).read?.map (t :: ·) := by
  have hafter : bracketsAfter b t item.span.start = .ok b := by
    cases t
    case sign s =>
      simp only [Token.isPlain, Bool.and_eq_true, Bool.not_eq_true'] at ht
      simp [bracketsAfter, ht]
    all_goals rfl
  rw [read?_token hitem, hafter]

theorem read?_opening {s : Sign} (hitem : item.lexeme = .token (.sign s)) (hs : s.opens) :
    (arrange stop (.within blocks b) (item :: rest)).read?
      = if b < maxBrackets then
          (arrange stop (.within blocks (b + 1)) rest).read?.map (.sign s :: ·)
        else none := by
  rw [read?_token hitem, bracketsAfter, if_pos hs]
  by_cases h : maxBrackets ≤ b
  · rw [if_pos h, if_neg (Nat.not_lt.mpr h)]
  · rw [if_neg h, if_pos (Nat.lt_of_not_le h)]

theorem read?_closing {s : Sign} (hitem : item.lexeme = .token (.sign s)) (hs : s.closes) :
    (arrange stop (.within blocks (b + 1)) (item :: rest)).read?
      = (arrange stop (.within blocks b) rest).read?.map (.sign s :: ·) := by
  have hopens : s.opens = false := by cases s <;> first | rfl | exact absurd hs (by decide)
  rw [read?_token hitem, bracketsAfter, hopens, if_neg (by simp), if_pos hs, Nat.add_sub_cancel]

-- Balanced tokens come to the number of brackets they started with, if they go no deeper than they
-- may.
theorem read?_balanced (h : Balanced ts) (hitems : items.map (·.lexeme) = ts.map .token)
    (hb : b ≤ maxBrackets) :
    (arrange stop (.within blocks b) (items ++ rest)).read?
      = if b + bracketDepth ts ≤ maxBrackets then
          (arrange stop (.within blocks b) rest).read?.map (ts ++ ·)
        else none := by
  induction h generalizing b items rest
  case nil =>
    obtain rfl := List.map_eq_nil_iff.mp hitems
    simp [bracketDepth, hb]
  case plain t ts ht h ih =>
    obtain ⟨item, items, rfl, hitem, hitems⟩ := List.map_eq_cons_iff.mp hitems
    rw [List.cons_append, read?_plain hitem ht, ih hitems hb, Balanced.bracketDepth_plain ht]
    split <;> simp [Function.comp_def]
  case enclosed o c ts us ho hc h _ ih ih' =>
    obtain ⟨first, items, rfl, hfirst, hitems⟩ := List.map_eq_cons_iff.mp hitems
    rw [List.map_append, List.map_cons] at hitems
    obtain ⟨inner, items, rfl, hinner, hitems⟩ := List.map_eq_append_iff.mp hitems
    obtain ⟨last, items, rfl, hlast, hitems⟩ := List.map_eq_cons_iff.mp hitems
    rw [List.cons_append, List.append_assoc, List.cons_append, read?_opening hfirst ho,
      Balanced.bracketDepth_enclosed ho hc h]
    by_cases hopen : b < maxBrackets
    · rw [if_pos hopen, ih hinner hopen]
      by_cases hdeep : b + 1 + bracketDepth ts ≤ maxBrackets
      · rw [if_pos hdeep, read?_closing hlast hc, ih' hitems hb]
        by_cases hlater : b + bracketDepth us ≤ maxBrackets
        · rw [if_pos hlater, if_pos (by omega)]
          simp [Function.comp_def]
        · rw [if_neg hlater, if_neg (by omega)]
          rfl
      · rw [if_neg hdeep, if_neg (by omega)]
        rfl
    · rw [if_neg hopen, if_neg (by omega)]

end

/-! ### Lines -/

-- The widths of so many blocks, each four blanks deeper than the one around it.
def widths : Nat → List Nat
  | 0 => []
  | d + 1 => 4 * (d + 1) :: widths d

theorem length_widths (d : Nat) : (widths d).length = d := by
  induction d with
  | zero => rfl
  | succ d ih => rw [widths, List.length_cons, ih]

theorem headD_widths (d : Nat) : (widths d).headD 0 = 4 * d := by
  cases d <;> rfl

theorem dropWhile_widths {d k : Nat} (h : d ≤ k) : (widths k).dropWhile (4 * d < ·) = widths d := by
  induction k with
  | zero =>
    obtain rfl : d = 0 := Nat.le_zero.mp h
    rfl
  | succ k ih =>
    rcases Nat.eq_or_lt_of_le h with rfl | hlt
    · rw [widths, List.dropWhile_cons, if_neg (by simp)]
    · rw [widths, List.dropWhile_cons, if_pos (by simpa using hlt), ih (Nat.le_of_lt_succ hlt)]

theorem indentWidth_blanks (width n : Nat) :
    indentWidth width (List.replicate n ' ') = width + n := by
  induction n generalizing width with
  | zero => rfl
  | succ n ih =>
    rw [List.replicate_succ, indentWidth, if_pos rfl, ih]
    omega

theorem indentTo_deeper (k offset : Nat) :
    indentTo (widths k) (4 * (k + 1)) offset
      = if maxBlocks ≤ k then .error ⟨.tooDeeplyIndented, offset⟩
        else .ok ([layoutToken .indent offset], widths (k + 1)) := by
  rw [indentTo, headD_widths, length_widths]
  exact if_pos (by omega)

theorem indentTo_back {d k : Nat} (h : d ≤ k) (offset : Nat) :
    indentTo (widths k) (4 * d) offset = .ok (dedents (k - d) offset, widths d) := by
  simp only [indentTo, headD_widths, length_widths, dropWhile_widths h]
  exact (if_neg (by omega)).trans (if_pos trivial)

-- Before the first token of a line.
def State.lineStart (blocks : List Nat) : State := ⟨blocks, 0, true, false⟩

section

variable {stop : Nat} {blocks blocks' : List Nat} {item : Scanned} {items rest : List Scanned} {t : Token}
  {layout : List Located}

theorem arrange_lineStart (hitem : item.lexeme = .token t)
    (h : indentTo blocks (indentWidth 0 item.lead) item.span.start = .ok (layout, blocks')) :
    (arrange stop (.lineStart blocks) (item :: rest)).read?
      = (arrange stop (.within blocks' 0) (item :: rest)).read?.map (layout.map (·.token) ++ ·) := by
  rw [read?_token hitem, arrange, hitem]
  simp only [placeToken, State.lineStart, h]
  cases bracketsAfter 0 t item.span.start with
  | ok b' =>
    refine (TokenStream.read?_prepend _ _).trans ?_
    simp only [State.within, Option.map_map, List.map_append, List.append_assoc]
    rfl
  | error e => rfl

theorem arrange_unindented {e : LexError} (hitem : item.lexeme = .token t)
    (h : indentTo blocks (indentWidth 0 item.lead) item.span.start = .error e) :
    (arrange stop (.lineStart blocks) (item :: rest)).read? = none := by
  rw [arrange, hitem]
  simp only [placeToken, State.lineStart, h]
  rfl

theorem read?_lineStart {d k : Nat} (hd : d ≤ k + 1) (hk : k ≤ maxBlocks)
    (hitem : item.bare = (List.replicate (4 * d) ' ', .token t)) :
    (arrange stop (.lineStart (widths k)) (item :: rest)).read?
      = if d ≤ maxBlocks then
          (arrange stop (.within (widths d) 0) (item :: rest)).read?.map
            ((if k < d then [.indent] else List.replicate (k - d) .dedent) ++ ·)
        else none := by
  have ⟨hlead, htoken⟩ := Prod.mk.inj hitem
  have hwidth : indentWidth 0 item.lead = 4 * d := by
    rw [hlead, indentWidth_blanks, Nat.zero_add]
  by_cases hkd : k < d
  · obtain rfl : d = k + 1 := by omega
    have hindent := indentTo_deeper k item.span.start
    by_cases hfull : maxBlocks ≤ k
    · rw [if_neg (by omega)]
      exact arrange_unindented htoken (by rw [hwidth, hindent, if_pos hfull])
    · rw [if_pos (by omega), if_pos hkd]
      exact arrange_lineStart htoken (by rw [hwidth, hindent, if_neg hfull])
  · have hdk : d ≤ k := Nat.not_lt.mp hkd
    rw [if_pos (Nat.le_trans hdk hk), if_neg hkd]
    have h := indentTo_back hdk item.span.start
    rw [← hwidth] at h
    rw [arrange_lineStart htoken h, dedents, List.map_replicate]
    rfl

theorem read?_lineBreak (hitem : item.lexeme = .lineBreak) :
    (arrange stop (.within blocks 0) (item :: rest)).read?
      = (arrange stop (.lineStart blocks) rest).read?.map (.newline :: ·) := by
  rw [arrange, hitem]
  exact TokenStream.read?_prepend _ _

theorem read?_end (d : Nat) :
    (arrange stop (.within (widths d) 0) []).read?
      = some (.newline :: List.replicate d .dedent) := by
  simp [arrange, finish, State.within, TokenStream.read?, dedents, layoutToken, length_widths]

end

end Layout

/-! ### Printed lines -/

def Line.lexemes (l : Line) : List (List Char × Lexeme) :=
  match l.words with
  | [] => []
  | w :: ws => (List.replicate (4 * l.depth) ' ', .token w.token) :: ws.map Word.lexeme

-- Neither its blocks nor its brackets go deeper than they may.
def Line.Fits (l : Line) : Prop :=
  l.depth ≤ Layout.maxBlocks ∧ bracketDepth (tokensOf l.words) ≤ Layout.maxBrackets

instance (l : Line) : Decidable l.Fits := inferInstanceAs (Decidable (_ ∧ _))

-- A line whose words are read one by one.
structure Line.Legible (l : Line) : Prop where
  starts : ∃ w ws, l.words = w :: ws ∧ w.spaced = false
  read {rest : List Char} (hrest : EndsLine rest) : ReadOneByOne l.words rest
  balanced : Balanced (tokensOf l.words)

theorem Line.Legible.of_phrase {l : Line} (h : Phrase l.words) (hbalanced : Balanced (tokensOf l.words)) :
    l.Legible := by
  obtain ⟨w, ws, hwords, hw, -⟩ := h.starts
  exact ⟨⟨w, ws, hwords, hw⟩, h.readable.readLine, hbalanced⟩

section

variable {k stop : Nat} {l : Line} {ls : List Line} {items rest : List Scanned}

theorem Line.Legible.read?_line (h : l.Legible) (hd : l.depth ≤ k + 1) (hk : k ≤ Layout.maxBlocks)
    (hitems : items.map Scanned.bare = l.lexemes) :
    (Layout.arrange stop (.lineStart (Layout.widths k)) (items ++ rest)).read?
      = if l.Fits then
          (Layout.arrange stop (.within (Layout.widths l.depth) 0) rest).read?.map
            (((if k < l.depth then [.indent] else List.replicate (k - l.depth) .dedent)
              ++ tokensOf l.words) ++ ·)
        else none := by
  obtain ⟨d, words⟩ := l
  have ⟨w, ws, hwords, _⟩ := h.starts
  cases hwords
  obtain ⟨item, items, rfl, hitem, hitems⟩ := List.map_eq_cons_iff.mp hitems
  have htokens : (item :: items).map (·.lexeme) = (tokensOf (w :: ws)).map .token := by
    have hsnd : (fun i : Scanned => i.lexeme) = Prod.snd ∘ Scanned.bare := rfl
    have htoken : Prod.snd ∘ Word.lexeme = Lexeme.token ∘ Word.token := rfl
    rw [List.map_cons, hsnd, ← List.map_map, hitems, List.map_map, htoken, tokensOf, List.map_map,
      List.map_cons]
    exact congrArg (· :: _) (congrArg Prod.snd hitem)
  have hbal := @Layout.read?_balanced stop (Layout.widths d) 0 (item :: items) rest _ h.balanced
    htokens (Nat.zero_le _)
  rw [List.cons_append, Layout.read?_lineStart hd hk hitem, ← List.cons_append, hbal, Nat.zero_add]
  by_cases hdepth : d ≤ Layout.maxBlocks
  · by_cases hbrackets : bracketDepth (tokensOf (w :: ws)) ≤ Layout.maxBrackets
    · have hfits : Line.Fits ⟨d, w :: ws⟩ := ⟨hdepth, hbrackets⟩
      rw [if_pos hdepth, if_pos hbrackets, if_pos hfits, Option.map_map]
      simp [Function.comp_def]
    · have hfits : ¬ Line.Fits ⟨d, w :: ws⟩ := fun hf => hbrackets hf.2
      rw [if_pos hdepth, if_neg hbrackets, if_neg hfits]
      rfl
  · have hfits : ¬ Line.Fits ⟨d, w :: ws⟩ := fun hf => hdepth hf.1
    rw [if_neg hdepth, if_neg hfits]

-- Lines with line breaks between them.
theorem read?_lines (h : ∀ l ∈ ls, l.Legible) (hstep : Stepwise k ls) (hk : k ≤ Layout.maxBlocks)
    (hitems : items.map Scanned.bare = List.intercalate [([], .lineBreak)] (ls.map Line.lexemes)) :
    (Layout.arrange stop (.lineStart (Layout.widths k)) items).read?
      = if ∀ l ∈ ls, l.Fits then some (lineTokens k ls) else none := by
  induction ls generalizing k items
  case nil =>
    obtain rfl := List.map_eq_nil_iff.mp hitems
    simp [Layout.arrange, Layout.finish, Layout.State.lineStart, TokenStream.read?, Layout.dedents,
      Layout.layoutToken, Layout.length_widths, lineTokens]
  case cons l ls ih =>
    have hl := h l List.mem_cons_self
    cases ls with
    | nil =>
      rw [List.map_singleton, List.intercalate_singleton] at hitems
      have hline := @Line.Legible.read?_line k stop l items [] hl hstep.1 hk hitems
      rw [List.append_nil] at hline
      rw [hline, Layout.read?_end]
      simp [lineTokens]
    | cons l' ls =>
      rw [List.map_cons, List.map_cons, List.intercalate_cons_cons, List.append_assoc] at hitems
      obtain ⟨line, items, rfl, hline, hitems⟩ := List.map_eq_append_iff.mp hitems
      obtain ⟨item, items, rfl, hitem, hitems⟩ := List.map_eq_cons_iff.mp hitems
      have hbreak : item.lexeme = .lineBreak := congrArg Prod.snd hitem
      rw [hl.read?_line hstep.1 hk hline, Layout.read?_lineBreak hbreak]
      by_cases hfits : l.Fits
      · rw [if_pos hfits, ih (fun m hm => h m (List.mem_cons_of_mem l hm)) hstep.2 hfits.1
          hitems]
        by_cases hrest : ∀ m ∈ l' :: ls, m.Fits
        · rw [if_pos hrest, if_pos (List.forall_mem_cons.mpr ⟨hfits, hrest⟩)]
          simp [lineTokens]
        · rw [if_neg hrest, if_neg fun hall => hrest (List.forall_mem_cons.mp hall).2]
          rfl
      · rw [if_neg hfits, if_neg fun hall => hfits (List.forall_mem_cons.mp hall).1]

theorem Line.Legible.scans {rest : List Char} (h : l.Legible) (hrest : EndsLine rest) :
    Scans l.chars rest l.lexemes := by
  obtain ⟨d, words⟩ := l
  have ⟨w, ws, hwords, hw⟩ := h.starts
  cases hwords
  exact (h.read hrest).scans_line hw

theorem scans_lines (h : ∀ l ∈ ls, l.Legible) :
    Scans (List.intercalate ['\n'] (ls.map Line.chars)) []
      (List.intercalate [([], .lineBreak)] (ls.map Line.lexemes)) := by
  induction ls with
  | nil => exact .nil []
  | cons l ls ih =>
    have hl := h l List.mem_cons_self
    cases ls with
    | nil =>
      have hscans : Scans l.chars [] l.lexemes := hl.scans nofun
      simpa using hscans
    | cons l' ls =>
      rw [List.map_cons, List.map_cons, List.intercalate_cons_cons, List.map_cons, List.map_cons,
        List.intercalate_cons_cons]
      have hrest := ih fun m hm => h m (List.mem_cons_of_mem l hm)
      exact .append (.append (hl.scans fun c hc => by cases hc; rfl) (.lineBreak _)) hrest

-- The tokens of a text made of lines.
theorem read?_tokenize_lines (h : ∀ l ∈ ls, l.Legible) (hstep : Stepwise 0 ls) :
    (tokenize (String.ofList (List.intercalate ['\n'] (ls.map Line.chars)))).read?
      = if ∀ l ∈ ls, l.Fits then some (lineTokens 0 ls) else none := by
  have ⟨items, offset, hscan, hitems⟩ := scans_lines h 0
  rw [List.append_nil] at hscan
  have hend : scanFrom offset [] = [] := by rw [scanFrom]; rfl
  rw [tokenize, scan, String.toList_ofList, hscan, hend, List.append_nil]
  exact read?_lines h hstep (Nat.zero_le _) hitems

end

end NoteCell
