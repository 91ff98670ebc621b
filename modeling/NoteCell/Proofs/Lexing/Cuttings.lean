import NoteCell.Proofs.Lexing.Excerpts
import NoteCell.Proofs.Lexing.Runs

/-!
Cuttings of a source. The text of some tokens, with the padding behind it or without, makes the same
tokens as a source of its own and in brackets, unless the padding holds a comment that takes up the
closing one.
-/
namespace NoteCell

open Piece

/-! ### Padding -/

theorem paddingLength_comment {cs : List Char} (h : ∀ c ∈ cs, isLineBreak c = false)
    (more : List Char) : paddingLength true (cs ++ more) = cs.length + paddingLength true more := by
  induction cs with
  | nil => simp
  | cons c cs ih =>
    obtain ⟨hc, hcs⟩ := List.forall_mem_cons.mp h
    rw [List.cons_append, paddingLength, hc, if_neg Bool.false_ne_true, ih hcs, List.length_cons]
    omega

namespace Padding

variable {rest pad more : List Char}

theorem isPadding_head (h : Padding rest pad) : ∀ c ∈ pad.head?, isPadding c := by
  cases h with
  | nil => simp
  | blank hc => obtain rfl | rfl | rfl := hc <;> simp [isPadding]
  | comment => simp [isPadding]
  | joined => simp [isPadding]

-- What stands behind padding goes on with the comment in it, if there is one.
theorem paddingLength_append (h : Padding rest pad) (more : List Char)
    (hmore : more.head? ≠ some '\n') :
    paddingLength false (pad ++ more) = pad.length + paddingLength ('#' ∈ pad) more := by
  induction h
  case nil => simp
  case blank c cs hc _ ih =>
    have hslash : c ≠ '\\' := by obtain rfl | rfl | rfl := hc <;> decide
    have hhash : '#' ≠ c := by obtain rfl | rfl | rfl := hc <;> decide
    have hblank : (c = ' ' || c = '\t' || c = '\x0c') = true := by simpa [or_assoc] using hc
    rw [List.cons_append, paddingLength_cons hslash, if_pos hblank, ih, List.length_cons]
    simp only [List.mem_cons, hhash, false_or]
    omega
  case comment cs hcs _ =>
    rw [List.cons_append, paddingLength_cons (by decide), if_neg (by decide), if_pos rfl,
      paddingLength_comment hcs, List.length_cons]
    simp only [List.mem_cons, true_or, decide_true]
    omega
  case joined lineBreak cs hbreak hcs ih =>
    have hhash : ('#' ∈ '\\' :: (lineBreak ++ cs)) = ('#' ∈ cs) := by
      obtain rfl | rfl | rfl := hbreak <;> simp
    have hfeed (ds : List Char) (hds : cs ++ more = '\n' :: ds) : False := by
      cases cs with
      | nil => exact hmore (congrArg List.head? hds)
      | cons c cs =>
        injection hds with hc
        have hpadding := hcs.isPadding_head c rfl
        rw [hc] at hpadding
        cases hpadding
    have hlength : paddingLength false ('\\' :: (lineBreak ++ cs) ++ more)
        = lineBreak.length + 1 + paddingLength false (cs ++ more) := by
      obtain rfl | rfl | rfl := hbreak
      · simp [paddingLength]
      · exact paddingLength.eq_4 _ hfeed
      · simp [paddingLength]
    simp only [hhash]
    rw [hlength, ih, List.length_cons, List.length_append]
    omega

theorem divides_head (h : Padding rest pad) (hmore : ∀ c ∈ more.head?, divides c) :
    ∀ c ∈ (pad ++ more).head?, divides c := by
  cases pad with
  | nil => exact hmore
  | cons c cs =>
    have hc := h.isPadding_head c rfl
    intro d hd
    rw [← Option.some.inj hd, divides, hc, Bool.or_true]

theorem divides_head_self (h : Padding rest pad) : ∀ c ∈ pad.head?, divides c := by
  have hhead : ∀ c ∈ (pad ++ []).head?, divides c := h.divides_head (by simp)
  rwa [List.append_nil] at hhead

theorem scanFrom_eq (h : Padding rest pad) (offset : Nat) : scanFrom offset pad = [] := by
  have hlength := h.paddingLength_append [] (by simp)
  rw [List.append_nil, paddingLength.eq_1, Nat.add_zero] at hlength
  rw [scanFrom_nil]
  rw [hlength, List.drop_length]

end Padding

/-! ### Text that makes tokens -/

def Lexeme.token? : Lexeme → Option Token
  | token t => some t
  | _ => none

def lexemesIn (text : List Char) : List Lexeme := (scanFrom 0 text).map (·.lexeme)

-- The tokens that a text holds, wherever its lines end.
def tokensIn (text : List Char) : List Token := (lexemesIn text).filterMap Lexeme.token?

-- A text that ends within a comment: what stands behind it on its last line is not read.
def EndsInComment (text : List Char) : Prop :=
  ∀ more, (∀ c ∈ more, isLineBreak c = false) → lexemesIn (text ++ more) = lexemesIn text

theorem Run.filterMap_token? {b : Nat} {ls : List Lexeme} {ts : List Token} (h : Run b ls ts) :
    ls.filterMap Lexeme.token? = ts := by
  induction h with
  | nil => rfl
  | token _ ih => exact congrArg _ ih
  | joined _ _ ih => exact ih

-- Text that makes some tokens wherever it stands on a line, with so many brackets open before it.
def Makes (b : Nat) (part : List Char) (ts : List Token) : Prop :=
  ∃ lexeme items, Run b (lexeme :: items.map Prod.snd) ts
    ∧ ∀ more, (∀ c ∈ more.head?, divides c) → Scans part more (([], lexeme) :: items)

section

variable {b : Nat} {source part pad rest : List Char} {ts : List Token}

theorem Makes.enclosed (h : Makes b part ts) (hts : Balanced ts) : Makes 1 part ts := by
  obtain ⟨lexeme, items, hrun, hscans⟩ := h
  exact ⟨lexeme, items, hrun.enclosed hts, hscans⟩

namespace Layout

theorem read?_first {stop : Nat} {item : Scanned} {items : List Scanned} {t : Token}
    (hitem : item.bare = ([], .token t)) : (arrange stop .initial (item :: items)).read?
      = (arrange stop (.within [] 0) (item :: items)).read? := by
  obtain ⟨hlead, hlexeme⟩ := Prod.mk.inj hitem
  have hindent : indentTo [] (indentWidth 0 item.lead) item.span.start = .ok ([], []) := by
    rw [hlead]
    rfl
  exact (arrange_lineStart hlexeme hindent).trans (by simp)

theorem read?_ended (stop b : Nat) : (arrange stop (.within [] b) []).read? = some [.newline] := rfl

end Layout

theorem lexemes_of_bare {items : List Scanned} {ls : List (List Char × Lexeme)}
    (h : items.map Scanned.bare = ls) : items.map (·.lexeme) = ls.map Prod.snd := by
  rw [← h, List.map_map]
  rfl

theorem Makes.exists_lexemes (h : Makes b part ts) : ∃ ls, Run b ls ts
    ∧ ∀ more, (∀ c ∈ more.head?, divides c) →
      ∃ stop, lexemesIn (part ++ more) = ls ++ (scanFrom stop more).map (·.lexeme) := by
  obtain ⟨lexeme, ws, hrun, hscans⟩ := h
  refine ⟨_, hrun, fun more hmore => ?_⟩
  obtain ⟨items, stop, hscan, hitems⟩ := hscans more hmore 0
  exact ⟨stop, by rw [lexemesIn, hscan, List.map_append, lexemes_of_bare hitems]; rfl⟩

theorem Makes.tokensIn_eq (h : Makes b part ts) (hpad : Padding rest pad) :
    tokensIn (part ++ pad) = ts := by
  obtain ⟨ls, hrun, hlexemes⟩ := h.exists_lexemes
  obtain ⟨stop, htext⟩ := hlexemes pad hpad.divides_head_self
  rw [tokensIn, htext, hpad.scanFrom_eq, List.map_nil, List.append_nil, hrun.filterMap_token?]

theorem Makes.read?_alone (h : Makes 0 part ts) (hts : OpensWithin 0 ts) (hpad : Padding rest pad) :
    (tokenize (String.ofList (part ++ pad))).read? = some (ts ++ [.newline]) := by
  obtain ⟨lexeme, ws, hrun, hscans⟩ := h
  obtain ⟨items, stop, hscan, hitems⟩ := hscans pad hpad.divides_head_self 0
  rw [hpad.scanFrom_eq, List.append_nil] at hscan
  have hread := @Layout.read?_run (String.ofList (part ++ pad)).utf8ByteSize 0 [] items [] _ _ hrun
    (lexemes_of_bare hitems) hts
  rw [List.append_nil, Layout.read?_ended, Option.map_some] at hread
  obtain ⟨item, items, rfl, hitem, -⟩ := List.map_eq_cons_iff.mp hitems
  rw [tokenize, scan, String.toList_ofList, hscan]
  cases hrun with
  | joined hb => exact (hb rfl).elim
  | token => rw [Layout.read?_first hitem, hread]

theorem scanFrom_closing (hpad : Padding rest pad) (offset : Nat) :
    (scanFrom offset (pad ++ [')'])).map Scanned.bare
      = if '#' ∈ pad then [] else [(pad, .token (.sign .rparen))] := by
  have hlength := hpad.paddingLength_append [')'] (by simp)
  split
  case isTrue hhash =>
    have hend : (pad ++ [')']).drop (paddingLength false (pad ++ [')'])) = [] := by
      rw [hlength, decide_eq_true hhash]
      exact List.drop_eq_nil_of_le (by simp [paddingLength, isLineBreak])
    rw [scanFrom_nil hend, List.map_nil]
  case isFalse hhash =>
    have hzero : paddingLength false (pad ++ [')']) = pad.length := by
      rw [hlength, decide_eq_false hhash]
      rfl
    have hfirst : first ')' ([] ++ []) = ⟨.token (.sign .rparen), 0⟩ := by decide
    obtain ⟨span, stop, hscan⟩ := @scanFrom_lexeme pad [] [] ')' _ hzero hfirst offset
    rw [List.append_nil] at hscan
    rw [hscan, scanFrom_nil rfl]
    rfl

theorem Run.append {ls ls' : List Lexeme} {ts' : List Token} (h : Run b ls ts)
    (h' : Run (ts.foldl Token.after b) ls' ts') : Run b (ls ++ ls') (ts ++ ts') := by
  induction h with
  | nil => exact h'
  | token _ ih => exact .token (ih h')
  | joined hb _ ih => exact .joined hb (ih h')

-- The closing bracket is a part of the comment behind the text, if there is one.
theorem Makes.read?_enclosed (h : Makes 1 part ts) (hts : OpensWithin 1 ts)
    (hclosed : ts.foldl Token.after 1 = 1) (hpad : Padding rest pad) :
    (tokenize (String.ofList ('(' :: (part ++ pad) ++ [')']))).read?
      = some (.sign .lparen :: (ts ++ if '#' ∈ pad then [] else [.sign .rparen]) ++ [.newline]) := by
  obtain ⟨lexeme, ws, hrun, hscans⟩ := h
  have hopening (more : List Char) : Scans ([] ++ ['(']) more [([], .token (.sign .lparen))] :=
    .lexeme (paddingLength_of_not_padding rfl _) (first_sign .lparen (fun _ _ => rfl) rfl)
  have hpart := hscans (pad ++ [')']) (hpad.divides_head (by simp [divides]))
  obtain ⟨items, stop, hscan, hitems⟩ := (hopening _).append hpart 0
  rw [List.nil_append] at hscan
  have hclosing := scanFrom_closing hpad stop
  generalize scanFrom stop (pad ++ [')']) = closing at hscan hclosing
  have hrun' : Run 0 ((items ++ closing).map (·.lexeme))
      (.sign .lparen :: (ts ++ if '#' ∈ pad then [] else [.sign .rparen])) := by
    rw [List.map_append, lexemes_of_bare hitems, lexemes_of_bare hclosing]
    refine .token (hrun.append ?_)
    split
    · exact .nil
    · exact .token .nil
  have hdeep : OpensWithin 0 (.sign .lparen :: (ts ++ if '#' ∈ pad then [] else [.sign .rparen])) := by
    refine ⟨Nat.zero_le _, opensWithin_append.mpr ⟨hts, ?_⟩⟩
    change OpensWithin (ts.foldl Token.after 1) _
    rw [hclosed]
    split
    · exact hts.le
    · exact ⟨hts.le, Nat.zero_le _⟩
  have hread := @Layout.read?_run (String.ofList ('(' :: (part ++ pad) ++ [')'])).utf8ByteSize 0 []
    (items ++ closing) [] _ _ hrun' rfl hdeep
  rw [List.append_nil, Layout.read?_ended, Option.map_some] at hread
  obtain ⟨item, items, rfl, hitem, -⟩ := List.map_eq_cons_iff.mp hitems
  have htext : '(' :: (part ++ pad) ++ [')'] = ['('] ++ part ++ (pad ++ [')']) := by simp
  rw [tokenize, scan, String.toList_ofList]
  rw [htext] at hread ⊢
  rw [hscan]
  exact (Layout.read?_first hitem).trans hread

theorem Makes.endsInComment_iff (h : Makes b part ts) (hpad : Padding rest pad) :
    EndsInComment (part ++ pad) ↔ '#' ∈ pad := by
  obtain ⟨ls, -, hlexemes⟩ := h.exists_lexemes
  obtain ⟨stop, htext⟩ := hlexemes pad hpad.divides_head_self
  rw [hpad.scanFrom_eq, List.map_nil, List.append_nil] at htext
  constructor
  · intro hcomment
    have hclosing := hcomment [')'] (by simp [isLineBreak])
    obtain ⟨stop', htext'⟩ := hlexemes (pad ++ [')']) (hpad.divides_head (by simp [divides]))
    rw [htext, List.append_assoc, htext', List.append_right_eq_self] at hclosing
    by_contra hhash
    have hbracket := scanFrom_closing hpad stop'
    rw [if_neg hhash, List.map_eq_nil_iff.mp hclosing] at hbracket
    cases hbracket
  · intro hhash more hmore
    obtain ⟨c, cs, rfl⟩ := List.exists_cons_of_ne_nil (List.ne_nil_of_mem hhash)
    obtain ⟨stop', htext'⟩ := hlexemes (c :: cs ++ more) hpad.divides_head_self
    have hfeed : more.head? ≠ some '\n' := by
      intro hhead
      cases hmore '\n' (List.mem_of_mem_head? hhead)
    have hlength := hpad.paddingLength_append more hfeed
    rw [decide_eq_true hhash, ← List.append_nil more, paddingLength_comment hmore,
      List.append_nil] at hlength
    have hend : (c :: cs ++ more).drop (paddingLength false (c :: cs ++ more)) = [] := by
      rw [hlength]
      exact List.drop_eq_nil_of_le (by simp [paddingLength])
    rw [htext, List.append_assoc, htext', scanFrom_nil hend, List.map_nil, List.append_nil]

end

/-! ### Tokens side by side -/

-- A source around the text of some tokens. `b` brackets are open before it, and the tokens `after`
-- come from what is left of the source behind it.
structure Cutting (source : String) (b : Nat) (ts : List Token) (after : List Located)
    (front part behind : List Char) : Prop where
  source_eq : source.toList = front ++ part ++ behind
  makes : Makes b part ts
  rest_eq : ∃ blocks, Layout.arrange source.utf8ByteSize (.within blocks (ts.foldl Token.after b))
    (scanFrom (utf8Length (front ++ part)) behind) = ⟨after, none⟩

theorem exists_cutting {source : String} {before us after : List Located} {u : Located}
    (h : tokenize source = ⟨before ++ (u :: us ++ after), none⟩)
    (hplain : ∀ t ∈ u :: us, t.token.isLayout = false)
    (hlast : ((u :: us).getLast (List.cons_ne_nil u us)).token ≠ .sign .dot) :
    ∃ front part behind, Cutting source ((before.map (·.token)).foldl Token.after 0)
        ((u :: us).map (·.token)) after front part behind
      ∧ u.span.start = utf8Length front
      ∧ ((u :: us).getLast (List.cons_ne_nil u us)).span.stop = utf8Length (front ++ part) := by
  obtain ⟨hu, hus⟩ := List.forall_mem_cons.mp hplain
  have hfault := Layout.wellCut_of_arrange (congrArg TokenStream.error h)
  obtain ⟨pre, item, items, blocks, hitems, hlexeme, hspan, hline⟩ := Layout.exists_token h hu (fun _ => rfl)
  obtain ⟨mid, rest, rfl, hrun, hmid, hrest⟩ := Layout.exists_run hline hus
  rw [hitems] at hfault
  obtain ⟨lead, text, htext, hscan⟩ := of_scanFrom_append hitems fun i hi => hfault i (by simp [hi])
  have hmark : ((item :: mid).getLast (List.cons_ne_nil item mid)).mark
      = ((u :: us).getLast (List.cons_ne_nil u us)).mark := by
    have hmark : item.mark = u.mark := congrArg₂ Prod.mk hlexeme hspan
    have hsome := mark_getLast? hmark hmid
    rw [List.getLast?_eq_some_getLast (List.cons_ne_nil item mid),
      List.getLast?_eq_some_getLast (List.cons_ne_nil u us)] at hsome
    exact Option.some.inj hsome
  obtain ⟨hkind, hend⟩ := Prod.mk.inj hmark
  obtain ⟨part, behind, hpart⟩ := @exists_excerpt _ _ item mid rest hscan
    (fun i hi => hfault i (List.mem_append_right pre (List.mem_append_left rest hi)))
    fun hpoint => hlast (Lexeme.token.inj (hkind.symm.trans hpoint))
  have hstart : item.span.start = utf8Length (lead ++ item.lead) := by
    rw [hpart.start_eq, utf8Length_append, Nat.zero_add]
  have hbehind : utf8Length (lead ++ item.lead ++ part) = item.span.start + utf8Length part := by
    rw [utf8Length_append, hstart]
  refine ⟨lead ++ item.lead, part, behind, ⟨?_, ?_, ?_⟩, ?_, ?_⟩
  · rw [htext, hpart.text_eq]
    simp only [List.append_assoc]
  · refine ⟨item.lexeme, mid.map Scanned.bare, ?_, fun more hmore => hpart.scans (.inl rfl) hmore⟩
    rw [← lexemes_of_bare rfl, hlexeme]
    exact .token hrun
  · rw [hbehind, hpart.rest_eq]
    exact ⟨blocks, hrest⟩
  · rw [← hspan, hstart]
  · rw [← hend, hpart.stop_eq, hbehind]

-- The padding between the last of some tokens and the one that comes next on their line.
theorem Cutting.exists_padding {source : String} {b : Nat} {ts : List Token} {after : List Located}
    {next : Located} {front part behind : List Char}
    (h : Cutting source b ts (next :: after) front part behind) (hclosed : ts.foldl Token.after b = 0) : ∃ pad more, behind = pad ++ more ∧ Padding more pad
      ∧ next.span.start = utf8Length (front ++ part ++ pad) := by
  obtain ⟨blocks, hrest⟩ := h.rest_eq
  rw [hclosed] at hrest
  have hnext := Layout.start_next hrest
  have hparts := List.take_append_drop (paddingLength false behind) behind
  refine ⟨_, _, hparts.symm, padding_take behind, ?_⟩
  rw [hnext]
  cases hdrop : behind.drop (paddingLength false behind) with
  | nil =>
    rw [scanFrom_nil hdrop]
    have htake := List.take_append_drop (paddingLength false behind) behind
    rw [hdrop, List.append_nil] at htake
    rw [htake, ← h.source_eq, utf8Length_toList]
    rfl
  | cons c cs =>
    rw [scanFrom_cons hdrop, utf8Length_append (front ++ part)]
    rfl

end NoteCell
