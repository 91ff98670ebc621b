import NoteCell.Proofs.Grammar.Consumed
import NoteCell.Proofs.Lexing.Appended
import NoteCell.Proofs.Lexing.Arranged
import NoteCell.Proofs.Lexing.Relocated
import NoteCell.Proofs.Reading.Cursor

/-!
The seam between two sources. Behind a source that ends its last line the tokens of another follow
as they are, only further on, and the blocks that are still open are closed in front of them.
-/
namespace NoteCell

/-! ### Moved tokens -/

def Span.shift (n : Nat) (s : Span) : Span := ⟨n + s.start, n + s.stop⟩

def Scanned.shift (n : Nat) (i : Scanned) : Scanned := { i with span := i.span.shift n }

def LexError.shift (n : Nat) (e : LexError) : LexError := { e with offset := n + e.offset }

def TokenStream.shift (n : Nat) (s : TokenStream) : TokenStream :=
  ⟨s.tokens.map (.move (.shift n)), s.error.map (.shift n)⟩

theorem TokenStream.shift_prepend (n : Nat) (ts : List Located) (s : TokenStream) :
    (s.prepend ts).shift n = (s.shift n).prepend (ts.map (.move (.shift n))) :=
  relocate_prepend (n + ·) ts s

theorem scanFrom_shift (n offset : Nat) (text : List Char) :
    scanFrom (n + offset) text = (scanFrom offset text).map (.shift n) := by
  induction offset, text using scanFrom.induct
  case case1 offset text hend => rw [scanFrom_nil hend, scanFrom_nil hend, List.map_nil]
  case case2 offset text lead c cs h piece start stop ih =>
    rw [scanFrom_cons h, scanFrom_cons h, List.map_cons, ← ih]
    simp only [Scanned.shift, Span.shift, Nat.add_assoc, lead, start, stop, piece]

namespace Layout

variable (n : Nat)

theorem dedents_shift (count offset : Nat) :
    dedents count (n + offset) = (dedents count offset).map (.move (.shift n)) :=
  dedents_relocate (n + ·) count offset

theorem relocates_shift (i : Scanned) : i.Relocates (n + ·) (i.shift n) := by
  refine ⟨rfl, rfl, ?_⟩
  have hlexeme : (i.shift n).lexeme = i.lexeme := rfl
  rw [hlexeme]
  cases i.lexeme with
  | token t => exact .token t
  | lineBreak => exact .lineBreak
  | fault f offset => exact .fault f (Nat.add_assoc n i.span.start offset)

theorem arrange_shift (stop : Nat) (s : State) (items : List Scanned) :
    arrange (n + stop) s (items.map (.shift n)) = (arrange stop s items).shift n :=
  arrange_relocate (List.forall₂_map_right_iff.mpr (List.forall₂_same.mpr fun i _ =>
    relocates_shift n i)) stop s

end Layout

/-! ### Open brackets -/

theorem Balanced.after_opening {o : Sign} (ho : o.opens) (b : Nat) : (Token.sign o).after b = b + 1 :=
  if_pos ho

theorem Balanced.after_closing {c : Sign} (hc : c.closes) (b : Nat) : (Token.sign c).after (b + 1) = b := by
  have hopens : c.opens = false := by cases c <;> first | rfl | exact absurd hc (by decide)
  simp [Token.after, hc, hopens]

theorem Balanced.foldl_after {ts : List Token} (h : Balanced ts) (b : Nat) :
    ts.foldl Token.after b = b := by
  induction h generalizing b
  case nil => rfl
  case plain t ts ht _ ih =>
    rw [List.foldl_cons, Token.after_plain ht, ih]
  case enclosed o c ts us ho hc _ _ ih ih' =>
    rw [List.foldl_cons, List.foldl_append, List.foldl_cons, after_opening ho, ih, after_closing hc, ih']

namespace Layout

theorem foldl_after_layout {ts : List Located} (h : ∀ t ∈ ts, t.token.isLayout) (b : Nat) :
    (ts.map (·.token)).foldl Token.after b = b := by
  refine Balanced.foldl_after ?_ b
  induction ts
  case nil => exact .nil
  case cons t ts ih =>
    obtain ⟨ht, hts⟩ := List.forall_mem_cons.mp h
    obtain ⟨kind, span⟩ := t
    refine .plain ?_ (ih hts)
    cases kind <;> first | rfl | cases ht

theorem eq_after {b b' offset : Nat} {t : Token} (h : bracketsAfter b t offset = .ok b') :
    b' = t.after b := by
  cases t
  case sign s =>
    rw [bracketsAfter] at h
    rw [Token.after]
    split at h
    case isTrue hopens =>
      split at h <;> cases h
      exact (if_pos hopens).symm
    case isFalse hopens =>
      rw [if_neg hopens]
      split at h <;> cases h
      case isTrue hcloses => exact (if_pos hcloses).symm
      case isFalse hcloses => exact (if_neg hcloses).symm
  all_goals exact (Except.ok.inj h).symm

/-! ### States between two sources -/

-- What lexemes lead to from a state, whatever stands behind them.
structure State.Leads (s next : State) (items : List Scanned) (ts : List Located) : Prop where
  arranged (stop : Nat) (rest : List Scanned) :
    arrange stop s (items ++ rest) = (arrange stop next rest).prepend ts
  brackets : next.brackets = (ts.map (·.token)).foldl Token.after s.brackets
  blocks : (∀ w ∈ s.blocks, 0 < w) → ∀ w ∈ next.blocks, 0 < w
  starts : ∀ t ∈ ts, ∃ i ∈ items, t.span.start = i.span.start
  wellCut : ∀ i ∈ items, ∀ f offset, i.lexeme ≠ .fault f offset

section

variable {stop : Nat} {s mid next : State} {item : Scanned} {items items' rest : List Scanned}
  {ts us : List Located} {t : Token}

theorem State.Leads.nil (s : State) : s.Leads s [] [] :=
  ⟨fun _ _ => rfl, rfl, id, nofun, nofun⟩

theorem State.Leads.trans (h : s.Leads mid items ts) (h' : mid.Leads next items' us) :
    s.Leads next (items ++ items') (ts ++ us) where
  arranged stop rest := by
    rw [List.append_assoc, h.arranged, h'.arranged]
    simp [TokenStream.prepend]
  brackets := by rw [List.map_append, List.foldl_append, ← h.brackets, h'.brackets]
  blocks hblocks := h'.blocks (h.blocks hblocks)
  starts t ht := by
    obtain ht | ht := List.mem_append.mp ht
    · obtain ⟨i, hi, hstart⟩ := h.starts t ht
      exact ⟨i, List.mem_append_left _ hi, hstart⟩
    · obtain ⟨i, hi, hstart⟩ := h'.starts t ht
      exact ⟨i, List.mem_append_right _ hi, hstart⟩
  wellCut i hi := (List.mem_append.mp hi).elim (h.wellCut i) (h'.wellCut i)

theorem indentTo_starts {blocks blocks' : List Nat} {width offset : Nat} {layout : List Located}
    (h : indentTo blocks width offset = .ok (layout, blocks')) :
    (∀ t ∈ layout, t.token.isLayout ∧ t.span.start = offset)
      ∧ ((∀ w ∈ blocks, 0 < w) → ∀ w ∈ blocks', 0 < w) := by
  rw [indentTo] at h
  dsimp only at h
  split at h
  case isTrue hdeeper =>
    split at h <;> cases h
    refine ⟨by simp [layoutToken, Token.isLayout], fun hblocks => ?_⟩
    exact List.forall_mem_cons.mpr ⟨by omega, hblocks⟩
  case isFalse =>
    split at h <;> cases h
    refine ⟨fun t ht => ?_, fun hblocks w hw => hblocks w ((List.dropWhile_suffix _).subset hw)⟩
    obtain rfl := List.eq_of_mem_replicate ht
    exact ⟨rfl, rfl⟩

theorem brackets_of_placeToken {lead : List Char} {span : Span}
    (h : placeToken s lead t span = .ok (ts, next)) :
    bracketsAfter s.brackets t span.start = .ok next.brackets := by
  unfold placeToken at h
  dsimp only at h
  split at h
  all_goals
    obtain ⟨laid, -, h⟩ := Grammar.of_bind_eq_ok h
    obtain ⟨brackets, hbrackets, h⟩ := Grammar.of_bind_eq_ok h
    cases h
    exact hbrackets

theorem leads_token (hitem : item.lexeme = .token t)
    (h : placeToken s item.lead t item.span = .ok (ts, next)) : s.Leads next [item] ts := by
  have harranged (stop : Nat) (rest : List Scanned) :
      arrange stop s (item :: rest) = (arrange stop next rest).prepend ts := by
    rw [arrange, hitem]
    simp only [h]
  have hbrackets := eq_after (brackets_of_placeToken h)
  obtain ⟨layout, blocks, brackets, rfl, hnext⟩ := placeToken_cases h
  -- Layout opens no brackets, stands where the token starts, and leaves blocks of some width.
  have hlayout : (∀ u ∈ layout, u.token.isLayout ∧ u.span.start = item.span.start)
      ∧ ((∀ w ∈ s.blocks, 0 < w) → ∀ w ∈ next.blocks, 0 < w) := by
    split at hnext
    case isTrue =>
      obtain ⟨hindent, rfl⟩ := hnext
      exact indentTo_starts hindent
    case isFalse =>
      obtain ⟨rfl, rfl⟩ := hnext
      exact ⟨List.forall_mem_nil _, id⟩
  refine ⟨harranged, ?_, hlayout.2, fun u hu => ⟨item, List.mem_singleton_self item, ?_⟩,
    by simp [hitem]⟩
  · rw [List.map_append, List.foldl_append, foldl_after_layout fun u hu => (hlayout.1 u hu).1]
    exact hbrackets
  · obtain hu | hu := List.mem_append.mp hu
    · exact (hlayout.1 u hu).2
    · rw [List.mem_singleton.mp hu]

theorem arrange_lineBreak (hitem : item.lexeme = .lineBreak) (rest : List Scanned) :
    arrange stop s (item :: rest) = if s.brackets = 0 then
      (arrange stop { s with atLineStart := true, lineHasTokens := false } rest).prepend
        (if s.lineHasTokens then [⟨.newline, item.span⟩] else [])
    else arrange stop s rest := by
  rw [arrange, hitem]
  dsimp only
  split
  case isTrue => split <;> rfl
  case isFalse => rfl

theorem leads_lineBreak (hitem : item.lexeme = .lineBreak) (hbrackets : s.brackets = 0) :
    s.Leads { s with atLineStart := true, lineHasTokens := false } [item]
      (if s.lineHasTokens then [⟨.newline, item.span⟩] else []) where
  arranged stop rest := by
    rw [List.singleton_append, arrange_lineBreak hitem, if_pos hbrackets]
  brackets := by split <;> rfl
  blocks := id
  starts := by split <;> simp
  wellCut := by simp [hitem]

theorem leads_joined (hitem : item.lexeme = .lineBreak) (hbrackets : s.brackets ≠ 0) :
    s.Leads s [item] [] where
  arranged stop rest := by
    rw [List.singleton_append, arrange_lineBreak hitem, if_neg hbrackets]
    rfl
  brackets := rfl
  blocks := id
  starts := nofun
  wellCut := by simp [hitem]

theorem exists_leads (h : (arrange stop s (items ++ rest)).error = none) :
    ∃ next ts, s.Leads next items ts := by
  induction items generalizing s
  case nil => exact ⟨s, [], .nil s⟩
  case cons item items ih =>
    -- One lexeme first, and the others from where it leads.
    have hcons {mid : State} {ts : List Located} (hlead : s.Leads mid [item] ts) :
        ∃ next ts, s.Leads next (item :: items) ts := by
      have harranged := hlead.arranged stop (items ++ rest)
      rw [List.singleton_append, ← List.cons_append] at harranged
      rw [harranged] at h
      obtain ⟨next, us, hrest⟩ := ih h
      exact ⟨next, ts ++ us, hlead.trans hrest⟩
    rw [List.cons_append] at h
    cases hitem : item.lexeme with
    | fault f at_ =>
      rw [arrange, hitem] at h
      cases h
    | lineBreak =>
      by_cases hbrackets : s.brackets = 0
      case pos => exact hcons (leads_lineBreak hitem hbrackets)
      case neg => exact hcons (leads_joined hitem hbrackets)
    | token t =>
      cases hplace : placeToken s item.lead t item.span with
      | error e =>
        rw [arrange, hitem] at h
        simp [hplace] at h
      | ok placed => exact hcons (leads_token hitem hplace)

theorem wellCut_of_arrange (h : (arrange stop s items).error = none) :
    ∀ i ∈ items, ∀ f offset, i.lexeme ≠ .fault f offset := by
  obtain ⟨next, ts, hleads⟩ := @exists_leads stop s items [] (by rwa [List.append_nil])
  exact hleads.wellCut

theorem isLayout_lineBreak (hitem : item.lexeme = .lineBreak) :
    ∀ t ∈ (arrange stop s [item]).tokens, t.token.isLayout := by
  rw [arrange, hitem]
  dsimp only
  split
  case isTrue =>
    split
    case isTrue => exact List.forall_mem_cons.mpr ⟨rfl, isLayout_finish⟩
    case isFalse => exact isLayout_finish
  case isFalse => exact isLayout_finish

-- Lexemes with all brackets closed, the last of them a line break, lead to the start of a line.
theorem leads_lineStart (herror : (arrange stop .initial items).error = none)
    (hlast : ∃ i ∈ items.getLast?, i.lexeme = .lineBreak)
    (hbalanced : Balanced ((arrange stop .initial items).tokens.map (·.token))) :
    ∃ blocks ts, State.initial.Leads (.lineStart blocks) items ts := by
  obtain ⟨last, hlast, hbreak⟩ := hlast
  obtain ⟨items, rfl⟩ := List.getLast?_eq_some_iff.mp hlast
  obtain ⟨mid, ts, hmid⟩ := exists_leads herror
  have hclosed := hbalanced.foldl_after 0
  have hlayout := foldl_after_layout (@isLayout_lineBreak stop mid last hbreak) mid.brackets
  rw [hmid.arranged, TokenStream.prepend, List.map_append, List.foldl_append] at hclosed
  have hbrackets : mid.brackets = 0 := by
    rw [← hlayout, hmid.brackets]
    exact hclosed
  have hnext := leads_lineBreak hbreak hbrackets
  rw [hbrackets] at hnext
  exact ⟨mid.blocks, _, hmid.trans hnext⟩

theorem indentTo_zero {blocks : List Nat} (hblocks : ∀ w ∈ blocks, 0 < w) (offset : Nat) :
    indentTo blocks 0 offset = .ok (dedents blocks.length offset, []) := by
  have hrest : blocks.dropWhile (0 < ·) = [] :=
    List.dropWhile_eq_nil_iff.mpr fun w hw => decide_eq_true (hblocks w hw)
  simp [indentTo, hrest]

-- What starts a line of its own closes the blocks around it, and goes on as at the start of a source.
theorem arrange_lineStart_initial {blocks : List Nat} (hblocks : ∀ w ∈ blocks, 0 < w)
    (hhead : ∃ t ∈ (arrange stop .initial items).tokens.head?, t.token ≠ .indent) :
    ∃ offset, arrange stop (.lineStart blocks) items
      = (arrange stop .initial items).prepend (dedents blocks.length offset) := by
  induction items
  case nil =>
    obtain ⟨t, ht, -⟩ := hhead
    cases ht
  case cons item rest ih =>
    cases hitem : item.lexeme with
    | fault f at_ =>
      obtain ⟨t, ht, -⟩ := hhead
      rw [arrange, hitem] at ht
      cases ht
    | lineBreak =>
      have hbreak (blocks : List Nat) :
          arrange stop (.lineStart blocks) (item :: rest) = arrange stop (.lineStart blocks) rest :=
        arrange_lineBreak hitem rest
      rw [show State.initial = .lineStart [] from rfl] at hhead ih ⊢
      rw [hbreak] at hhead ⊢
      rw [hbreak]
      exact ih hhead
    | token t =>
      have hplace (blocks : List Nat) : placeToken (.lineStart blocks) item.lead t item.span =
          (indentTo blocks (indentWidth 0 item.lead) item.span.start >>= fun indented =>
            bracketsAfter 0 t item.span.start >>= fun brackets =>
              .ok (indented.1 ++ [⟨t, item.span⟩], ⟨indented.2, brackets, false, true⟩)) := rfl
      have hinitial := hplace []
      rw [show State.initial = .lineStart [] from rfl, arrange, hitem] at hhead ⊢
      rw [arrange, hitem]
      dsimp only at hhead ⊢
      by_cases hwidth : indentWidth 0 item.lead = 0
      case pos =>
        rw [hplace, hwidth, indentTo_zero hblocks]
        rw [hplace, hwidth, @indentTo_zero [] (by simp)] at hhead ⊢
        cases hbrackets : bracketsAfter 0 t item.span.start with
        | error e =>
          obtain ⟨u, hu, -⟩ := hhead
          rw [hbrackets] at hu
          cases hu
        | ok b => exact ⟨item.span.start, by simp [TokenStream.prepend, dedents, bind, Except.bind]⟩
      case neg =>
        have hindent : indentTo [] (indentWidth 0 item.lead) item.span.start
            = .ok ([layoutToken .indent item.span.start], [indentWidth 0 item.lead]) :=
          if_pos (Nat.pos_of_ne_zero hwidth)
        obtain ⟨u, hu, hne⟩ := hhead
        rw [hplace, hindent] at hu
        cases hbrackets : bracketsAfter 0 t item.span.start with
        | error e =>
          rw [hbrackets] at hu
          cases hu
        | ok b =>
          rw [hbrackets] at hu
          cases hu
          exact (hne rfl).elim

end

end Layout

/-! ### Joined sources -/

-- A source that ends in a line feed, which belongs to its last lexeme. It does not when it is that of
-- a joined line.
def EndsInLineFeed (source : String) : Prop :=
  source.toList.getLast? = some '\n'
    ∧ ∃ i ∈ (scan source).getLast?, i.span.stop = source.utf8ByteSize

instance (source : String) : Decidable (EndsInLineFeed source) := inferInstanceAs (Decidable (_ ∧ _))

-- The end of a text, which joins a line with nothing.
def EndsJoined (text : List Char) : Prop :=
  ∃ before, text = before ++ ['\\', '\n'] ∨ text = before ++ ['\\', '\r', '\n']

theorem EndsJoined.append {text : List Char} (h : EndsJoined text) (front : List Char) :
    EndsJoined (front ++ text) := by
  obtain ⟨before, rfl | rfl⟩ := h
  · exact ⟨front ++ before, .inl (List.append_assoc ..).symm⟩
  · exact ⟨front ++ before, .inr (List.append_assoc ..).symm⟩

theorem Padding.endsJoined {lead : List Char} (h : Padding [] lead)
    (hlast : lead.getLast? = some '\n') : EndsJoined lead := by
  induction h
  case nil => cases hlast
  case blank c cs hc _ ih =>
    cases cs with
    | nil => obtain rfl | rfl | rfl := hc <;> cases hlast
    | cons d ds => exact (ih hlast).append [c]
  case comment cs hcs _ =>
    obtain hhash | hfeed := List.mem_cons.mp (List.mem_of_getLast? hlast)
    · cases hhash
    · cases hcs _ hfeed
  case joined lineBreak cs hbreak _ ih =>
    cases cs with
    | nil =>
      obtain rfl | rfl | rfl := hbreak
      · exact ⟨[], .inl rfl⟩
      · cases hlast
      · exact ⟨[], .inr rfl⟩
    | cons d ds =>
      rw [← List.cons_append, List.getLast?_append_of_ne_nil _ (List.cons_ne_nil d ds)] at hlast
      exact (ih hlast).append ('\\' :: lineBreak)

theorem Cut.ends_or_joined {offset : Nat} {text : List Char} {items : List Scanned}
    (h : Cut offset text items) (hlast : text.getLast? = some '\n') :
    (∃ i ∈ items.getLast?, i.span.stop = offset + utf8Length text) ∨ EndsJoined text := by
  induction h
  case done hlead => exact .inr (hlead.endsJoined hlast)
  case lexeme offset part rest item items _ hpart hspan _ hrest ih =>
    have hstop : item.span.stop + utf8Length rest
        = offset + utf8Length (item.lead ++ (part ++ rest)) := by
      rw [hspan, utf8Length_append, utf8Length_append]
      dsimp only
      omega
    cases rest with
    | nil =>
      have hitems : items = [] := by
        generalize hend : [] = text at hrest
        cases hrest with
        | done => rfl
        | lexeme _ hpart => simp [hpart] at hend
      subst hitems
      exact .inl ⟨item, rfl, hstop⟩
    | cons c cs =>
      rw [← List.append_assoc, List.getLast?_append_of_ne_nil _ (List.cons_ne_nil c cs)] at hlast
      obtain ⟨i, hi, hend⟩ | hjoined := ih hlast
      · refine .inl ⟨i, ?_, hend.trans hstop⟩
        cases items with
        | nil => cases hi
        | cons j items => rwa [List.getLast?_cons_cons]
      · rw [← List.append_assoc]
        exact .inr (hjoined.append _)

-- Whatever ends in a line feed, and not in a backslash before that, is such a source.
theorem endsInLineFeed_or_joined {source : String} (hlast : source.toList.getLast? = some '\n') :
    EndsInLineFeed source ∨ EndsJoined source.toList := by
  refine ((cut_scanFrom 0 source.toList).ends_or_joined hlast).imp_left fun ⟨i, hi, hstop⟩ => ?_
  rw [utf8Length_toList, Nat.zero_add] at hstop
  exact ⟨hlast, i, hi, hstop⟩

theorem Layout.InPlace.stop_le {start stop : Nat} {items : List Scanned}
    (h : InPlace start stop items) : ∀ i ∈ items, i.span.stop ≤ stop := by
  induction items generalizing start
  case nil => exact nofun
  case cons item rest ih => exact List.forall_mem_cons.mpr ⟨h.2.2.le, ih h.2.2⟩

theorem tokenize_append {s t : String} (hs : EndsInLineFeed s) (hes : (tokenize s).error = none)
    (hbalanced : Balanced ((tokenize s).tokens.map (·.token)))
    (het : (tokenize t).error = none)
    (hhead : ∃ u ∈ (tokenize t).tokens.head?, u.token ≠ .indent) :
    ∃ f : Span → Span, tokenize (s ++ t) = ⟨(tokenize s).tokens.map (.move f)
      ++ (tokenize t).tokens.map (.move (.shift s.utf8ByteSize)), none⟩ := by
  obtain ⟨hfeed, last, hlast, hstop⟩ := hs
  have hsize : utf8Length s.toList = s.utf8ByteSize := utf8Length_toList s
  have hends : EndsWith 0 s.toList last := ⟨hfeed, hlast, by rw [hstop, hsize, Nat.zero_add]⟩
  have hbreak := hends.lineBreak (Layout.wellCut_of_arrange hes)
  obtain ⟨blocks, ts, hleads⟩ := Layout.leads_lineStart hes ⟨last, hlast, hbreak⟩ hbalanced
  have hscan : scan (s ++ t) = scan s ++ (scan t).map (.shift s.utf8ByteSize) := by
    have hshift := scanFrom_shift s.utf8ByteSize 0 t.toList
    rw [Nat.add_zero] at hshift
    rw [scan, String.toList_append, scanFrom_append hleads.wellCut fun _ => hends, hsize,
      Nat.zero_add, hshift]
    rfl
  have hblocks : ∀ w ∈ blocks, 0 < w := hleads.blocks (List.forall_mem_nil _)
  obtain ⟨offset, harrange⟩ := Layout.arrange_lineStart_initial hblocks hhead
  -- The blocks of the first source are closed where the other goes on, and not at its end.
  let f (span : Span) : Span :=
    if span = ⟨s.utf8ByteSize, s.utf8ByteSize⟩ then
      ⟨s.utf8ByteSize + offset, s.utf8ByteSize + offset⟩
    else span
  have hfirst : tokenize s = ⟨ts ++ Layout.dedents blocks.length s.utf8ByteSize, none⟩ := by
    have harranged := hleads.arranged s.utf8ByteSize []
    rw [List.append_nil] at harranged
    rw [tokenize, harranged]
    rfl
  have hbefore : ts.map (.move f) = ts := by
    refine (List.map_congr_left fun u hu => ?_).trans (List.map_id ts)
    obtain ⟨i, hi, hstart⟩ := hleads.starts u hu
    have hnonempty := (scan_lossless s).nonempty i hi
    have hinside := (Layout.inPlace_scanFrom 0 s.toList).stop_le i hi
    rw [hsize, Nat.zero_add] at hinside
    have hspan : u.span ≠ ⟨s.utf8ByteSize, s.utf8ByteSize⟩ := by
      intro hspan
      rw [hspan] at hstart
      dsimp only at hstart
      omega
    exact congrArg (Located.mk u.token) (if_neg hspan)
  have hclosed : (Layout.dedents blocks.length s.utf8ByteSize).map (.move f)
      = Layout.dedents blocks.length (s.utf8ByteSize + offset) := by
    rw [Layout.dedents, List.map_replicate, Layout.dedents, Layout.layoutToken, Located.move]
    exact congrArg _ (congrArg _ (if_pos rfl))
  refine ⟨f, ?_⟩
  rw [tokenize, hscan, hleads.arranged, String.utf8ByteSize_append, Layout.arrange_shift, harrange,
    TokenStream.shift_prepend, ← Layout.dedents_shift, hfirst, List.map_append, hbefore, hclosed]
  have hsecond : (Layout.arrange t.utf8ByteSize .initial (scan t)).shift s.utf8ByteSize
      = ⟨(tokenize t).tokens.map (.move (.shift s.utf8ByteSize)), none⟩ := by
    exact congrArg (TokenStream.mk _) (congrArg (Option.map _) het)
  rw [hsecond, List.append_assoc]
  rfl

end NoteCell
