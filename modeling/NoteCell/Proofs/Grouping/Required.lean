import NoteCell.Proofs.Grammar.Parsed
import NoteCell.Proofs.Grouping.Groups
import NoteCell.Proofs.Grouping.Least
import NoteCell.Proofs.Reading.Statements

/-!
Required brackets. Where a pair of brackets that group is taken away, the words that come together do not
run into each other, so the text has the same tokens but for the two brackets. It is one group short of
those that its tree needs, unless the brackets stand around an integer or a tuple.
-/
namespace NoteCell

open Segment Word Stand

/-! ### Rows of statements -/

namespace StmtForm

variable {form : StmtForm Stmt} {row : List Segment}

theorem seated_rows (h : row ∈ form.rows) : Seated none row := by
  cases form
  case ifElse test body orelse =>
    obtain rfl | h := List.mem_cons.mp h
    · exact seated_headSegments .if_ test rfl
    · exact List.mem_singleton.mp h ▸ seated_headSegments .elif_ test rfl
  all_goals exact List.mem_singleton.mp h ▸ seated_segments _

theorem exprs_of_rows (h : row ∈ form.rows) : ∀ p ∈ Segment.parts row, p.2 ∈ form.exprs := by
  intro p hp
  have hmem (hrow : row = form.segments) : p.2 ∈ form.exprs :=
    form.snd_parts (List.mem_map_of_mem (hrow ▸ hp : p ∈ Segment.parts form.segments))
  cases form
  case ifElse test body orelse =>
    obtain rfl | h := List.mem_cons.mp h
    · exact hmem rfl
    · obtain rfl := List.mem_singleton.mp h
      obtain rfl := List.mem_singleton.mp hp
      exact List.mem_cons_self
  all_goals exact hmem (List.mem_singleton.mp h)

end StmtForm

/-! ### Lines -/

-- A group in a line of a tree that can be written down.
structure Group.Proper (g : Group) : Prop where
  regular : g.inside.Regular
  lexable : g.inside.Lexable
  seated : g.Seated none
  phrase : Phrase g.words
  balanced : Balanced (tokensOf g.words)

theorem Cell.Grouping.proper {c : Cell} (hc : c.Writable) (p : c.Grouping) : p.group.Proper := by
  obtain ⟨s, hs, row, hrow, hgroup⟩ := p.owned
  obtain ⟨t, ht, hs⟩ := List.mem_flatMap.mp hs
  have hline : ⟨p.depth, p.group.words⟩ ∈ c.lines := p.lines_eq ▸ List.mem_append_right _ List.mem_cons_self
  have hregular := Stmt.All.of_mem_nodes (hc.regular t ht) hs
  have hlexable := Stmt.All.of_mem_nodes (hc.lexable t ht) hs
  have hparts := StmtForm.exprs_of_rows hrow
  obtain ⟨info, form⟩ := s
  exact {
    regular := hgroup.all_inside fun q hq => hregular.root.2 q.2 (hparts q hq)
    lexable := hgroup.all_inside fun q hq => hlexable.root.2 q.2 (hparts q hq)
    seated := hgroup.seated (StmtForm.seated_rows hrow)
    phrase := phrase_lines hc.regular hc.lexable _ hline
    balanced := balanced_lines c.body _ hline }

namespace Group

variable {g : Group}

theorem Proper.phrase_inside (h : g.Proper) : Phrase g.inside.form.words :=
  g.inside.words_loosest ▸ h.lexable.phrase Strength.tuple

theorem balanced_inside (g : Group) : Balanced (tokensOf g.inside.form.words) :=
  g.inside.words_loosest ▸ g.inside.balanced Strength.tuple

theorem tokensOf_words (g : Group) : tokensOf g.words = tokensOf g.before
    ++ .sign .lparen :: (tokensOf g.inside.form.words ++ .sign .rparen :: tokensOf g.after) := by
  simp [words]

theorem tokensOf_opened (g : Group) :
    tokensOf g.opened = tokensOf g.before ++ (tokensOf g.inside.form.words ++ tokensOf g.after) := by
  rw [opened, tokensOf_append, tokensOf_append]
  cases g.spaced <;> simp

theorem Proper.balanced_opened (h : g.Proper) : Balanced (tokensOf g.opened) := by
  have hbalanced := h.balanced
  rw [tokensOf_words] at hbalanced
  rw [tokensOf_opened]
  exact hbalanced.cut rfl rfl g.balanced_inside

theorem Proper.readable_before (h : g.Proper) : Readable g.before := h.phrase.readable.left

theorem Proper.readable_after (h : g.Proper) : Readable g.after :=
  h.phrase.readable.right.tail.right.tail

end Group

/-! ### Words that come together -/

section

variable {t : Token} {ws vs : List Word} {rest : List Char}

-- A whole number and the point behind it, when a name comes next.
theorem Token.reads_point (ht : t.Lexable) {name : String} (hname : (Token.name name).Lexable)
    (vs : List Word) : t.Reads ((tight (.sign .dot) :: tight (.name name) :: vs).flatMap Word.chars ++ rest) := by
  by_cases hint : ∃ n, t = .int n
  case neg =>
    have hparts : t.Parts (.sign .dot) := Token.parts_dot fun n hn => hint ⟨n, hn⟩
    exact Token.reads ht (Token.stops_word (w := tight (.sign .dot)) trivial (.inr hparts) _ rest)
  case pos =>
    obtain ⟨n, rfl⟩ := hint
    obtain ⟨⟨c, cs, htext, hc, -⟩, -⟩ := hname
    have hchars : (tight (.sign .dot) :: tight (.name name) :: vs).flatMap Word.chars ++ rest
        = '.' :: c :: (cs ++ (vs.flatMap Word.chars ++ rest)) := by
      simp [Word.chars, tight, Token.spelling, Sign.text, htext]
    rw [hchars]
    exact Token.reads_int_point ht hc _

-- What a part ends with is read from what may stand behind the part.
theorem Token.reads_trails (ht : t.Lexable) (hends : t.ends) (hws : Readable ws) (htrails : Trails ws)
    (hrest : EndsLine rest) : t.Reads (ws.flatMap Word.chars ++ rest) := by
  cases ws with
  | nil => exact Token.reads ht (hrest.stops t)
  | cons v vs =>
    have hv := hws.lexable v List.mem_cons_self
    obtain ⟨spaced, u⟩ := v
    cases spaced with
    | true => exact Token.reads ht (Token.stops_word hv (.inl rfl) vs rest)
    | false =>
      obtain hspaced | ⟨s, hs, rfl⟩ | ⟨name, us, rfl, rfl⟩ := htrails
      · cases hspaced
      · exact Token.reads ht (Token.stops_word hv (.inr (Token.parts_hugging hends hs)) vs rest)
      · exact Token.reads_point ht (hws.lexable (tight (.name name)) (by simp)) us

-- What a part may stand behind is read from what the part begins with.
theorem Token.reads_seat {spaced : Bool} (ht : t.Lexable) (hseats : Seats (some t) spaced)
    (hws : Phrase ws) :
    t.Reads ((if spaced then Word.shift ws else ws).flatMap Word.chars ++ rest) := by
  obtain ⟨w, us, rfl, -, hbegins⟩ := hws.starts
  have hw := hws.readable.lexable w List.mem_cons_self
  cases spaced with
  | true => exact Token.reads ht (Token.stops_word (w := apart w.token) hw (.inl rfl) us rest)
  | false =>
    obtain ⟨-, hspaced | ⟨s, hs, rfl⟩⟩ := hseats
    · cases hspaced
    · exact Token.reads ht (Token.stops_word hw (.inr (Token.parts_of_binds hs hw hbegins)) us rest)

end

namespace Group.Proper

variable {g : Group}

theorem read_opened (h : g.Proper) {rest : List Char} (hrest : EndsLine rest) :
    ReadOneByOne g.opened rest := by
  have hinside : ReadOneByOne g.inside.form.words (g.after.flatMap Word.chars ++ rest) := by
    refine h.phrase_inside.readable.readOneByOne fun w hw => ?_
    have hlexable := h.phrase_inside.readable.lexable w (List.mem_of_getLast? hw)
    have hends := h.phrase_inside.ends w.token (by rw [tokensOf, List.getLast?_map, hw]; rfl)
    exact Token.reads_trails hlexable hends h.readable_after h.seated.trails hrest
  refine .append (h.readable_before.readOneByOne fun w hw => ?_) (.append ?_ (h.readable_after.readLine hrest))
  · have hseats := h.seated.seats
    rw [tokensOf, List.getLast?_map, hw] at hseats
    rw [List.flatMap_append, List.append_assoc]
    exact Token.reads_seat (h.readable_before.lexable w (List.mem_of_getLast? hw)) hseats h.phrase_inside
  · cases g.spaced with
    | false => exact hinside
    | true => exact hinside.shift

theorem starts_opened (h : g.Proper) : ∃ w ws, g.opened = w :: ws ∧ w.spaced = false := by
  obtain ⟨before, spaced, e, after⟩ := g
  cases before with
  | nil =>
    obtain rfl : spaced = false := h.seated.seats
    obtain ⟨w, ws, hwords, hw, -⟩ := h.phrase_inside.starts
    exact ⟨w, ws ++ after, congrArg (· ++ after) hwords, hw⟩
  | cons w ws =>
    obtain ⟨v, vs, hwords, hv, -⟩ := h.phrase.starts
    obtain ⟨rfl, -⟩ := List.cons_eq_cons.mp hwords
    exact ⟨w, _, rfl, hv⟩

theorem legible_opened (h : g.Proper) (depth : Nat) : Line.Legible ⟨depth, g.opened⟩ :=
  ⟨h.starts_opened, h.read_opened, h.balanced_opened⟩

end Group.Proper

/-! ### Texts -/

theorem chars_lines (ls ls' : List Line) (l : Line) :
    List.intercalate ['\n'] ((ls ++ l :: ls').map Line.chars)
      = ls.flatMap (fun l => l.chars ++ ['\n']) ++ (l.chars ++ ls'.flatMap fun l => '\n' :: l.chars) := by
  induction ls with
  | nil =>
    induction ls' generalizing l with
    | nil => simp
    | cons l' ls' ih =>
      have hrest := ih l'
      simp only [List.nil_append, List.map_cons, List.flatMap_nil, List.intercalate_cons_cons] at hrest ⊢
      rw [hrest]
      simp
  | cons l' ls ih =>
    have hne : (ls ++ l :: ls').map Line.chars ≠ [] := by simp
    obtain ⟨first, rest, hcons⟩ := List.exists_cons_of_ne_nil hne
    rw [List.cons_append, List.map_cons, hcons, List.intercalate_cons_cons, ← hcons, ih]
    simp

theorem Stepwise.replace {k depth : Nat} {ls ls' : List Line} {ws : List Word} (vs : List Word)
    (h : Stepwise k (ls ++ ⟨depth, ws⟩ :: ls')) : Stepwise k (ls ++ ⟨depth, vs⟩ :: ls') := by
  induction ls generalizing k with
  | nil => exact h
  | cons l ls ih => exact ⟨h.1, ih h.2⟩

namespace Cell.Grouping

variable {c : Cell} (p : c.Grouping)

-- The text of the cell up to the opening bracket, between the two brackets, and behind them.
def before : List Char :=
  p.above.flatMap (fun l => l.chars ++ ['\n']) ++ (List.replicate (4 * p.depth) ' '
    ++ (p.group.before.flatMap Word.chars ++ if p.group.spaced then [' '] else []))

def inside : List Char := p.group.inside.form.words.flatMap Word.chars

def after : List Char := p.group.after.flatMap Word.chars ++ p.below.flatMap fun l => '\n' :: l.chars

-- The text and the lines without the two brackets.
def opened : List Char := p.before ++ (p.inside ++ p.after)

def openedLines : List Line := p.above ++ ⟨p.depth, p.group.opened⟩ :: p.below

theorem chars_eq : c.chars = p.before ++ '(' :: (p.inside ++ ')' :: p.after) := by
  rw [chars, p.lines_eq, chars_lines]
  simp only [before, inside, after, Line.chars, Group.words, List.flatMap_append, List.flatMap_cons, Word.chars,
    List.append_assoc]
  rfl

theorem opened_eq (hproper : p.group.Proper) :
    p.opened = List.intercalate ['\n'] (p.openedLines.map Line.chars) := by
  obtain ⟨w, ws, hwords, hw, -⟩ := hproper.phrase_inside.starts
  have hshift : (Word.shift p.group.inside.form.words).flatMap Word.chars = ' ' :: p.inside := by
    rw [inside, hwords, Word.shift, List.flatMap_cons, List.flatMap_cons, Word.chars, Word.chars, hw]
    rfl
  rw [openedLines, chars_lines, opened, before, after, Line.chars, Group.opened, List.flatMap_append, List.flatMap_append]
  cases p.group.spaced with
  | false => simp [inside]
  | true => simp [hshift]

-- The tokens of the text without the two brackets.
theorem read?_opened (hc : c.Writable) : (tokenize (String.ofList p.opened)).read?
    = if ∀ l ∈ p.openedLines, l.Fits then some (lineTokens 0 p.openedLines) else none := by
  have hproper := p.proper hc
  have hstep := (lineTokens_cell hc.regular).2
  change Stepwise 0 c.lines at hstep
  rw [p.lines_eq] at hstep
  rw [p.opened_eq hproper]
  refine read?_tokenize_lines (fun l hl => ?_) (hstep.replace _)
  have hlegible (hl : l ∈ c.lines) : l.Legible :=
    .of_phrase (phrase_lines hc.regular hc.lexable l hl) (balanced_lines c.body l hl)
  rw [p.lines_eq] at hlegible
  obtain hl | hl := List.mem_append.mp hl
  · exact hlegible (List.mem_append_left _ hl)
  · obtain rfl | hl := List.mem_cons.mp hl
    · exact hproper.legible_opened p.depth
    · exact hlegible (List.mem_append_right _ (List.mem_cons_of_mem _ hl))

end Cell.Grouping

/-! ### Tokens -/

theorem Stand.awaits_next {t : Token} (ht : t.awaits) (s : Stand) : (s.next t).behind.awaits := by
  obtain ⟨fs, b⟩ := s
  cases t
  case sign x => cases x <;> first | rfl | (cases b <;> rfl) | cases ht
  case word k => cases k <;> first | rfl | cases ht
  all_goals first | rfl | cases ht

theorem Stand.awaits_after {ts : List Token} {s : Stand} (hs : s.behind.awaits)
    (hts : ∀ t ∈ ts.getLast?, t.awaits) : (s.after ts).behind.awaits := by
  rcases List.eq_nil_or_concat ts with rfl | ⟨us, t, rfl⟩
  · exact hs
  · rw [List.concat_eq_append, after_append]
    exact awaits_next (hts t (by simp)) _

-- Without the brackets of a group there is one group less.
theorem Stand.groups_cut {xs ts ys : List Token} {n : Nat} (hxs : ∀ t ∈ xs.getLast?, t.awaits)
    (hts : Operand false ts n) :
    start.groups (xs ++ .sign .lparen :: (ts ++ .sign .rparen :: ys))
      = start.groups (xs ++ (ts ++ ys)) + 1 := by
  obtain ⟨fs, b, hafter, hawaits⟩ : ∃ fs b, start.after xs = ⟨fs, b⟩ ∧ b.awaits :=
    ⟨_, _, rfl, awaits_after rfl hxs⟩
  have hopened := hts fs b hawaits
  have hgroup := hts.group fs b hawaits
  have hbrackets : Token.sign .lparen :: (ts ++ .sign .rparen :: ys)
      = (.sign .lparen :: (ts ++ [.sign .rparen])) ++ ys := by simp
  rw [groups_append, groups_append, hafter, hbrackets, groups_append, groups_append, hgroup.after,
    hgroup.groups, hopened.after, hopened.groups]
  simp only [Behind.past, Bool.false_and, Bool.false_eq_true, if_false]
  omega

-- What stands around a line among the tokens of all lines.
theorem exists_lineTokens (k depth : Nat) (ls ls' : List Line) : ∃ pre post : List Token,
    (∀ t ∈ pre.getLast?, t.awaits)
      ∧ ∀ ws, lineTokens k (ls ++ ⟨depth, ws⟩ :: ls') = pre ++ (tokensOf ws ++ post) := by
  induction ls generalizing k with
  | nil =>
    refine ⟨if k < depth then [.indent] else List.replicate (k - depth) .dedent,
      .newline :: lineTokens depth ls', fun t ht => ?_, fun ws => List.append_assoc _ _ _⟩
    split at ht
    · cases ht
      rfl
    · rw [List.eq_of_mem_replicate (List.mem_of_getLast? ht)]
      rfl
  | cons l ls ih =>
    obtain ⟨pre, post, hpre, htokens⟩ := ih l.depth
    refine ⟨(if k < l.depth then [.indent] else List.replicate (k - l.depth) .dedent)
      ++ tokensOf l.words ++ .newline :: pre, post, fun t ht => ?_, fun ws => ?_⟩
    · rw [List.getLast?_append_of_ne_nil _ (List.cons_ne_nil _ _)] at ht
      cases pre with
      | nil =>
        cases ht
        rfl
      | cons u us => exact hpre t ht
    · rw [List.cons_append, lineTokens, htokens ws]
      simp

namespace Cell.Grouping

variable {c : Cell} (p : c.Grouping)

theorem groups_lines (hproper : p.group.Proper) (hint : ∀ n, p.group.inside.form ≠ .int n)
    (htuple : ∀ items, p.group.inside.form ≠ .tuple items) :
    start.groups (lineTokens 0 c.lines) = start.groups (lineTokens 0 p.openedLines) + 1 := by
  obtain ⟨pre, post, hpre, htokens⟩ := exists_lineTokens 0 p.depth p.above p.below
  have hstrength : p.group.inside.form.strength ≠ Strength.tuple := fun h => by
    obtain ⟨e, es, heq⟩ := ExprForm.eq_tuple_of_strength h
    exact htuple _ heq
  have hnumber : p.group.inside.form.isNumber = false := by
    cases hform : p.group.inside.form
    case int n => exact absurd hform (hint n)
    all_goals rfl
  have hinside : Operand false (tokensOf p.group.inside.form.words) p.group.inside.form.needs :=
    hnumber ▸ hproper.regular.operands.operand hstrength
  have hbefore : ∀ t ∈ (pre ++ tokensOf p.group.before).getLast?, t.awaits := by
    intro t ht
    rw [List.getLast?_append] at ht
    have hseats := hproper.seated.seats
    rw [Option.or_none] at hseats
    cases hlast : (tokensOf p.group.before).getLast? with
    | none =>
      rw [hlast] at ht
      exact hpre t ht
    | some u =>
      rw [hlast] at ht hseats
      cases ht
      exact hseats.1
  have hcut := @groups_cut _ _ (tokensOf p.group.after ++ post) _ hbefore hinside
  rw [p.lines_eq, openedLines, htokens, htokens, Group.tokensOf_words, Group.tokensOf_opened]
  simpa using hcut

end Cell.Grouping

-- Canonical tokens have exactly the groups that their tree needs.
theorem groups_rowTokens {body : List Stmt} (h : ∀ s ∈ body, s.Regular) :
    start.groups (Stmt.rowTokens body) = Stmt.rowNeeds body :=
  (areLines_body h).groups

-- Every text of a tree has the groups at least that its canonical lines have.
theorem groups_lines_le {source : String} {c c' : Cell} (h : parse source = .ok c)
    (hb : c.bare = c'.bare) :
    ∃ ts, (tokenize source).read? = some ts
      ∧ start.groups (lineTokens 0 c'.lines) ≤ start.groups ts := by
  obtain ⟨herror, d, htokens, body, hact, rfl⟩ := Grammar.of_parseTokens h
  refine ⟨Grammar.kinds d.tokens, ?_, ?_⟩
  · rw [TokenStream.read?, if_pos herror, ← htokens]
    rfl
  · have hbody : (Cell.ofBody body).bare = (Cell.mk body 0).bare := Cell.bare_ofBody body
    have hregular : ∀ s ∈ body, s.Regular := fun s hs => by
      have hmem : s.bare ∈ (Cell.ofBody body).bare := hbody ▸ List.mem_map_of_mem hs
      obtain ⟨t, ht, heq⟩ := List.mem_map.mp hmem
      exact ((Cell.writable_of_parse h).regular t ht).of_bare heq.symm
    have hlines : Stmt.blockLines 0 body = c'.lines := Cell.lines_eq_of_bare (hbody.symm.trans hb)
    rw [← hlines, (lineTokens_cell hregular).1, groups_rowTokens hregular]
    exact Grammar.rowNeeds_le_groups hact

-- Whoever takes away a pair of brackets that group anything but an integer or a tuple gets a text
-- that is not read or is read as another tree.
theorem bare_ne_of_opened {source : String} {c : Cell} (h : parse source = .ok c) (p : c.Grouping)
    (hint : ∀ n, p.group.inside.form ≠ .int n) (htuple : ∀ items, p.group.inside.form ≠ .tuple items) :
    c.text = String.ofList (p.before ++ '(' :: (p.inside ++ ')' :: p.after))
      ∧ ∀ c', parse (String.ofList (p.before ++ (p.inside ++ p.after))) = .ok c' → c'.bare ≠ c.bare := by
  refine ⟨congrArg String.ofList p.chars_eq, fun c' hparse hbare => ?_⟩
  have hwritable := Cell.writable_of_parse h
  obtain ⟨ts, hread, hle⟩ := groups_lines_le hparse hbare
  rw [← Cell.Grouping.opened, p.read?_opened hwritable] at hread
  split at hread
  case isFalse => cases hread
  case isTrue =>
    cases hread
    rw [p.groups_lines (p.proper hwritable) hint htuple] at hle
    exact Nat.not_succ_le_self _ hle

-- An integer has brackets before a point although it is read without them.
example : (parse "1.b").toOption.map Cell.text = some "(1).b" := by decide +kernel

-- A sum that is multiplied: without its brackets only one of its terms is.
theorem bare_ne_of_opened_sum : ∃ c, parse "(a + b) * c\n" = .ok c ∧ ∃ p : c.Grouping,
    String.ofList p.opened = "a + b * c" ∧ (∀ n, p.group.inside.form ≠ .int n)
      ∧ (∀ items, p.group.inside.form ≠ .tuple items)
      ∧ c.text = String.ofList (p.before ++ '(' :: (p.inside ++ ')' :: p.after))
      ∧ ∀ c', parse (String.ofList (p.before ++ (p.inside ++ p.after))) = .ok c' →
        c'.bare ≠ c.bare := by
  let sum : Expr := .node ⟨2, .between 1 6, 2⟩ (.binary .add
    (.node ⟨3, .between 1 2, 1⟩ (.name "a")) (.node ⟨4, .between 5 6, 1⟩ (.name "b")))
  let product : Expr := .node ⟨1, .between 0 11, 3⟩ (.binary .mul sum
    (.node ⟨5, .between 10 11, 1⟩ (.name "c")))
  let s : Stmt := .node ⟨0, .between 0 11, 4⟩ (.expr product)
  have hparse : parse "(a + b) * c\n" = .ok ⟨[s], 6⟩ := by cbv
  have hinner : HasGroup (product.segments Strength.test)
      ⟨[], false, sum, [.apart (.sign .star), .apart (.name "c")]⟩ :=
    @HasGroup.here [] [.text [.apart (.sign .star)], .part true (Strength.product + 1) _] false
      Strength.product sum (by decide)
  have hgroup : HasGroup s.form.segments
      ⟨[], false, sum, [.apart (.sign .star), .apart (.name "c")]⟩ :=
    @HasGroup.within [] [] false Strength.test product _ hinner
  let p : Cell.Grouping ⟨[s], 6⟩ := {
    above := []
    depth := 0
    group := ⟨[], false, sum, [.apart (.sign .star), .apart (.name "c")]⟩
    below := []
    lines_eq := rfl
    owned := ⟨s, by simp [Cell.nodes, s, Stmt.nodes], _, List.mem_cons_self, hgroup⟩ }
  have hint (n : Int64) : p.group.inside.form ≠ .int n := fun h => by cases h
  have htuple (items : List Expr) : p.group.inside.form ≠ .tuple items := fun h => by cases h
  exact ⟨_, hparse, p, by rfl, hint, htuple, bare_ne_of_opened hparse p hint htuple⟩

end NoteCell
