import NoteCell.Proofs.Lexing.Arranged
import NoteCell.Proofs.Lexing.Known
import NoteCell.Proofs.Parsing.PrintedSimple
import NoteCell.Proofs.Parsing.PrintedStatement
import NoteCell.Proofs.Printing.Shape
import NoteCell.Proofs.Reading.Expressions
import NoteCell.Proofs.Tree.Numbered

/-!
Statements and cells as they are read and as they are written. Between two statements no bracket is
open. What is read from a source can be written down, and what is written down is read back as a cell
of the same shape, unless it goes beyond a limit.
-/
namespace NoteCell

open NoteCell.Parser

-- A statement that a source can have.
structure Stmt.Sound (s : Stmt) : Prop where
  regular : s.Regular
  lexable : s.Lexable
  nested : s.WellNested
  fits : s.Fits
  roomy : s.All fun _ form => form.Roomy (Layout.maxBrackets - 1)

-- A form over parts that have been read.
structure StmtForm.Read (form : StmtForm Stmt) : Prop where
  regular : form.Regular
  lexable : form.Lexable
  exprs : ∀ e ∈ form.exprs, e.Sound
  stmts : ∀ s ∈ form.stmts, s.Sound
  enclosed : ∀ e ∈ form.enclosed, e.Read 1

-- A parameter that has been read.
structure Param.Read (p : Param) : Prop where
  name : (Token.name p.name).Lexable
  default : ∀ e ∈ p.default?, e.Read 1

structure Alias.Sound (a : Alias) : Prop where
  regular : a.Regular
  lexable : a.Lexable

-- One or more statements that have been read.
structure ReadBlock (body : List Stmt) : Prop where
  ne_nil : body ≠ []
  sound : ∀ s ∈ body, s.Sound

structure Clause.Sound (c : Clause) : Prop where
  test : c.test.Sound
  body : ReadBlock c.body

theorem StmtForm.Read.ifElse {test : Expr} {body orelse : List Stmt} (htest : test.Sound) (hbody : ReadBlock body)
    (horelse : ∀ s ∈ orelse, s.Sound) : (StmtForm.ifElse test body orelse).Read where
  regular := hbody.ne_nil
  lexable := trivial
  exprs := by simpa [StmtForm.exprs] using htest
  stmts s hs := (List.mem_append.mp hs).elim (hbody.sound s) (horelse s)
  enclosed := nofun

theorem Token.isPlain_of_augmented? {t : Token} {op : BinaryOp} (h : t.augmented? = some op) :
    t.isPlain := by
  cases t
  case sign s => cases s <;> first | rfl | cases h
  all_goals rfl

namespace Keeps

variable {error : Option LexError} {n b at_ : Nat} {form : StmtForm Stmt} {location : Location}
  {follows : Option Token → Bool}

theorem makeStmtBefore (h : form.Read) :
    Keeps error b (makeStmtBefore follows form location) b Stmt.Sound := by
  have hnested := @Stmt.wellNested_build form location (fun e he => (h.exprs e he).nested)
    fun s hs => (h.stmts s hs).nested
  rw [Parser.makeStmtBefore]
  split
  case isTrue hle =>
    rw [hnested.nesting_eq] at hle
    refine .pure ⟨.node ⟨h.regular, fun e he => (h.exprs e he).regular⟩
        fun s hs => (h.stmts s hs).regular,
      .node ⟨h.lexable, fun e he => (h.exprs e he).lexable⟩ fun s hs => (h.stmts s hs).lexable,
      hnested,
      .node ⟨fun e he => (h.exprs e he).fits, hle⟩ fun s hs => (h.stmts s hs).fits,
      .node ⟨fun e he => (h.exprs e he).fits, fun e he => ?_⟩ fun s hs => (h.stmts s hs).roomy⟩
    have := (h.enclosed e he).roomy
    omega
  case isFalse => exact .refuse

theorem makeSimple (h : form.Read) : Keeps error b (makeSimple form at_) b Stmt.Sound :=
  .bind .stop fun _ _ => makeStmtBefore h

theorem makeCompound (h : form.Read) : Keeps error b (makeCompound form at_) b Stmt.Sound :=
  .bind .stop fun _ _ => makeStmtBefore h

/-! ### Simple statements -/

theorem exprList (n : Nat) : Keeps error b (exprList n) b fun r => r.1.Sound := by
  refine .bind .start fun at_ _ => .bind ((exprRules error n).expression b) fun first hfirst =>
    .ifAccept ?_ (.pure hfirst.toSound)
  refine .bind ((exprRules error n).elements b) fun rest hrest => ?_
  have hmake (at_ : Nat) : Keeps error b
      (do return (← Parser.makeExprBefore endsBareTuple (.tuple (first :: rest)) at_, true)) b
      fun r : Expr × Bool => r.1.Sound := by
    refine .bind (.makeExprBefore trivial trivial ?_) fun e he => .pure he.1
    exact List.forall_mem_cons.mpr ⟨hfirst.toSound, fun e he => (hrest e he).toSound⟩
  dsimp only
  split
  case isTrue => exact .bind .reachNext fun _ _ => hmake at_
  case isFalse => exact hmake at_

theorem assigned (n k : Nat) : Keeps error b (assigned n k) b fun es => ∀ e ∈ es, e.Sound := by
  induction k with
  | zero => exact .misplaced
  | succ k ih =>
    refine .ifAccept (.bind (exprList n) fun r hr => ?_) (.pure nofun)
    exact .bind ih fun es hes => .pure (List.forall_mem_cons.mpr ⟨hr, hes⟩)

theorem assignment {first : Expr} {rest : List Expr} (hfirst : first.Sound)
    (hrest : ∀ e ∈ rest, e.Sound) : Keeps error b (assignment first rest at_) b Stmt.Sound := by
  rw [Parser.assignment]
  split
  case h_1 => exact .makeSimple ⟨trivial, trivial, by simpa [StmtForm.exprs] using hfirst,
    List.forall_mem_nil _, List.forall_mem_nil _⟩
  case h_2 value hvalue =>
    dsimp only
    split
    case h_1 => exact .refuse
    case h_2 hplaces =>
      have htargets : ∀ t ∈ first :: rest.dropLast, t.unassignable? = none := fun t ht => by
        simpa using List.find?_eq_none.mp hplaces t ht
      refine .makeSimple ⟨⟨List.cons_ne_nil _ _, htargets⟩, trivial, ?_, List.forall_mem_nil _,
        List.forall_mem_nil _⟩
      refine List.forall_mem_cons.mpr ⟨hrest value (List.mem_of_getLast? hvalue),
        List.forall_mem_cons.mpr ⟨hfirst, fun e he => hrest e (List.mem_of_mem_dropLast he)⟩⟩

theorem exprStatement (n : Nat) : Keeps error b (exprStatement n) b Stmt.Sound := by
  refine .bind .start fun at_ _ => .bind (exprList n) fun (first, isBareTuple) hfirst => .peek fun t => ?_
  dsimp only
  split
  case h_1 op hop =>
    obtain ⟨t, rfl, ht⟩ : ∃ u, t = some u ∧ u.augmented? = some op := by
      split at hop
      · cases hop
      · exact Option.bind_eq_some_iff.mp hop
    refine .plain (Token.isPlain_of_augmented? ht) (.bind (exprList n) fun (value, _) hvalue => ?_)
    dsimp only
    split
    case isTrue hplace =>
      refine .makeSimple ⟨hplace, trivial, ?_, nofun, nofun⟩
      simpa [StmtForm.exprs] using ⟨hfirst, hvalue⟩
    case isFalse => exact .refuse
  case h_2 => exact .stay (.bind (assigned n n) fun rest hrest => .assignment hfirst hrest)

theorem dottedRest (n : Nat) :
    Keeps error b (dottedRest n) b fun path => ∀ s ∈ path, (Token.name s).Lexable := by
  induction n with
  | zero => exact .misplaced
  | succ n ih =>
    refine .ifAccept (.bind .identifier fun s hs => .bind ih fun path hpath => ?_) (.pure nofun)
    exact .pure (List.forall_mem_cons.mpr ⟨hs, hpath⟩)

theorem dottedName (n : Nat) : Keeps error b (dottedName n) b
    fun path => path ≠ [] ∧ ∀ s ∈ path, (Token.name s).Lexable :=
  .bind .identifier fun s hs => .bind (dottedRest n) fun path hpath =>
    .pure ⟨List.cons_ne_nil s path, List.forall_mem_cons.mpr ⟨hs, hpath⟩⟩

theorem alias_ (n : Nat) : Keeps error b (alias_ n) b Alias.Sound := by
  refine .bind (dottedName n) fun path hpath => .ifAccept ?_ (.pure ⟨hpath.1, hpath.2, nofun⟩)
  exact .bind .identifier fun s hs => .pure ⟨hpath.1, hpath.2, fun _ h => Option.mem_some.mp h ▸ hs⟩

theorem aliases (n : Nat) :
    Keeps error b (aliases n) b fun names => names ≠ [] ∧ ∀ a ∈ names, a.Sound := by
  induction n with
  | zero => exact .misplaced
  | succ n ih =>
    refine .bind (alias_ n) fun a ha => .ifAccept (.bind ih fun names hnames => ?_)
      (.pure ⟨List.cons_ne_nil a [], by simpa using ha⟩)
    exact .pure ⟨List.cons_ne_nil a names, List.forall_mem_cons.mpr ⟨ha, hnames.2⟩⟩

theorem simpleLeaf (hexprs : form.exprs = []) (hstmts : form.stmts = []) (hreg : form.Regular)
    (hlex : form.Lexable) : Keeps error b (Parser.makeSimple form at_) b Stmt.Sound := by
  have hnone : form.enclosed ⊆ [] := hexprs ▸ form.enclosed_subset
  exact makeSimple ⟨hreg, hlex, by simp [hexprs], by simp [hstmts], fun e he => nomatch hnone he⟩

theorem startsExpression : Keeps error b startsExpression b fun _ => True :=
  .peek fun _ => .stay (.pure trivial)

theorem small (n : Nat) : Keeps error b (small n) b Stmt.Sound := by
  refine .bind .start fun at_ _ => .peek fun t => ?_
  split
  case h_1 | h_2 | h_3 => exact .plain rfl (.simpleLeaf rfl rfl trivial trivial)
  case h_4 =>
    refine .plain rfl (.bind .startsExpression fun starts _ => ?_)
    split
    case isTrue =>
      refine .bind (exprList n) fun r hr => .makeSimple ⟨trivial, trivial, ?_, List.forall_mem_nil _,
        List.forall_mem_nil _⟩
      simpa [StmtForm.exprs] using hr
    case isFalse => exact .simpleLeaf rfl rfl trivial trivial
  case h_5 =>
    refine .plain rfl (.bind .startsExpression fun starts _ => ?_)
    split
    case isTrue =>
      refine .bind ((exprRules error n).expression b) fun e he =>
        .makeSimple ⟨trivial, trivial, ?_, List.forall_mem_nil _,
        List.forall_mem_nil _⟩
      simpa [StmtForm.exprs] using he.toSound
    case isFalse => exact .simpleLeaf rfl rfl trivial trivial
  case h_6 =>
    refine .plain rfl (.bind (aliases n) fun names hnames => .simpleLeaf rfl rfl
      ⟨hnames.1, fun a ha => (hnames.2 a ha).regular⟩ fun a ha => (hnames.2 a ha).lexable)
  case h_7 =>
    refine .plain rfl (.bind (dottedName n) fun path hpath => .bind .expect fun _ _ =>
      .bind (aliases n) fun names hnames => .simpleLeaf rfl rfl
        ⟨hpath.1, hnames.1, fun a ha => (hnames.2 a ha).regular⟩
        ⟨hpath.2, fun a ha => (hnames.2 a ha).lexable⟩)
  case h_8 => exact .stay (exprStatement n)

theorem smalls (n k : Nat) : Keeps error b (smalls n k) b ReadBlock := by
  induction k with
  | zero => exact .misplaced
  | succ k ih =>
    have hsingle {s : Stmt} (hs : s.Sound) : ReadBlock [s] := ⟨List.cons_ne_nil s [], by simpa using hs⟩
    refine .bind (small n) fun s hs => .ifAccept (.peek fun t => .stay ?_) (.pure (hsingle hs))
    split
    case isTrue => exact .pure (hsingle hs)
    case isFalse =>
      exact .bind ih fun ss hss =>
        .pure ⟨List.cons_ne_nil s ss, List.forall_mem_cons.mpr ⟨hs, hss.sound⟩⟩

theorem simple (n : Nat) : Keeps error b (simple n) b ReadBlock :=
  .bind (smalls n n) fun _ hss => .bind .expect fun _ _ => .pure hss

/-! ### Compound statements -/

theorem targetName : Keeps error b targetName b fun e => e.Sound ∧ e.IsName := by
  refine .bind .start fun at_ _ => .bind .identifier fun s hs => ?_
  exact .imp (.makeExprBefore trivial hs nofun) fun e he => ⟨he.1, s, he.2⟩

theorem targetNames (n : Nat) :
    Keeps error b (targetNames n) b fun es => es ≠ [] ∧ ∀ e ∈ es, e.Sound ∧ e.IsName := by
  induction n with
  | zero => exact .misplaced
  | succ n ih =>
    refine .bind targetName fun e he => .ifAccept (.bind ih fun es hes => ?_)
      (.pure ⟨List.cons_ne_nil e [], by simpa using he⟩)
    exact .pure ⟨List.cons_ne_nil e es, List.forall_mem_cons.mpr ⟨he, hes.2⟩⟩

theorem loopTarget (n : Nat) :
    Keeps error b (loopTarget n) b fun e => e.Sound ∧ e.IsLoopTarget := by
  refine .bind .start fun at_ _ => .bind (targetNames n) fun es hes => ?_
  match es, hes with
  | [], h => exact absurd rfl h.1
  | [e], h =>
    have he := h.2 e List.mem_cons_self
    exact .pure ⟨he.1, .inl he.2⟩
  | e :: d :: es, h =>
    refine .imp (.makeExprBefore trivial trivial fun c hc => (h.2 c hc).1) fun x hx => ?_
    exact ⟨hx.1, .inr ⟨e, d, es, hx.2, fun c hc => (h.2 c hc).2⟩⟩

theorem param (n : Nat) : Keeps error 1 (param n) 1 Param.Read := by
  refine .bind .identifier fun name hname => .ifAccept ?_ (.pure ⟨hname, nofun⟩)
  exact .bind ((exprRules error n).expression 1) fun e he =>
    .pure ⟨hname, fun _ h => Option.mem_some.mp h ▸ he⟩

theorem params (n : Nat) : Keeps error 1 (params n) 1 fun ps => ∀ p ∈ ps, p.Read := by
  induction n with
  | zero => exact .misplaced
  | succ n ih =>
    refine .peek fun t => .stay ?_
    split
    case h_1 =>
      refine .bind (param n) fun p hp => .ifAccept (.bind ih fun ps hps => ?_)
        (.pure (by simpa using hp))
      exact .pure (List.forall_mem_cons.mpr ⟨hp, hps⟩)
    case h_2 => exact .pure nofun

theorem chainClauses {orelse : List Stmt} (horelse : ∀ s ∈ orelse, s.Sound) {cs : List Clause}
    (hcs : ∀ c ∈ cs, c.Sound) :
    Keeps error b (chainClauses follows orelse cs) b fun ss => ∀ s ∈ ss, s.Sound := by
  induction cs with
  | nil => exact .pure horelse
  | cons c cs ih =>
    have hc := hcs c List.mem_cons_self
    refine .bind (ih fun d hd => hcs d (List.mem_cons_of_mem c hd)) fun rest hrest => ?_
    refine .bind (.makeStmtBefore (.ifElse hc.test hc.body hrest)) fun s hs => ?_
    exact .pure (by simpa using hs)

theorem openBlock : Keeps error b openBlock b fun _ => True := by
  refine .ifAccept (.pure trivial) (.peek fun t => .stay ?_)
  split
  case h_1 => exact fun _ _ _ _ h => nomatch h
  case h_2 => exact .misplaced

end Keeps

-- What the rules with so much fuel come to.
structure StmtRules (error : Option LexError) (n : Nat) : Prop where
  statement : Keeps error 0 (statement n) 0 ReadBlock
  conditional : Keeps error 0 (conditional n) 0 Stmt.Sound
  clauses : Keeps error 0 (clauses n) 0 fun cs => ∀ c ∈ cs, c.Sound
  whileLoop : Keeps error 0 (whileLoop n) 0 Stmt.Sound
  forLoop : Keeps error 0 (forLoop n) 0 Stmt.Sound
  definition : Keeps error 0 (definition n) 0 Stmt.Sound
  suite : Keeps error 0 (suite n) 0 ReadBlock
  block : Keeps error 0 (block n) 0 ReadBlock

namespace StmtRules

variable {error : Option LexError} {n : Nat} (h : StmtRules error n)

include h

theorem statement_succ : Keeps error 0 (Parser.statement (n + 1)) 0 ReadBlock := by
  rw [Parser.statement]
  have hsingle (s : Stmt) (hs : s.Sound) : Keeps error 0 (Pure.pure [s]) 0 ReadBlock :=
    .pure ⟨List.cons_ne_nil s [], by simpa using hs⟩
  refine .peek fun t => .stay ?_
  split
  case h_1 => exact .bind h.conditional hsingle
  case h_2 => exact .bind h.whileLoop hsingle
  case h_3 => exact .bind h.forLoop hsingle
  case h_4 | h_5 => exact .bind h.definition hsingle
  case h_6 => exact .simple n

theorem conditional_succ : Keeps error 0 (Parser.conditional (n + 1)) 0 Stmt.Sound := by
  rw [Parser.conditional]
  refine .bind .start fun at_ _ => .bind .expect fun _ _ =>
    .bind ((exprRules error n).expression 0) fun test htest => .bind .expect fun _ _ =>
    .bind h.suite fun body hbody => .bind h.clauses fun cs hcs => ?_
  have htail (orelse : List Stmt) (horelse : ∀ s ∈ orelse, s.Sound) : Keeps error 0
      (do
        let rest ← chainClauses endsCompound orelse cs
        makeCompound (.ifElse test body rest) at_) 0 Stmt.Sound :=
    .bind (.chainClauses horelse hcs) fun rest hrest =>
      .makeCompound (.ifElse htest.toSound hbody hrest)
  refine .ifAccept ?_ (htail [] (List.forall_mem_nil _))
  exact .bind .expect fun _ _ => .bind h.suite fun orelse horelse => htail orelse horelse.sound

theorem clauses_succ :
    Keeps error 0 (Parser.clauses (n + 1)) 0 fun cs => ∀ c ∈ cs, c.Sound := by
  rw [Parser.clauses]
  refine .bind .start fun at_ _ => .ifAccept ?_ (.pure (List.forall_mem_nil _))
  refine .bind ((exprRules error n).expression 0) fun test htest => .bind .expect fun _ _ =>
    .bind h.suite fun body hbody => .bind .stop fun stop _ => .bind h.clauses fun cs hcs => ?_
  exact .pure (List.forall_mem_cons.mpr ⟨⟨htest.toSound, hbody⟩, hcs⟩)

theorem whileLoop_succ : Keeps error 0 (Parser.whileLoop (n + 1)) 0 Stmt.Sound := by
  rw [Parser.whileLoop]
  refine .bind .start fun at_ _ => .bind .expect fun _ _ =>
    .bind ((exprRules error n).expression 0) fun test htest => .bind .expect fun _ _ =>
    .bind h.suite fun body hbody =>
    .makeCompound ⟨hbody.ne_nil, trivial, ?_, hbody.sound, List.forall_mem_nil _⟩
  simpa [StmtForm.exprs] using htest.toSound

theorem forLoop_succ : Keeps error 0 (Parser.forLoop (n + 1)) 0 Stmt.Sound := by
  rw [Parser.forLoop]
  refine .bind .start fun at_ _ => .bind .expect fun _ _ =>
    .bind (.loopTarget n) fun target htarget => .bind .expect fun _ _ =>
    .bind ((exprRules error n).expression 0) fun iter hiter => .bind .expect fun _ _ =>
    .bind h.suite fun body hbody =>
    .makeCompound ⟨⟨htarget.2, hbody.ne_nil⟩, trivial, ?_, hbody.sound, List.forall_mem_nil _⟩
  simpa [StmtForm.exprs] using ⟨hiter.toSound, htarget.1⟩

theorem definition_succ : Keeps error 0 (Parser.definition (n + 1)) 0 Stmt.Sound := by
  rw [Parser.definition]
  refine .bind .start fun at_ _ => .bind (.accept rfl) fun isAsync _ => .bind .expect fun _ _ =>
    .bind .identifier fun name hname => .bind .expect fun _ _ =>
    .bind (.params n) fun ps hps => .bind .expect fun _ _ => .bind .expect fun _ _ =>
    .bind h.suite fun body hbody => ?_
  have hdefaults : ∀ e ∈ ps.filterMap (·.default?), e.Read 1 := fun e he => by
    obtain ⟨p, hp, he⟩ := List.mem_filterMap.mp he
    exact (hps p hp).default e he
  exact .makeCompound ⟨hbody.ne_nil, ⟨hname, fun p hp => (hps p hp).name⟩,
    fun e he => (hdefaults e he).toSound, hbody.sound, hdefaults⟩

theorem suite_succ : Keeps error 0 (Parser.suite (n + 1)) 0 ReadBlock := by
  rw [Parser.suite]
  exact .ifAccept (.bind .openBlock fun _ _ => h.block) (.simple n)

theorem block_succ : Keeps error 0 (Parser.block (n + 1)) 0 ReadBlock := by
  rw [Parser.block]
  refine .bind h.statement fun first hfirst => .ifAccept (.pure hfirst) ?_
  refine .bind h.block fun rest hrest => .pure ⟨?_, fun s hs => ?_⟩
  · simp [hfirst.ne_nil]
  · exact (List.mem_append.mp hs).elim (hfirst.sound s) (hrest.sound s)

theorem succ : StmtRules error (n + 1) where
  statement := h.statement_succ
  conditional := h.conditional_succ
  clauses := h.clauses_succ
  whileLoop := h.whileLoop_succ
  forLoop := h.forLoop_succ
  definition := h.definition_succ
  suite := h.suite_succ
  block := h.block_succ

end StmtRules

theorem stmtRules (error : Option LexError) (n : Nat) : StmtRules error n := by
  induction n with
  | zero => constructor <;> exact .misplaced
  | succ n ih => exact ih.succ

-- Only tokens up to the end of the source are read as a cell.
theorem keeps_statements (error : Option LexError) (n : Nat) :
    Keeps error 0 (statements n) 0 fun ss => (∀ s ∈ ss, s.Sound) ∧ error = none := by
  induction n with
  | zero => exact .misplaced
  | succ n ih =>
    rw [statements]
    have hmore : Keeps error 0 (do
        let first ← statement n
        return first ++ (← statements n)) 0 fun ss => (∀ s ∈ ss, s.Sound) ∧ error = none :=
      .bind (stmtRules error n).statement fun first hfirst => .bind ih fun rest hrest =>
        .pure ⟨fun s hs => (List.mem_append.mp hs).elim (hfirst.sound s) (hrest.1 s), hrest.2⟩
    intro c ss c' hc hstep
    obtain ⟨rest, e, stop⟩ := c
    cases rest with
    | nil =>
      cases e with
      | none =>
        cases hstep
        exact ⟨⟨List.forall_mem_nil _, hc.error_eq.symm⟩, hc⟩
      | some e => exact hmore _ ss c' hc hstep
    | cons t rest => exact hmore _ ss c' hc hstep

/-! ### Cells -/

theorem sound_of_parse {source : String} {c : Cell} (h : parse source = .ok c) :
    (∃ body, c = .ofBody body ∧ ∀ s ∈ body, s.Sound) ∧ (tokenize source).error = none := by
  unfold parse parseTokens at h
  cases hrun : (statements (parseFuel (tokenize source).tokens.length)).run
    (.ofStream (tokenize source)) with
  | error e =>
    rw [hrun] at h
    cases h
  | ok r =>
    rw [hrun] at h
    cases h
    have ⟨hbody, hend⟩ := (keeps_statements _ _ _ _ _ (Cursor.sound_tokenize source) hrun).1
    exact ⟨⟨r.1, rfl, hbody⟩, hend⟩

namespace Cell

-- A cell that can be written down.
structure Writable (c : Cell) : Prop where
  regular : ∀ s ∈ c.body, s.Regular
  lexable : ∀ s ∈ c.body, s.Lexable

-- A cell within the limits for trees and, once it is written down, within those for lines.
structure Fits (c : Cell) : Prop where
  stmts : ∀ s ∈ c.body, s.Fits
  lines : ∀ l ∈ c.lines, l.Fits

theorem Fits.of_bare {c c' : Cell} (h : c.Fits) (hb : c'.bare = c.bare) : c'.Fits := by
  refine ⟨fun s' hs' => ?_, fun l hl => h.lines l (lines_eq_of_bare hb ▸ hl)⟩
  have hmem : s'.bare ∈ c.bare := hb ▸ List.mem_map_of_mem hs'
  obtain ⟨s, hs, hbare⟩ := List.mem_map.mp hmem
  exact (h.stmts s hs).of_bare hbare.symm

-- Whether a cell can be written down is a matter of its shape, so a cell that was read can be.
theorem writable_of_parse {source : String} {c : Cell} (h : parse source = .ok c) : c.Writable := by
  obtain ⟨⟨body, rfl, hbody⟩, _⟩ := sound_of_parse h
  have hsound {s : Stmt} (hs : s ∈ (ofBody body).body) : ∃ t : Stmt, t.Sound ∧ s.bare = t.bare := by
    have hmem : s.bare ∈ body.map Stmt.bare := bare_ofBody body ▸ List.mem_map_of_mem hs
    obtain ⟨t, ht, hbare⟩ := List.mem_map.mp hmem
    exact ⟨t, hbody t ht, hbare.symm⟩
  refine ⟨fun s hs => ?_, fun s hs => ?_⟩
  · obtain ⟨t, ht, hbare⟩ := hsound hs
    exact ht.regular.of_bare hbare
  · obtain ⟨t, ht, hbare⟩ := hsound hs
    exact ht.lexable.of_bare hbare

theorem Writable.read?_text {c : Cell} (h : c.Writable) :
    (tokenize c.text).read?
      = if ∀ l ∈ c.lines, l.Fits then some (Stmt.rowTokens c.body) else none := by
  have ⟨htokens, hstep⟩ := lineTokens_cell h.regular
  rw [← htokens]
  exact read?_tokenize_lines
    (fun l hl => .of_phrase (phrase_lines h.regular h.lexable l hl) (balanced_lines c.body l hl))
    hstep

-- Writing a cell down and reading it again.
theorem Writable.parse_text {c : Cell} (h : c.Writable) :
    match parse c.text with
    | .ok c' => c.Fits ∧ c'.bare = c.bare
    | .error _ => ¬ c.Fits := by
  have hread := h.read?_text
  split at hread
  case isTrue hlines =>
    obtain ⟨herror, htokens⟩ : (tokenize c.text).error = none
        ∧ (tokenize c.text).tokens.map (·.token) = Stmt.rowTokens c.body := by
      rw [TokenStream.read?] at hread
      split at hread
      case isTrue herror => exact ⟨herror, Option.some.inj hread⟩
      case isFalse => cases hread
    have hlength := congrArg List.length htokens
    rw [List.length_map] at hlength
    have hverdict := reads_statements h.regular (n := parseFuel (tokenize c.text).tokens.length)
      (c := .ofStream (tokenize c.text)) ⟨htokens, herror⟩ (by rw [parseFuel, hlength]; omega)
    rw [parse, parseTokens, StateT.run]
    cases hrun : statements (parseFuel (tokenize c.text).tokens.length)
      (.ofStream (tokenize c.text)) with
    | error e =>
      rw [hrun] at hverdict
      exact fun hfits => hverdict hfits.stmts
    | ok r =>
      rw [hrun] at hverdict
      obtain ⟨hstmts, hbody⟩ := hverdict
      refine ⟨⟨hstmts, hlines⟩, ?_⟩
      rw [bare_ofBody, bare]
      exact (StmtMirrors.rows hbody).1
  case isFalse hlines =>
    cases hparse : parse c.text with
    | error e => exact fun hfits => hlines hfits.lines
    | ok c' =>
      have hend := (sound_of_parse hparse).2
      rw [TokenStream.read?, if_pos hend] at hread
      cases hread

end Cell

end NoteCell
