import NoteCell.Proofs.Printing.Words

/-!
Lines of printed statements. Their depths alone give back the layout: a line that is deeper than the
one before it opens a block, and the blocks that a shallower line leaves are closed before it.
-/
namespace NoteCell

-- The tokens of lines that stand behind a line with so many blocks open.
def lineTokens : Nat → List Line → List Token
  | blocks, [] => List.replicate blocks .dedent
  | blocks, l :: ls =>
    (if blocks < l.depth then [.indent] else List.replicate (blocks - l.depth) .dedent)
      ++ tokensOf l.words ++ .newline :: lineTokens l.depth ls

-- Lines none of which opens two blocks at once.
def Stepwise : Nat → List Line → Prop
  | _, [] => True
  | blocks, l :: ls => l.depth ≤ blocks + 1 ∧ Stepwise l.depth ls

-- Lines that start within the given number of blocks.
def StartsWithin (blocks : Nat) (ls : List Line) : Prop := ∀ l ∈ ls.head?, l.depth ≤ blocks

section

variable {d k : Nat} {ls : List Line}

theorem Stepwise.mono (h : Stepwise d ls) (hk : d ≤ k) : Stepwise k ls := by
  cases ls with
  | nil => trivial
  | cons l ls => exact ⟨Nat.le_trans h.1 (Nat.succ_le_succ hk), h.2⟩

theorem lineTokens_sameDepth (ws : List Word) (ls : List Line) :
    lineTokens d (⟨d, ws⟩ :: ls) = tokensOf ws ++ .newline :: lineTokens d ls := by
  rw [lineTokens, if_neg (Nat.lt_irrefl d), Nat.sub_self]
  rfl

theorem lineTokens_succ (h : StartsWithin d ls) :
    lineTokens (d + 1) ls = .dedent :: lineTokens d ls := by
  cases ls with
  | nil => rfl
  | cons l ls =>
    have hl : l.depth ≤ d := h l rfl
    rw [lineTokens, lineTokens, if_neg (by omega), if_neg (by omega),
      show d + 1 - l.depth = d - l.depth + 1 by omega, List.replicate_succ]
    rfl

end

-- What the lines of a statement behind its first one stand for.
structure StmtForm.LaidOut (form : StmtForm Stmt) : Prop where
  tokens (d : Nat) (rest : List Line) (h : StartsWithin d rest) :
    .newline :: lineTokens d (form.bodyLines d ++ rest) = form.restTokens ++ lineTokens d rest
  stepwise (d : Nat) (rest : List Line) (h : StartsWithin d rest) (hrest : Stepwise d rest) :
    Stepwise d (form.bodyLines d ++ rest)

section

variable {d : Nat} {rest : List Line}

theorem Stmt.startsWithin_blockLines (body : List Stmt) (h : StartsWithin d rest) :
    StartsWithin d (Stmt.blockLines d body ++ rest) := by
  cases body with
  | nil => exact h
  | cons s body =>
    cases s
    intro l hl
    cases hl
    exact Nat.le_refl d

theorem Stmt.lineTokens_lines {s : Stmt} (hs : s.form.LaidOut) (h : StartsWithin d rest) :
    lineTokens d (s.lines d ++ rest) = s.tokens ++ lineTokens d rest := by
  have htokens := hs.tokens d rest h
  obtain ⟨info, form⟩ := s
  rw [lines, List.cons_append, lineTokens_sameDepth, tokens, List.append_assoc]
  exact congrArg (tokensOf form.words ++ ·) htokens

theorem Stmt.lineTokens_blockLines {body : List Stmt} (hbody : ∀ s ∈ body, s.form.LaidOut)
    (h : StartsWithin d rest) :
    lineTokens d (Stmt.blockLines d body ++ rest) = Stmt.rowTokens body ++ lineTokens d rest := by
  induction body
  case nil => rfl
  case cons s body ih =>
    rw [blockLines, rowTokens, List.append_assoc, lineTokens_lines (hbody s List.mem_cons_self)
      (startsWithin_blockLines body h), ih fun t ht => hbody t (List.mem_cons_of_mem s ht),
      List.append_assoc]

-- A block is opened and closed again.
theorem Stmt.lineTokens_block {body : List Stmt} (hbody : ∀ s ∈ body, s.form.LaidOut)
    (hne : body ≠ []) (h : StartsWithin d rest) :
    .newline :: lineTokens d (Stmt.blockLines (d + 1) body ++ rest)
      = blockTokens (Stmt.rowTokens body) ++ lineTokens d rest := by
  have h' : StartsWithin (d + 1) rest := fun l hl => Nat.le_succ_of_le (h l hl)
  have hopen : lineTokens d (Stmt.blockLines (d + 1) body ++ rest)
      = .indent :: lineTokens (d + 1) (Stmt.blockLines (d + 1) body ++ rest) := by
    obtain ⟨⟨info, form⟩, body, rfl⟩ := List.exists_cons_of_ne_nil hne
    rw [blockLines, lines, List.cons_append, List.cons_append, lineTokens, lineTokens,
      if_pos (Nat.lt_succ_self d), if_neg (Nat.lt_irrefl _), Nat.sub_self]
    rfl
  rw [hopen, lineTokens_blockLines hbody h', lineTokens_succ h, blockTokens]
  simp

theorem Stmt.stepwise_blockLines {body : List Stmt} (hbody : ∀ s ∈ body, s.form.LaidOut)
    (h : StartsWithin d rest) (hrest : Stepwise d rest) {k : Nat} (hk : d ≤ k + 1) (hne : body ≠ []) :
    Stepwise k (Stmt.blockLines d body ++ rest) := by
  induction body generalizing k
  case nil => exact absurd rfl hne
  case cons s body ih =>
    have hs := (hbody s List.mem_cons_self).stepwise d (Stmt.blockLines d body ++ rest)
      (startsWithin_blockLines body h)
    obtain ⟨info, form⟩ := s
    rw [blockLines, List.append_assoc, lines, List.cons_append]
    refine ⟨hk, hs ?_⟩
    cases body with
    | nil => exact hrest
    | cons t body =>
      exact ih (fun u hu => hbody u (List.mem_cons_of_mem _ hu)) (Nat.le_succ d) (List.cons_ne_nil t body)

theorem Stmt.stepwise_block {body : List Stmt} (hbody : ∀ s ∈ body, s.form.LaidOut)
    (hne : body ≠ []) (h : StartsWithin d rest) (hrest : Stepwise d rest) :
    Stepwise d (Stmt.blockLines (d + 1) body ++ rest) :=
  stepwise_blockLines hbody (fun l hl => Nat.le_succ_of_le (h l hl)) (hrest.mono (Nat.le_succ d))
    (Nat.le_refl _) hne

end

-- The lines of the branches behind the first one.
theorem Stmt.elseLines_eq (orelse : List Stmt) (d : Nat) :
    (orelse = [] ∧ Stmt.elseLines d orelse = [])
      ∨ (∃ info test body orelse', orelse = [.node info (.ifElse test body orelse')]
        ∧ Stmt.elseLines d orelse
          = ⟨d, headWords .elif_ test⟩ :: (StmtForm.ifElse test body orelse').bodyLines d
        ∧ Stmt.elseTokens orelse
          = tokensOf (headWords .elif_ test) ++ (StmtForm.ifElse test body orelse').restTokens)
      ∨ (orelse ≠ [] ∧ Stmt.elseLines d orelse
          = ⟨d, [Word.tight (.word .else_), Word.tight (.sign .colon)]⟩
            :: Stmt.blockLines (d + 1) orelse
        ∧ Stmt.elseTokens orelse
          = .word .else_ :: .sign .colon :: blockTokens (Stmt.rowTokens orelse)) := by
  cases orelse using Stmt.elseTokens.fun_cases
  case case1 => exact .inl ⟨rfl, rfl⟩
  case case2 info test body orelse =>
    refine .inr (.inl ⟨info, test, body, orelse, rfl, rfl, ?_⟩)
    rw [elseTokens, StmtForm.restTokens, List.append_assoc]
  case case3 s rest hne =>
    refine .inr (.inr ⟨List.cons_ne_nil s rest, ?_, ?_⟩)
    · rw [elseLines.eq_3 _ _ _ hne]
      rfl
    · rw [elseTokens.eq_3 _ _ hne]
      rfl

theorem StmtForm.laidOut_ifElse {test : Expr} {body orelse : List Stmt}
    (hbody : ∀ s ∈ body, s.form.LaidOut) (hne : body ≠ []) (horelse : ∀ s ∈ orelse, s.form.LaidOut) :
    (StmtForm.ifElse test body orelse).LaidOut := by
  have helse (d : Nat) (rest : List Line) (h : StartsWithin d rest) :
      StartsWithin d (Stmt.elseLines d orelse ++ rest)
        ∧ lineTokens d (Stmt.elseLines d orelse ++ rest)
          = Stmt.elseTokens orelse ++ lineTokens d rest
        ∧ (Stepwise d rest → Stepwise d (Stmt.elseLines d orelse ++ rest)) := by
    have hd : d ≤ d + 1 := Nat.le_succ d
    obtain ⟨rfl, hlines⟩ | ⟨info, condition, branch, orelse', rfl, hlines, htokens⟩
      | ⟨hsome, hlines, htokens⟩ := Stmt.elseLines_eq orelse d
    · rw [hlines]
      exact ⟨h, rfl, id⟩
    · have hbranch : (ifElse condition branch orelse').LaidOut := horelse _ List.mem_cons_self
      rw [hlines, htokens]
      refine ⟨fun l hl => by cases hl; exact Nat.le_refl d, ?_,
        fun hrest => ⟨hd, hbranch.stepwise d rest h hrest⟩⟩
      rw [List.append_assoc, ← hbranch.tokens d rest h]
      exact lineTokens_sameDepth _ _
    · rw [hlines, htokens]
      refine ⟨fun l hl => by cases hl; exact Nat.le_refl d, ?_,
        fun hrest => ⟨hd, Stmt.stepwise_block horelse hsome h hrest⟩⟩
      rw [List.cons_append, List.cons_append, List.cons_append,
        ← Stmt.lineTokens_block horelse hsome h]
      exact lineTokens_sameDepth _ _
  constructor
  · intro d rest h
    have ⟨hstarts, htokens, _⟩ := helse d rest h
    rw [bodyLines, List.append_assoc, Stmt.lineTokens_block hbody hne hstarts, htokens, restTokens,
      List.append_assoc]
  · intro d rest h hrest
    have ⟨hstarts, _, hstep⟩ := helse d rest h
    rw [bodyLines, List.append_assoc]
    exact Stmt.stepwise_block hbody hne hstarts (hstep hrest)

theorem StmtForm.laidOut_block {form : StmtForm Stmt} {body : List Stmt}
    (hlines : ∀ d, form.bodyLines d = Stmt.blockLines (d + 1) body)
    (htokens : form.restTokens = blockTokens (Stmt.rowTokens body))
    (hbody : ∀ s ∈ body, s.form.LaidOut) (hne : body ≠ []) : form.LaidOut where
  tokens d rest h := by rw [hlines, htokens, Stmt.lineTokens_block hbody hne h]
  stepwise d rest h hrest := by
    rw [hlines]
    exact Stmt.stepwise_block hbody hne h hrest

theorem Stmt.Regular.laidOut {s : Stmt} (h : s.Regular) : s.form.LaidOut := by
  induction h
  case node info form here _ ih =>
    have hform := here.1
    cases form
    case ifElse test body orelse =>
      exact StmtForm.laidOut_ifElse (fun s hs => ih s (List.mem_append_left _ hs)) hform
        fun s hs => ih s (List.mem_append_right _ hs)
    case whileLoop | define => exact StmtForm.laidOut_block (fun _ => rfl) rfl ih hform
    case forEach => exact StmtForm.laidOut_block (fun _ => rfl) rfl ih hform.2
    all_goals exact ⟨fun _ _ _ => rfl, fun _ _ _ h => h⟩

-- The lines of a cell stand for the tokens of its statements.
theorem lineTokens_cell {body : List Stmt} (h : ∀ s ∈ body, s.Regular) :
    lineTokens 0 (Stmt.blockLines 0 body) = Stmt.rowTokens body
      ∧ Stepwise 0 (Stmt.blockLines 0 body) := by
  have hbody (s : Stmt) (hs : s ∈ body) : s.form.LaidOut := (h s hs).laidOut
  have hnil : StartsWithin 0 [] := nofun
  have htokens := Stmt.lineTokens_blockLines hbody hnil
  rw [List.append_nil] at htokens
  refine ⟨htokens.trans (List.append_nil _), ?_⟩
  rcases eq_or_ne body [] with rfl | hne
  · trivial
  · have hstep := Stmt.stepwise_blockLines (k := 0) hbody hnil trivial (Nat.zero_le _) hne
    rwa [List.append_nil] at hstep

/-! ### What holds of every line -/

-- The first lines that a statement can have, in its own place or as a further condition.
structure StmtForm.Heads (P : List Word → Prop) (form : StmtForm Stmt) : Prop where
  words : P form.words
  elif_ (test : Expr) (body orelse : List Stmt) (h : form = .ifElse test body orelse) :
    P (headWords .elif_ test)

section

variable {P : List Word → Prop} (helse : P [Word.tight (.word .else_), Word.tight (.sign .colon)])

theorem Stmt.forall_blockLines {body : List Stmt} (d : Nat)
    (h : ∀ s ∈ body, P s.form.words ∧ ∀ l ∈ s.form.bodyLines d, P l.words) :
    ∀ l ∈ Stmt.blockLines d body, P l.words := by
  induction body
  case nil => exact nofun
  case cons s body ih =>
    intro l hl
    have hs := h s List.mem_cons_self
    obtain ⟨info, form⟩ := s
    rw [blockLines, lines] at hl
    obtain hl | hl := List.mem_append.mp hl
    · obtain rfl | hl := List.mem_cons.mp hl
      · exact hs.1
      · exact hs.2 l hl
    · exact ih (fun t ht => h t (List.mem_cons_of_mem _ ht)) l hl

include helse

theorem Stmt.All.bodyLines {s : Stmt} (h : s.All fun _ form => form.Heads P) :
    ∀ d, ∀ l ∈ s.form.bodyLines d, P l.words := by
  induction h
  case node info form here below ih =>
    intro d
    have hblock (body : List Stmt) (hbody : ∀ s ∈ body, s ∈ form.stmts) :
        ∀ l ∈ Stmt.blockLines (d + 1) body, P l.words :=
      Stmt.forall_blockLines (d + 1) fun s hs => by
        have hs := hbody s hs
        have hform := below s hs
        exact ⟨by cases s; exact hform.root.words, ih s hs (d + 1)⟩
    cases form
    case ifElse test body orelse =>
      intro l hl
      obtain hl | hl := List.mem_append.mp hl
      · exact hblock body (fun s hs => List.mem_append_left _ hs) l hl
      · have horelse : ∀ s ∈ orelse, s ∈ (StmtForm.ifElse test body orelse).stmts :=
          fun s hs => List.mem_append_right _ hs
        obtain ⟨rfl, hlines⟩ | ⟨info, condition, branch, orelse', rfl, hlines, _⟩
          | ⟨_, hlines, _⟩ := Stmt.elseLines_eq orelse d
        · rw [hlines] at hl
          cases hl
        · have hmem := horelse _ List.mem_cons_self
          rw [hlines] at hl
          obtain rfl | hl := List.mem_cons.mp hl
          · exact (below _ hmem).root.elif_ condition branch orelse' rfl
          · exact ih _ hmem d l hl
        · rw [hlines] at hl
          obtain rfl | hl := List.mem_cons.mp hl
          · exact helse
          · exact hblock orelse horelse l hl
    case whileLoop | forEach | define => exact hblock _ fun s hs => hs
    all_goals exact nofun

theorem forall_lines {body : List Stmt} (h : ∀ s ∈ body, s.All fun _ form => form.Heads P) :
    ∀ l ∈ Stmt.blockLines 0 body, P l.words :=
  Stmt.forall_blockLines 0 fun s hs =>
    ⟨by have := h s hs; cases s; exact this.root.words, (h s hs).bodyLines helse 0⟩

end

theorem phrase_lines {body : List Stmt} (hreg : ∀ s ∈ body, s.Regular)
    (hlex : ∀ s ∈ body, s.Lexable) : ∀ l ∈ Stmt.blockLines 0 body, Phrase l.words := by
  have helse : Phrase [Word.tight (.word .else_)] := .single trivial rfl rfl
  refine forall_lines (helse.hugged (s := .colon) rfl rfl) fun s hs => ?_
  refine ((hreg s hs).and (hlex s hs)).imp fun _ form ⟨hr, hl⟩ => ⟨?_, fun test body orelse h => ?_⟩
  · exact StmtForm.phrase hl.1 hr.1 hl.2
  · exact phrase_headWords _ (hl.2 test (by simp [h, StmtForm.exprs]))

end NoteCell
