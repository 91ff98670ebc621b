import NoteCell.Proofs.Grammar.Derivations
import NoteCell.Proofs.Lexing.Seam
import NoteCell.Proofs.Tree.Numbered

/-!
Moved derivations. What derives some tokens derives them at other places as well, and what its actions
build then is the same but for the places.
-/
namespace NoteCell.Grammar

variable (f : Span → Span)

/-! ### Tokens at other places -/

def Name.move (n : Name) : Name := ⟨n.text, f n.span⟩

def Link.move {family : Family} (l : Link family) : Link family :=
  ⟨l.token.move f, l.joint, l.joint_eq⟩

def Comparator.move (c : Comparator) : Comparator where
  op := c.op
  words := c.words.map (.move f)
  spelled := by
    rw [List.map_map]
    exact c.spelled

def Derivation.move : {s : Symbol} → Derivation s → Derivation s
  | _, conditional body if_ test else_ orelse =>
    .conditional body.move (f if_) test.move (f else_) orelse.move
  | _, unconditional e => .unconditional e.move
  | _, joined left link right => .joined left.move (link.move f) right.move
  | _, single e => .single e.move
  | _, not not_ e => .not (f not_) e.move
  | _, affirmed e => .affirmed e.move
  | _, compared left op right rest => .compared left.move (op.move f) right.move rest.move
  | _, uncompared e => .uncompared e.move
  | _, noComparisons => .noComparisons
  | _, comparison op right rest => .comparison (op.move f) right.move rest.move
  | _, minus sign e => .minus (f sign) e.move
  | _, plus sign e => .plus (f sign) e.move
  | _, unsigned e => .unsigned e.move
  | _, power base op exponent => .power base.move (f op) exponent.move
  | _, unraised e => .unraised e.move
  | _, await await_ e => .await (f await_) e.move
  | _, unawaited e => .unawaited e.move
  | _, member value dot attr => .member value.move (f dot) (attr.move f)
  | _, call func opening args closing => .call func.move (f opening) args.move (f closing)
  | _, subscript value opening index closing =>
    .subscript value.move (f opening) index.move (f closing)
  | _, plain e => .plain e.move
  | _, positional e => .positional e.move
  | _, keyword target assign value => .keyword target.move (f assign) value.move
  | _, name n => .name (n.move f)
  | _, int value span => .int value (f span)
  | _, float value span => .float value (f span)
  | _, strings first rest => .strings (first.map id f) (rest.map (Prod.map id f))
  | _, true_ span => .true_ (f span)
  | _, false_ span => .false_ (f span)
  | _, none_ span => .none_ (f span)
  | _, enclosed opening e closing => .enclosed (f opening) e.move (f closing)
  | _, unit opening closing => .unit (f opening) (f closing)
  | _, tuple opening first comma rest closing =>
    .tuple (f opening) first.move (f comma) rest.move (f closing)
  | _, list opening items closing => .list (f opening) items.move (f closing)
  | _, dict opening entries closing => .dict (f opening) entries.move (f closing)
  | _, entry key colon value => .entry key.move (f colon) value.move
  | _, required n => .required (n.move f)
  | _, optional n assign default => .optional (n.move f) (f assign) default.move
  | _, noItems => .noItems
  | _, lastItem e => .lastItem e.move
  | _, item e comma rest => .item e.move (f comma) rest.move

section

variable {f}

@[simp] theorem move_word (k : Keyword) (span : Span) : (word k span).move f = word k (f span) := rfl

@[simp] theorem move_sign (s : Sign) (span : Span) : (sign s span).move f = sign s (f span) := rfl

@[simp] theorem Name.token_move (n : Name) : (n.move f).token = n.token.move f := rfl

@[simp] theorem Link.token_move {family : Family} (l : Link family) :
    (l.move f).token = l.token.move f := rfl

@[simp] theorem Comparator.words_move (c : Comparator) : (c.move f).words = c.words.map (.move f) := rfl

end

@[simp] theorem Derivation.tokens_move {s : Symbol} (d : Derivation s) :
    (d.move f).tokens = d.tokens.map (.move f) := by
  induction d
  case int | float => rfl
  case strings first rest =>
    rw [move, tokens, tokens, List.map_cons, List.map_map, List.map_map]
    rfl
  all_goals simp only [move, tokens, List.map_append, List.map_cons, List.map_nil, move_word,
    move_sign, Name.token_move, Link.token_move, Comparator.words_move, *]

/-! ### Simple statements at other places -/

def TestList.move : TestList → TestList
  | single e => .single (e.move f)
  | tuple first comma rest => .tuple (first.move f) (f comma) (rest.move f)

@[simp] theorem TestList.tokens_move (t : TestList) : (t.move f).tokens = t.tokens.map (.move f) := by
  cases t <;> simp [move, tokens]

def AugOp.move (o : AugOp) : AugOp := ⟨o.token.move f, o.op, o.op_eq⟩

def DottedName.move (d : DottedName) : DottedName :=
  ⟨d.first.move f, d.rest.map (Prod.map f (.move f))⟩

def ImportAlias.move (a : ImportAlias) : ImportAlias :=
  ⟨a.name.move f, a.asname.map (Prod.map f (.move f))⟩

def ImportAliases.move (as : ImportAliases) : ImportAliases :=
  ⟨as.first.move f, as.rest.map (Prod.map f (.move f))⟩

def SmallStatement.move : SmallStatement → SmallStatement
  | assignment first rest => .assignment (first.move f) (rest.map (Prod.map f (.move f)))
  | augmented target op value => .augmented (target.move f) (op.move f) (value.move f)
  | pass span => .pass (f span)
  | breakLoop span => .breakLoop (f span)
  | continueLoop span => .continueLoop (f span)
  | ret span value => .ret (f span) (value.map (.move f))
  | raise span exc => .raise (f span) (exc.map (.move f))
  | imports span names => .imports (f span) (names.move f)
  | importFrom from_ path import_ names =>
    .importFrom (f from_) (path.move f) (f import_) (names.move f)

def SimpleStatements.move (s : SimpleStatements) : SimpleStatements :=
  ⟨s.first.move f, s.rest.map (Prod.map f (.move f)), s.semicolon.map f, f s.newline⟩

def ForTarget.move : ForTarget → ForTarget
  | single n => .single (n.move f)
  | tuple first comma second rest =>
    .tuple (first.move f) (f comma) (second.move f) (rest.map (Prod.map f (.move f)))

def StmtDerivation.move : {s : StmtSymbol} → StmtDerivation s → StmtDerivation s
  | _, simple s => .simple (s.move f)
  | _, compound s => .compound s.move
  | _, conditional if_ test colon body clauses orelse =>
    .conditional (f if_) (test.move f) (f colon) body.move clauses.move orelse.move
  | _, whileLoop while_ test colon body =>
    .whileLoop (f while_) (test.move f) (f colon) body.move
  | _, forLoop for_ target in_ iter colon body =>
    .forLoop (f for_) (target.move f) (f in_) (iter.move f) (f colon) body.move
  | _, define async_ def_ name opening params closing colon body =>
    .define (async_.map f) (f def_) (name.move f) (f opening) (params.move f) (f closing) (f colon)
      body.move
  | _, line s => .line (s.move f)
  | _, block newline indent first rest dedent =>
    .block (f newline) (f indent) first.move rest.move (f dedent)
  | _, noStatements => .noStatements
  | _, more first rest => .more first.move rest.move
  | _, noClauses => .noClauses
  | _, clause elif_ test colon body rest =>
    .clause (f elif_) (test.move f) (f colon) body.move rest.move
  | _, nothingElse => .nothingElse
  | _, otherwise else_ colon body => .otherwise (f else_) (f colon) body.move

@[simp] theorem DottedName.tokens_move (d : DottedName) :
    (d.move f).tokens = d.tokens.map (.move f) := by
  simp [move, tokens, List.flatMap_map, List.map_flatMap]

@[simp] theorem ImportAlias.tokens_move (a : ImportAlias) :
    (a.move f).tokens = a.tokens.map (.move f) := by
  cases hasname : a.asname <;> simp [move, tokens, hasname]

@[simp] theorem ImportAliases.tokens_move (as : ImportAliases) :
    (as.move f).tokens = as.tokens.map (.move f) := by
  simp [move, tokens, List.flatMap_map, List.map_flatMap]

@[simp] theorem AugOp.token_move (o : AugOp) : (o.move f).token = o.token.move f := rfl

@[simp] theorem SmallStatement.tokens_move (s : SmallStatement) :
    (s.move f).tokens = s.tokens.map (.move f) := by
  cases s
  case ret _ value => cases value <;> simp [move, tokens]
  case raise _ exc => cases exc <;> simp [move, tokens]
  all_goals simp [move, tokens, assignedTokens, List.flatMap_map, List.map_flatMap]

@[simp] theorem SimpleStatements.tokens_move (s : SimpleStatements) :
    (s.move f).tokens = s.tokens.map (.move f) := by
  have hending : (s.move f).ending = s.ending.map (.move f) := by
    rw [ending, ending, move]
    cases s.semicolon <;> rfl
  rw [tokens, hending]
  simp [move, tokens, smallTokens, List.flatMap_map, List.map_flatMap]

@[simp] theorem ForTarget.tokens_move (t : ForTarget) : (t.move f).tokens = t.tokens.map (.move f) := by
  cases t <;> simp [move, tokens, List.flatMap_map, List.map_flatMap]

@[simp] theorem StmtDerivation.tokens_move {s : StmtSymbol} (d : StmtDerivation s) :
    (d.move f).tokens = d.tokens.map (.move f) := by
  induction d
  case block => simp [move, Located.move, *]
  case define async_ _ _ _ _ _ _ _ hbody =>
    cases async_ <;> simp [move, hbody]
  all_goals simp [move, *]

end NoteCell.Grammar
