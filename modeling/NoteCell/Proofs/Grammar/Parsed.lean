import NoteCell.Proofs.Grammar.AcceptedStatements
import NoteCell.Proofs.Grammar.Brackets
import NoteCell.Proofs.Grammar.Placeless

/-!
The parser accepts exactly what the grammar derives, and answers with what the actions build. When
one source ends its last line, no statement goes on into a source behind it: the statements of the
two are those of the source that they make up.
-/
namespace NoteCell.Grammar

open NoteCell.Parser

-- Statements are only read up to the end of the source.
theorem error_of_statements {n : Nat} {c c' : Cursor} {ss : List Stmt}
    (h : statements n c = .ok (ss, c')) : c'.error = none := by
  induction n generalizing c ss with
  | zero => exact (of_misplaced h).elim
  | succ n ih =>
    rw [statements] at h
    obtain ⟨r, c₁, hr, h⟩ := Parser.of_bind h
    cases hr
    split at h
    · obtain ⟨-, rfl⟩ := of_pure h
      rfl
    · obtain ⟨_, c₂, -, h⟩ := Parser.of_bind h
      obtain ⟨_, c₃, hrest, h⟩ := Parser.of_bind h
      obtain ⟨-, rfl⟩ := of_pure h
      exact ih hrest

-- A cell that the actions of a derivation of its tokens build.
def Builds (ts : List Located) (cell : Cell) : Prop :=
  ∃ d : Program, d.tokens = ts ∧ ∃ body, d.act = .ok body ∧ cell = .ofBody body

theorem parseTokens_of_builds {s : TokenStream} {cell : Cell} (herror : s.error = none)
    (h : Builds s.tokens cell) : parseTokens s = .ok cell := by
  obtain ⟨d, htokens, body, hact, rfl⟩ := h
  let stop := (d.tokens.getLast?.map (·.span.stop)).getD 0
  have hc : (Cursor.ofStream s).Consumes d.tokens ⟨[], none, stop⟩ :=
    ⟨by rw [htokens, List.append_nil]; rfl, rfl, herror.symm⟩
  have hread : statements (parseFuel s.tokens.length) (.ofStream s)
      = .ok (body, ⟨[], none, stop⟩) :=
    statements_ok d hact hc rfl rfl
      (show 32 * s.tokens.length + 27 ≤ 32 * (s.tokens.length + 1) by omega)
  rw [parseTokens, StateT.run, hread]
  rfl

theorem of_parseTokens {s : TokenStream} {cell : Cell} (h : parseTokens s = .ok cell) :
    s.error = none ∧ Builds s.tokens cell := by
  rw [parseTokens, StateT.run] at h
  obtain ⟨⟨body, c'⟩, hread, heq⟩ := of_bind_eq_ok h
  cases heq
  obtain ⟨d, hact, hc, hend⟩ := of_statements hread
  have htokens : s.tokens = d.tokens := by
    have hrest := hc.rest
    rw [hend, List.append_nil] at hrest
    exact hrest
  exact ⟨hc.error.symm.trans (error_of_statements hread), d, htokens.symm, body, hact, rfl⟩

theorem parse_iff_builds (source : String) :
    (∀ cell, parse source = .ok cell
      ↔ (tokenize source).error = none ∧ Builds (tokenize source).tokens cell)
    ∧ ∀ d d' : Program, d.tokens = d'.tokens ↔ d = d' := by
  refine ⟨fun cell => ⟨of_parseTokens, ?_⟩, fun d d' => ⟨Program.eq, congrArg _⟩⟩
  rintro ⟨herror, hbuilds⟩
  exact parseTokens_of_builds herror hbuilds

end NoteCell.Grammar

namespace NoteCell

namespace Grammar

/-! ### Statements of two programs -/

def appendPrograms : Program → Program → Program
  | .noStatements, q => q
  | .more first rest, q => .more first (appendPrograms rest q)

theorem tokens_appendPrograms (p q : Program) : (appendPrograms p q).tokens = p.tokens ++ q.tokens := by
  match p with
  | .noStatements =>
    rw [appendPrograms]
    rfl
  | .more first rest =>
    rw [appendPrograms, StmtDerivation.tokens, tokens_appendPrograms rest q, StmtDerivation.tokens,
      List.append_assoc]

theorem act_appendPrograms (p q : Program) {ss us : List Stmt} (hp : p.act = .ok ss)
    (hq : q.act = .ok us) : (appendPrograms p q).act = .ok (ss ++ us) := by
  match p with
  | .noStatements =>
    cases hp
    rw [appendPrograms]
    exact hq
  | .more first rest =>
    rw [StmtDerivation.act] at hp
    obtain ⟨as, hfirst, hp⟩ := of_bind_eq_ok hp
    obtain ⟨bs, hrest, hp⟩ := of_bind_eq_ok hp
    cases hp
    rw [appendPrograms, StmtDerivation.act, hfirst, ok_bind, act_appendPrograms rest q hrest hq, ok_bind,
      List.append_assoc]
    rfl

theorem exists_head_of_act {p : Program} {ss : List Stmt} (h : p.act = .ok ss) (hne : ss ≠ []) :
    ∃ t ∈ p.tokens.head?, t.token ≠ .indent := by
  cases p with
  | noStatements =>
    cases h
    exact (hne rfl).elim
  | more first rest =>
    obtain ⟨t, us, htokens, hstarts⟩ := first.starts (.inl rfl)
    refine ⟨t, by rw [StmtDerivation.tokens, htokens]; rfl, ?_⟩
    intro hindent
    rw [hindent] at hstarts
    cases hstarts

end Grammar

theorem anonymous_placeless (ss : List Stmt) : (ss.map Stmt.placeless).map (Stmt.mapInfo .anonymous)
    = ss.map (Stmt.mapInfo .anonymous) := by
  rw [List.map_map]
  exact List.map_congr_left fun s _ => s.mapInfo_mapInfo

open Grammar

-- Ids and places apart, the body of two sources is that of the first and then that of the second.
theorem parse_append {s t : String} {cs ct : Cell} (hs : EndsInLineFeed s) (hcs : parse s = .ok cs)
    (hct : parse t = .ok ct) (hne : ct.body ≠ []) : ∃ c, parse (s ++ t) = .ok c
      ∧ c.body.map (Stmt.mapInfo .anonymous) = (cs.body ++ ct.body).map (Stmt.mapInfo .anonymous) := by
  obtain ⟨hes, d, hd, body, hact, rfl⟩ := of_parseTokens hcs
  obtain ⟨het, d', hd', body', hact', rfl⟩ := of_parseTokens hct
  have hbody' : body' ≠ [] := by
    rintro rfl
    exact hne rfl
  obtain ⟨f, htokens⟩ := tokenize_append hs hes (hd ▸ d.closes) het
    (hd' ▸ exists_head_of_act hact' hbody')
  obtain ⟨ss, hss, hplaceless⟩ := (hact ▸ d.act_move f).of_ok
  obtain ⟨us, hus, hplaceless'⟩ := (hact' ▸ d'.act_move (.shift s.utf8ByteSize)).of_ok
  refine ⟨.ofBody (ss ++ us), parseTokens_of_builds (by rw [htokens])
    ⟨appendPrograms (d.move f) (d'.move _), ?_, _, act_appendPrograms _ _ hss hus, rfl⟩, ?_⟩
  · rw [tokens_appendPrograms, StmtDerivation.tokens_move, StmtDerivation.tokens_move, hd, hd', htokens]
  · have hplaceless : ss.map Stmt.placeless = body.map Stmt.placeless := hplaceless
    have hplaceless' : us.map Stmt.placeless = body'.map Stmt.placeless := hplaceless'
    have hid (info : NodeInfo) (id : Nat) : (info.withId id).anonymous = info.anonymous := rfl
    rw [Cell.mapInfo_ofBody hid, List.map_append, List.map_append, Cell.mapInfo_ofBody hid,
      Cell.mapInfo_ofBody hid, ← anonymous_placeless ss, hplaceless, anonymous_placeless,
      ← anonymous_placeless us, hplaceless', anonymous_placeless]

end NoteCell
