import NoteCell.Proofs.RoundTrip
import NoteCell.Proofs.Session.Trees
import NoteCell.Proofs.Suspension.Insertion
import NoteCell.Proofs.Suspension.Text
import NoteCell.Proofs.Tree.Shape

/-!
A source that lacks no suspension points runs as its canonical text. Nobody outside can tell, but
for the place of a statement that has nothing to leave: it is that in the text.
-/
namespace NoteCell

/-! ### Stray statements -/

def Stray.report (s : Stray) (source : String) (offset : Nat) : String :=
  "SyntaxError: " ++ s.message ++ " (" ++ (Position.of source.toList offset).render ++ ")"

-- The first stray statement of a source and where it starts.
def Misplaced (source : String) (stray : Stray) (offset : Nat) : Prop :=
  ∃ c, parse source = .ok c ∧ c.stray? = some (stray, offset)

theorem runnable_of_stray {source : String} {c : Cell} {stray : Stray} {offset : Nat}
    (h : parse source = .ok c) (hs : c.stray? = some (stray, offset)) :
    runnable source = .error (stray.report source offset) := by
  rw [runnable, h]
  simp only [hs]
  rfl

theorem runnable_of_no_stray {source : String} {c : Cell} (h : parse source = .ok c)
    (hs : c.stray? = none) : runnable source = .ok c.body := by
  rw [runnable, h]
  simp only [hs]

theorem Cell.stray?_of_placeless {c c' : Cell} (h : c'.placeless = c.placeless) :
    c'.stray?.map Prod.fst = c.stray?.map Prod.fst :=
  stray?_of_mapInfo (congrArg body h)

/-! ### Texts -/

theorem withSuspensions_of_pending {p source : String} {c : Cell} (h : parse source = .ok c)
    (hp : c.pending p = []) : withSuspensions p source = c.text := by
  obtain ⟨t, ht, hbare⟩ : ∃ t, transform p source = .ok t ∧ t.bare = suspendedShape p c.bare :=
    transform_of_parse h
  rw [withSuspensions_of_transform ht]
  apply Cell.text_eq_of_bare
  rw [hbare, ← Cell.bare_suspend, Cell.suspend_eq hp]

namespace Session

/-! ### Cells that cannot be run -/

variable {s : Session} {fuel : Nat} {formatter : HeapFormatter} {cell : String}
  {answers : List String} {source : String}

-- A session when a cell has been refused.
def afterRefusal (s : Session) : Session :=
  { s with target := s.target.capture.1.close s.target.capture.2, inFlight := none }

theorem host?_of_runnable_error {message : String} (hidle : s.isBusy = false)
    (h : runnable source = .error message) : s.host? fuel formatter cell answers source
      = some ([.result cell (.failure message "" "")], s.afterRefusal) := by
  have hwrites : s.target.capture.1.writes s.target.capture.2.sink = [] := by
    simp [OutputTarget.capture, OutputTarget.writes]
  have hbegin : s.begin? formatter cell source
      = some ([.result cell (.failure message "" "")], s.afterRefusal) := by
    simp only [begin?, hidle, h]
    simp [conclude, Pipeline.finish, OutputTarget.stdout, OutputTarget.stderr, hwrites, textOf,
      afterRefusal]
  rw [host?, start?, hbegin]
  cases answers <;> rfl

theorem host?_of_busy (hbusy : s.isBusy = true) :
    s.host? fuel formatter cell answers source = none := by
  rw [host?, start?, begin?, if_pos hbusy]
  rfl

/-! ### Runs -/

-- Runs that nobody outside can tell apart: what is left differs in the places of nodes only.
structure Alike (r r' : List Notice × Session) : Prop where
  told : r'.1 = r.1
  session : r'.2.mapInfo NodeInfo.placeless = r.2.mapInfo NodeInfo.placeless
  global? : ∀ name, r'.2.global? name = r.2.global? name

theorem alike_of_mapTold {r r' : List Notice × Session}
    (h : mapTold NodeInfo.placeless r' = mapTold NodeInfo.placeless r) : Alike r r' := by
  obtain ⟨told, session⟩ := Prod.mk.inj h
  refine ⟨told, session, fun name => ?_⟩
  rw [← global?_mapInfo (f := NodeInfo.placeless) r'.2, session, global?_mapInfo]

theorem rel_of_map_eq {α β : Type} {R : α → α → Prop} {f : α → β} {o o' : Option α}
    (h : o'.map f = o.map f) (hR : ∀ a b, f b = f a → R a b) : Option.Rel R o o' := by
  cases o <;> cases o' <;> simp at h
  case none.none => exact .none
  case some.some a b => exact .some (hR a b h)

theorem mapTold_begin? {f : NodeInfo → NodeInfo} {source' : String} {body body' : List Stmt}
    (h : runnable source = .ok body) (h' : runnable source' = .ok body')
    (hbody : body'.map (Stmt.mapInfo f) = body.map (Stmt.mapInfo f)) :
    (s.begin? formatter cell source').map (mapTold f)
      = (s.begin? formatter cell source).map (mapTold f) := by
  simp only [begin?, h, h']
  split
  · rfl
  · simp [mapTold, mapInfo, InFlight.mapInfo, Machine.start, Machine.mapInfo, Control.mapInfo,
      Frame.mapInfo, hbody]

theorem mapTold_host? {f : NodeInfo → NodeInfo} (hf : formatter.Blind) {source' : String}
    (h : (s.begin? formatter cell source').map (mapTold f)
      = (s.begin? formatter cell source).map (mapTold f)) :
    (s.host? fuel formatter cell answers source').map (mapTold f)
      = (s.host? fuel formatter cell answers source).map (mapTold f) := by
  have key (source : String) : (s.host? fuel formatter cell answers source).map (mapTold f)
      = ((s.begin? formatter cell source).map (mapTold f)).map fun r =>
        converse fuel formatter answers (Prod.map (r.1 ++ ·) id (r.2.progress fuel formatter)) := by
    rw [host?, start?]
    rcases s.begin? formatter cell source with _ | ⟨told, s⟩
    · rfl
    · refine congrArg some ((mapInfo_converse hf fuel answers _).trans ?_)
      refine congrArg (converse fuel formatter answers) ?_
      exact congrArg (fun r => (told ++ r.1, r.2)) (mapInfo_progress s hf fuel)
  rw [key, key, h]

theorem alike_host? (hf : formatter.Blind) {source' : String} {body body' : List Stmt}
    (h : runnable source = .ok body) (h' : runnable source' = .ok body')
    (hbody : body'.map (Stmt.mapInfo NodeInfo.placeless)
      = body.map (Stmt.mapInfo NodeInfo.placeless)) :
    Option.Rel Alike (s.host? fuel formatter cell answers source)
      (s.host? fuel formatter cell answers source') :=
  rel_of_map_eq (mapTold_host? hf (mapTold_begin? h h' hbody)) fun _ _ => alike_of_mapTold

-- A source that lacks no suspension points and the text that is run in its place.
theorem host?_withSuspensions {primitive : String}
    (hpending : ∀ c, parse source = .ok c → c.pending primitive = [])
    (hdepth : ∀ c, parse source = .ok c → ∀ l ∈ c.lines, l.depth ≤ Layout.maxBlocks)
    (hf : formatter.Blind) (s : Session) (fuel : Nat) (cell : String) (answers : List String) :
    let text := withSuspensions primitive source
    let run := s.host? fuel formatter cell answers
    Option.Rel Alike (run source) (run text)
    ∨ ∃ stray offset offset', Misplaced source stray offset ∧ Misplaced text stray offset'
      ∧ run source
        = some ([.result cell (.failure (stray.report source offset) "" "")], s.afterRefusal)
      ∧ run text
        = some ([.result cell (.failure (stray.report text offset') "" "")], s.afterRefusal) := by
  intro text run
  cases hparse : parse source with
  | error e =>
    have htext : text = source := withSuspensions_of_error hparse
    rw [htext]
    exact .inl (rel_of_map_eq rfl fun _ _ h => alike_of_mapTold (congrArg (mapTold _) h))
  | ok c =>
    have htext : text = c.text := withSuspensions_of_pending hparse (hpending c hparse)
    obtain ⟨c', hparse', hplaceless⟩ := parse_text_of_parse hparse (hdepth c hparse)
    have hstray := Cell.stray?_of_placeless hplaceless
    rw [← htext] at hparse'
    cases hc : c.stray? with
    | none =>
      rw [hc, Option.map_none, Option.map_eq_none_iff] at hstray
      have hbody := congrArg Cell.body hplaceless
      exact .inl (alike_host? hf (runnable_of_no_stray hparse hc)
        (runnable_of_no_stray hparse' hstray) hbody)
    | some found =>
      obtain ⟨stray, offset⟩ := found
      rw [hc, Option.map_some, Option.map_eq_some_iff] at hstray
      obtain ⟨⟨_, offset'⟩, hc', rfl⟩ := hstray
      cases hidle : s.isBusy with
      | true =>
        refine .inl ?_
        have hrun (source : String) : run source = none := host?_of_busy hidle
        rw [hrun, hrun]
        exact .none
      | false =>
        exact .inr ⟨_, offset, offset', ⟨c, hparse, hc⟩, ⟨c', hparse', hc'⟩,
          host?_of_runnable_error hidle (runnable_of_stray hparse hc),
          host?_of_runnable_error hidle (runnable_of_stray hparse' hc')⟩

-- A body on the line of its function, blank lines and a comment.
theorem host?_withSuspensions_oneLine :
    (∀ c, parse "\n\ndef f(): return 1 # one\nf()" = .ok c → c.pending "input" = []
      ∧ (∀ l ∈ c.lines, l.depth ≤ Layout.maxBlocks) ∧ c.stray? = none)
    ∧ reprFormatter.Blind
    ∧ Option.Rel Alike
      ((new true).host? 100 reprFormatter "c" [] "\n\ndef f(): return 1 # one\nf()")
      ((new true).host? 100 reprFormatter "c" []
        (withSuspensions "input" "\n\ndef f(): return 1 # one\nf()")) := by
  have hcell : (parse "\n\ndef f(): return 1 # one\nf()").toOption.all (fun c =>
      decide (c.pending "input" = [] ∧ (∀ l ∈ c.lines, l.depth ≤ Layout.maxBlocks)
        ∧ c.stray? = none)) = true := by
    decide +kernel
  have hcell : ∀ c, parse "\n\ndef f(): return 1 # one\nf()" = .ok c → c.pending "input" = []
      ∧ (∀ l ∈ c.lines, l.depth ≤ Layout.maxBlocks) ∧ c.stray? = none := by
    intro c hc
    rw [hc] at hcell
    exact of_decide_eq_true hcell
  refine ⟨hcell, blind_reprFormatter, ?_⟩
  refine (host?_withSuspensions (fun c hc => (hcell c hc).1) (fun c hc => (hcell c hc).2.1)
    blind_reprFormatter (new true) 100 "c" []).resolve_right ?_
  rintro ⟨stray, offset, _, ⟨c, hc, hstray⟩, _⟩
  rw [(hcell c hc).2.2] at hstray
  cases hstray

-- The message of a cell that fails.
def failure? : Notice → Option String
  | .result _ (.failure message _ _) => some message
  | _ => none

-- The blank lines in front of a stray return are lost, and with them its line.
theorem host?_misplaced :
    (∀ c, parse "\n\nreturn" = .ok c → c.pending "input" = [])
    ∧ ((new true).host? 1 reprFormatter "c" [] "\n\nreturn").map (·.1.filterMap failure?)
      = some ["SyntaxError: 'return' outside function (line 3, column 1)"]
    ∧ ((new true).host? 1 reprFormatter "c" [] (withSuspensions "input" "\n\nreturn")).map
        (·.1.filterMap failure?)
      = some ["SyntaxError: 'return' outside function (line 1, column 1)"] := by
  have hpending : (parse "\n\nreturn").toOption.all
      (fun c => decide (c.pending "input" = [])) = true := by
    decide +kernel
  refine ⟨fun c hc => ?_, by decide +kernel, by decide +kernel⟩
  rw [hc] at hpending
  exact of_decide_eq_true hpending

end Session
end NoteCell
