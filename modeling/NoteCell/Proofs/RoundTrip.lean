import NoteCell.Proofs.Reading.Statements

/-!
Reading and writing as inverses. The canonical text of a cell that was read is read back as the same
cell, but for the places of its nodes.
-/
namespace NoteCell

-- Only what was built node by node is numbered as a cell is.
theorem Cell.placeless_of_bare {source source' : String} {c c' : Cell} (h : parse source = .ok c)
    (h' : parse source' = .ok c') (hb : c'.bare = c.bare) : c'.placeless = c.placeless := by
  obtain ⟨⟨body, rfl, hbody⟩, _⟩ := sound_of_parse h
  obtain ⟨⟨body', rfl, hbody'⟩, _⟩ := sound_of_parse h'
  rw [bare_ofBody, bare_ofBody] at hb
  exact placeless_ofBody_congr hb (fun s hs => (hbody s hs).nested) fun s hs => (hbody' s hs).nested

-- The limits for expressions, statements and brackets leave room for what writing adds. Only the
-- blocks that it opens for bodies on the line of their statement can be too many.
theorem Cell.fits_of_parse {source : String} {c : Cell} (h : parse source = .ok c)
    (hdepth : ∀ l ∈ c.lines, l.depth ≤ Layout.maxBlocks) :
    ∃ body, (Cell.mk body 0).bare = c.bare ∧ (Cell.mk body 0).Writable ∧ (Cell.mk body 0).Fits := by
  obtain ⟨⟨body, rfl, hbody⟩, _⟩ := sound_of_parse h
  have hbare : (Cell.mk body 0).bare = (ofBody body).bare := (bare_ofBody body).symm
  refine ⟨body, hbare, ⟨fun s hs => (hbody s hs).regular, fun s hs => (hbody s hs).lexable⟩,
    fun s hs => (hbody s hs).fits, fun l hl => ⟨?_, ?_⟩⟩
  · rw [lines_eq_of_bare hbare] at hl
    exact hdepth l hl
  · exact (shallow_lines (fun s hs => (hbody s hs).roomy) l hl).le

-- The round trip: writing a cell down loses nothing but the places of its nodes.
theorem parse_text_of_parse {source : String} {c : Cell} (h : parse source = .ok c)
    (hdepth : ∀ l ∈ c.lines, l.depth ≤ Layout.maxBlocks) :
    ∃ c', parse c.text = .ok c' ∧ c'.placeless = c.placeless := by
  obtain ⟨body, hbare, hwritable, hfits⟩ := Cell.fits_of_parse h hdepth
  have hread := hwritable.parse_text
  rw [Cell.text_eq_of_bare hbare] at hread
  cases hparse : parse c.text with
  | error e =>
    rw [hparse] at hread
    exact absurd hfits hread
  | ok c' =>
    rw [hparse] at hread
    exact ⟨c', rfl, Cell.placeless_of_bare h hparse (hread.2.trans hbare)⟩

-- A body on the line of its statement, a bare tuple, an attribute of an integer and a float.
theorem parse_text_of_parse_oneLine : ∃ c, parse "if x: y = 1 .real, 1e3" = .ok c
    ∧ (∀ l ∈ c.lines, l.depth ≤ Layout.maxBlocks)
    ∧ ∃ c', parse c.text = .ok c' ∧ c'.placeless = c.placeless := by
  have hdepth : (parse "if x: y = 1 .real, 1e3").toOption.any
      (fun c => decide (∀ l ∈ c.lines, l.depth ≤ Layout.maxBlocks)) = true := by decide +kernel
  cases hparse : parse "if x: y = 1 .real, 1e3" with
  | error e =>
    rw [hparse] at hdepth
    cases hdepth
  | ok c =>
    rw [hparse] at hdepth
    have hdepth := of_decide_eq_true hdepth
    exact ⟨c, rfl, hdepth, parse_text_of_parse hparse hdepth⟩

end NoteCell
