import NoteCell.Proofs.Output.Pipelines
import NoteCell.Proofs.Session.Cells

/-!
The cells of a session as jobs on its target. However long a cell waits and whatever is written
meanwhile, it comes to what a job with these writes comes to; one that is dropped is a job given up.
-/
namespace NoteCell

open NoteCell.Pipeline

def Notice.result? : Notice → Option (String × CellResult)
  | .result cell r => some (cell, r)
  | _ => none

namespace Session

-- The cell in flight was begun on a target, and this has been written since.
structure Underway (t : OutputTarget) (ws : List Write) (s : Session) : Prop where
  target : s.target = t.capture.1.writeAll ws
  capture : ∀ f ∈ s.inFlight, f.capture = t.capture.2

variable {s : Session} {t : OutputTarget} {ws : List Write} {f : InFlight} {m : Machine}
  {c : String} {formatter : HeapFormatter} {fuel : Nat} {cells : List String}

namespace Underway

theorem congr {s' : Session} (hs : Underway t ws s) (htarget : s'.target = s.target)
    (hinFlight : s'.inFlight = s.inFlight) : Underway t ws s' :=
  ⟨htarget.trans hs.target, hinFlight ▸ hs.capture⟩

theorem write (hs : Underway t ws s) (w : Write) : Underway t (ws ++ [w]) (s.write w) where
  target := by
    rw [OutputTarget.writeAll_append, ← hs.target]
    rfl
  capture := hs.capture

-- What the cell in flight comes to, when it has written some more: it is still in flight, or it has
-- ended as a job does.
inductive Goes (t : OutputTarget) (ws : List Write) (c : String) (formatter : HeapFormatter) :
    List Notice × Session → Prop where
  | on {told : List Notice} {s : Session} {f : InFlight} (hs : Underway t ws s)
    (hf : s.inFlight = some f) (hcell : f.cell = c) (htold : told.filterMap Notice.result? = []) :
    Goes t ws c formatter (told, s)
  | ended {told : List Notice} {s : Session} {r : CellResult} (evaluation : Evaluation Value)
    (hf : s.inFlight = none) (htold : told.filterMap Notice.result? = [(c, r)])
    (hresult : ((Job.mk c (formatter s.heap) ws (some evaluation)).run t).1 = some r)
    (htarget : s.target = ((Job.mk c (formatter s.heap) ws (some evaluation)).run t).2) :
    Goes t ws c formatter (told, s)

theorem conclude (htarget : s.target = t.capture.1.writeAll ws) (h : Heap)
    (evaluation : Evaluation Value) :
    Goes t ws c formatter (s.conclude formatter c t.capture.2 h evaluation) := by
  refine .ended (r := (Pipeline.finish (formatter h) c t.capture.2 s.target evaluation).1)
    evaluation rfl rfl ?_ ?_
  all_goals
    rw [htarget]
    rfl

theorem settle (htarget : s.target = t.capture.1.writeAll ws) :
    Goes t ws c formatter (s.settle formatter c t.capture.2 m) := by
  rw [Session.settle]
  split
  case h_1 => exact conclude htarget _ _
  case h_2 =>
    split
    · exact .on ⟨htarget, by simp⟩ rfl rfl rfl
    · exact conclude (by exact htarget) _ _
  case h_3 => exact .on ⟨htarget, by simp⟩ rfl rfl rfl

theorem Goes.tell {r : List Notice × Session} (h : Goes t ws c formatter r) {told : List Notice}
    (htold : told.filterMap Notice.result? = []) : Goes t ws c formatter (told ++ r.1, r.2) := by
  cases h
  case on hs hf hcell hmore => exact .on hs hf hcell (by simp [htold, hmore])
  case ended evaluation hf hmore hresult htarget =>
    exact .ended evaluation hf (by simp [htold, hmore]) hresult htarget

theorem advance (htarget : s.target = t.capture.1.writeAll ws) :
    ∃ more, Goes t (ws ++ more) c formatter (s.advance fuel formatter c t.capture.2 m) := by
  have hnotices (effects : List Effect) :
      (effects.filterMap Effect.notice?).filterMap Notice.result? = [] := by
    refine List.filterMap_eq_nil_iff.mpr fun n hn => ?_
    obtain ⟨effect, -, heffect⟩ := List.mem_filterMap.mp hn
    cases effect <;> cases heffect <;> rfl
  refine ⟨(m.run fuel).world.effects.reverse.filterMap Effect.write?,
    (settle ?_).tell (hnotices _)⟩
  rw [OutputTarget.writeAll_append, ← htarget]

theorem progress (hs : Underway t ws s) (hf : s.inFlight = some f) :
    ∃ more, Goes t (ws ++ more) f.cell formatter (s.progress fuel formatter) := by
  have hcapture := hs.capture f hf
  have hstill : Goes t (ws ++ []) f.cell formatter ([], s) :=
    .on (by rwa [List.append_nil]) hf rfl rfl
  rw [Session.progress, hf]
  simp only [hcapture]
  split
  · exact advance hs.target
  · split
    · exact ⟨[], hstill⟩
    · exact advance (by exact hs.target)

theorem drop (hs : Underway t ws s) (hf : s.inFlight = some f) (formatter : Formatter Value) :
    s.drop.target = ((Job.mk f.cell formatter ws none).run t).2 := by
  rw [Session.drop, hf]
  simp only [hs.capture f hf, hs.target]
  rfl

end Underway

-- A target that nothing is captured from, with what has been written to its root sink.
structure Plain (outside : List Write) (t : OutputTarget) : Prop where
  installed : t.installed = OutputTarget.root
  inside : OutputTarget.root < t.sinks.size
  writes : t.writes OutputTarget.root = outside

variable {outside : List Write}

theorem Plain.run {α : Type} (ht : Plain outside t) (j : Job α) : Plain outside (j.run t).2 where
  installed := (j.installed_run t).trans ht.installed
  inside := by
    rw [j.size_run]
    exact Nat.lt_succ_of_lt ht.inside
  writes := (j.writes_run t ht.inside).trans ht.writes

-- Between cells nothing is captured, and a cell in flight was begun when nothing was.
structure Homed (outside : List Write) (s : Session) : Prop where
  idle : s.inFlight = none → Plain outside s.target
  running : s.inFlight.isSome → ∃ t ws, Plain outside t ∧ Underway t ws s

theorem homed_of_plain (hidle : s.inFlight = none) (ht : Plain outside s.target) :
    Homed outside s where
  idle _ := ht
  running hf := by
    rw [hidle] at hf
    cases hf

theorem homed_of_underway (hf : s.inFlight.isSome) (ht : Plain outside t) (hs : Underway t ws s) :
    Homed outside s where
  idle hidle := by
    rw [hidle] at hf
    cases hf
  running _ := ⟨t, ws, ht, hs⟩

theorem homed_new (hasHost : Bool) : Homed [] (new hasHost) :=
  homed_of_plain rfl ⟨rfl, Nat.one_pos, rfl⟩

namespace Homed

-- No cell writes to the root sink.
theorem writes_root (hs : Homed outside s) : s.target.writes OutputTarget.root = outside := by
  cases hf : s.inFlight with
  | none => exact (hs.idle hf).writes
  | some f =>
    obtain ⟨t, ws, ht, hunder⟩ := hs.running (by rw [hf]; rfl)
    rw [hunder.target, OutputTarget.writes_beside_capture ht.inside, ht.writes]

theorem congr {s' : Session} (hs : Homed outside s) (htarget : s'.target = s.target)
    (hinFlight : s'.inFlight = s.inFlight) : Homed outside s' where
  idle hidle := htarget ▸ hs.idle (hinFlight ▸ hidle)
  running hf := by
    obtain ⟨t, ws, ht, hunder⟩ := hs.running (hinFlight ▸ hf)
    exact ⟨t, ws, ht, hunder.congr htarget hinFlight⟩

theorem of_goes {r : List Notice × Session} (h : Underway.Goes t ws c formatter r)
    (ht : Plain outside t) : Homed outside r.2 := by
  cases h
  case on hs hf _ _ => exact homed_of_underway (by rw [hf]; rfl) ht hs
  case ended evaluation hf _ _ htarget => exact homed_of_plain hf (htarget ▸ ht.run _)

theorem progress (hs : Homed outside s) : Homed outside (s.progress fuel formatter).2 := by
  cases hf : s.inFlight with
  | none =>
    rw [Session.progress, hf]
    exact hs
  | some f =>
    obtain ⟨t, ws, ht, hunder⟩ := hs.running (by rw [hf]; rfl)
    obtain ⟨more, hgoes⟩ := hunder.progress hf
    exact of_goes hgoes ht

theorem begin? {s' : Session} {told : List Notice} {source : String} (hs : Homed outside s)
    (hbegin : s.begin? formatter c source = some (told, s')) : Homed outside s' := by
  rw [Session.begin?] at hbegin
  split at hbegin
  · cases hbegin
  · have hidle : s.inFlight = none := by simpa [isBusy] using ‹¬s.isBusy = true›
    have ht := hs.idle hidle
    dsimp only at hbegin
    split at hbegin
    · rw [Option.some.injEq] at hbegin
      have hgoes : Underway.Goes s.target [] c formatter (told, s') := by
        rw [← hbegin]
        exact Underway.conclude rfl _ _
      exact of_goes hgoes ht
    · obtain ⟨-, rfl⟩ := Prod.mk.inj (Option.some.inj hbegin)
      exact homed_of_underway rfl ht (⟨rfl, by simp⟩ : Underway _ [] _)

theorem write (hs : Homed outside s) (w : Write) : ∃ more, Homed (outside ++ more) (s.write w) := by
  cases hf : s.inFlight with
  | none =>
    have ht := hs.idle hf
    refine ⟨[w].filter Write.isProper, homed_of_plain hf ⟨?_, by
      simpa [Session.write] using ht.inside, ?_⟩⟩
    · exact OutputTarget.installed_write.trans ht.installed
    · rw [Session.write, OutputTarget.writes_write (ht.installed ▸ ht.inside), ht.writes,
        ht.installed, if_pos rfl]
  | some f =>
    have hsome : s.inFlight.isSome := by rw [hf]; rfl
    obtain ⟨t, ws, ht, hunder⟩ := hs.running hsome
    exact ⟨[], (List.append_nil outside).symm ▸ homed_of_underway hsome ht (hunder.write w)⟩

theorem drop (hs : Homed outside s) : Homed outside s.drop := by
  cases hf : s.inFlight with
  | none =>
    rw [Session.drop, hf]
    exact homed_of_plain rfl (hs.idle hf)
  | some f =>
    obtain ⟨t, ws, ht, hunder⟩ := hs.running (by rw [hf]; rfl)
    refine homed_of_plain ?_ ((hunder.drop hf fun _ => .error "") ▸ ht.run _)
    rw [Session.drop, hf]

end Homed

theorem Reached.homed (hs : Reached cells s) : ∃ outside, Homed outside s := by
  induction hs
  case new hasHost => exact ⟨[], homed_new hasHost⟩
  case begin hbegin ih =>
    obtain ⟨outside, ih⟩ := ih
    exact ⟨outside, ih.begin? hbegin⟩
  case progress ih =>
    obtain ⟨outside, ih⟩ := ih
    exact ⟨outside, ih.progress⟩
  case deliver ih =>
    obtain ⟨outside, ih⟩ := ih
    exact ⟨outside, ih.congr rfl rfl⟩
  case write w _ ih =>
    obtain ⟨outside, ih⟩ := ih
    obtain ⟨more, ih⟩ := ih.write w
    exact ⟨outside ++ more, ih⟩
  case hangUp ih =>
    obtain ⟨outside, ih⟩ := ih
    exact ⟨outside, ih.congr rfl rfl⟩
  case drop ih =>
    obtain ⟨outside, ih⟩ := ih
    exact ⟨outside, ih.drop⟩

end Session
end NoteCell
