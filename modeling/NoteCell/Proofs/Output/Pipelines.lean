import NoteCell.Proofs.Output.Scopes
import NoteCell.Session.Pipeline

/-!
Cells that run one after another on one target, each with its output captured. However a cell ends,
and also if it is given up while it waits, the others do not get to know of it, and the target is
left as it was found.
-/
namespace NoteCell

/-! ### Targets -/

namespace OutputTarget

variable {t : OutputTarget} {ws : List Write} {sink : Nat}

@[simp] theorem size_writeAll : (t.writeAll ws).sinks.size = t.sinks.size := by
  induction ws generalizing t
  case nil => rfl
  case cons w ws ih => exact ih.trans size_write

@[simp] theorem installed_writeAll : (t.writeAll ws).installed = t.installed := by
  induction ws generalizing t
  case nil => rfl
  case cons w ws ih => exact ih.trans installed_write

theorem writeAll_append (ws vs : List Write) :
    t.writeAll (ws ++ vs) = (t.writeAll ws).writeAll vs :=
  List.foldl_append

theorem writes_writeAll (h : t.installed < t.sinks.size) : (t.writeAll ws).writes sink
    = t.writes sink ++ (if sink = t.installed then ws else []).filter Write.isProper := by
  induction ws generalizing t
  case nil => simp [writeAll]
  case cons w ws ih =>
    refine (ih (by simpa using h)).trans ?_
    rw [writes_write h, installed_write]
    split <;> simp [List.filter_cons]
    split <;> simp

theorem installed_capture_lt : t.capture.1.installed < t.capture.1.sinks.size := by
  simp [capture]

-- A capture gets all that is written, and nothing but that.
theorem writes_captured : (t.capture.1.writeAll ws).writes t.capture.2.sink
    = ws.filter Write.isProper := by
  have hinstalled : t.capture.2.sink = t.capture.1.installed := rfl
  have hfresh : t.writes t.capture.2.sink = [] := by simp [capture, writes_eq]
  rw [writes_writeAll installed_capture_lt, if_pos hinstalled, writes_capture, hfresh,
    List.nil_append]

-- The sinks that were there before get nothing.
theorem writes_beside_capture (h : sink < t.sinks.size) :
    (t.capture.1.writeAll ws).writes sink = t.writes sink := by
  have hinstalled : sink ≠ t.capture.1.installed := Nat.ne_of_lt h
  rw [writes_writeAll installed_capture_lt, if_neg hinstalled, writes_capture, List.filter_nil,
    List.append_nil]

end OutputTarget

/-! ### Jobs -/

namespace CellResult

def value? : CellResult → Option Bundle
  | success value _ _ => value
  | failure .. => none

def message? : CellResult → Option String
  | success .. => none
  | failure message _ _ => some message

end CellResult

-- Why a value that has been produced cannot be shown.
def Evaluation.unshown? {α : Type} (formatter : Formatter α) : Evaluation α → Option String
  | success (some v) =>
    match formatter v with
    | .ok _ => none
    | .error reason => some reason
  | _ => none

namespace Pipeline

variable {α : Type}

-- A cell with what its evaluation writes and comes to, and with the formatter that its value meets.
-- One that comes to nothing is given up while it waits.
structure Job (α : Type) where
  cell : String
  formatter : Formatter α
  writes : List Write
  ending : Option (Evaluation α)

namespace Job

def run (j : Job α) (t : OutputTarget) : Option CellResult × OutputTarget :=
  match j.ending with
  | some evaluation =>
    let (result, t) := runCell j.formatter j.cell ⟨j.writes, evaluation⟩ t
    (some result, t)
  | none => (none, (t.capture.1.writeAll j.writes).close t.capture.2)

-- What becomes of a job on a target of its own.
def report (j : Job α) : Option CellResult := (j.run .new).1

-- A result says how the evaluation ended, and holds what it wrote. The note on a value that cannot
-- be shown comes last.
structure Reports (j : Job α) (evaluation : Evaluation α) (r : CellResult) : Prop where
  success : r.isSuccess ↔ ∃ value, evaluation = .success value
  value (bundle : Bundle) : r.value? = some bundle
    ↔ ∃ v, evaluation = .success (some v) ∧ j.formatter v = .ok bundle
  message (m : String) : r.message? = some m
    ↔ evaluation = .failure m ∨ evaluation = .broken ∧ m = brokenMessage j.cell
  stdout : r.stdout = textOf .stdout j.writes
  stderr : r.stderr = textOf .stderr j.writes
    ++ ((evaluation.unshown? j.formatter).map fun reason => (formattingNote reason).text).getD ""

end Job

def runJobs : List (Job α) → OutputTarget → List (Option CellResult) × OutputTarget
  | [], t => ([], t)
  | j :: js, t =>
    let (result, t) := j.run t
    let (results, t) := runJobs js t
    (result :: results, t)

/-! ### One job -/

namespace Job

variable (j : Job α) (t : OutputTarget)

-- What is written until the capture is closed.
def written : List Write :=
  j.writes ++ ((j.ending.bind (·.unshown? j.formatter)).map formattingNote).toList

-- The result of an evaluation that has come to an end.
def result (evaluation : Evaluation α) : CellResult :=
  let out := textOf .stdout j.written
  let err := textOf .stderr j.written
  match evaluation with
  | .success value => .success (value.bind fun v => (j.formatter v).toOption) out err
  | .failure message => .failure message out err
  | .broken => .failure (brokenMessage j.cell) out err

theorem run_eq : j.run t
    = (j.ending.map j.result, (t.capture.1.writeAll j.written).close t.capture.2) := by
  have htexts (stream : OutputStream) (ws : List Write) :
      textOf stream ((t.capture.1.writeAll ws).writes t.capture.2.sink) = textOf stream ws := by
    rw [OutputTarget.writes_captured, textOf_filter_isProper]
  obtain ⟨cell, formatter, writes, ending⟩ := j
  cases ending with
  | none => simp [run, written]
  | some evaluation =>
    cases evaluation
    case success value =>
      cases value with
      | none =>
        simp [run, runCell, finish, format, result, written, Evaluation.unshown?,
          OutputTarget.stdout, OutputTarget.stderr, htexts]
      | some v =>
        cases hv : formatter v with
        | ok bundle =>
          simp [run, runCell, finish, format, result, written, Evaluation.unshown?, hv,
            OutputTarget.stdout, OutputTarget.stderr, htexts, Except.toOption]
        | error reason =>
          have hnote : ((t.capture.1.writeAll writes).write (formattingNote reason))
              = t.capture.1.writeAll (writes ++ [formattingNote reason]) := by
            rw [OutputTarget.writeAll_append]
            rfl
          simp [run, runCell, finish, format, result, written, Evaluation.unshown?, hv,
            OutputTarget.stdout, OutputTarget.stderr, hnote, htexts, Except.toOption]
    all_goals
      simp [run, runCell, finish, result, written, Evaluation.unshown?, OutputTarget.stdout,
        OutputTarget.stderr, htexts]

theorem report_eq : j.report = j.ending.map j.result := by rw [report, run_eq]

variable {j}

theorem textOf_append (stream : OutputStream) (ws vs : List Write) :
    textOf stream (ws ++ vs) = textOf stream ws ++ textOf stream vs := by
  simp [textOf]

theorem reports_result {evaluation : Evaluation α} (hj : j.ending = some evaluation) :
    j.Reports evaluation (j.result evaluation) := by
  have hout : textOf .stdout j.written = textOf .stdout j.writes := by
    rw [written, textOf_append]
    cases j.ending.bind (·.unshown? j.formatter) <;> simp [textOf, formattingNote]
  have herr : textOf .stderr j.written = textOf .stderr j.writes
      ++ ((evaluation.unshown? j.formatter).map
        fun reason => (formattingNote reason).text).getD "" := by
    rw [written, textOf_append, hj, Option.bind_some]
    cases evaluation.unshown? j.formatter <;> simp [textOf, formattingNote]
  cases evaluation
  case success value =>
    have hshown (v : α) (bundle : Bundle) :
        (j.formatter v).toOption = some bundle ↔ j.formatter v = .ok bundle := by
      cases j.formatter v <;> simp [Except.toOption]
    exact ⟨by simp [result, CellResult.isSuccess],
      by simp [result, CellResult.value?, Option.bind_eq_some_iff, hshown],
      by simp [result, CellResult.message?], hout, herr⟩
  all_goals
    exact ⟨by simp [result, CellResult.isSuccess], by simp [result, CellResult.value?],
      by simp [result, CellResult.message?, eq_comm], hout, herr⟩

-- A job leaves the target as it has found it, but for the sink of its own.
theorem installed_run : (j.run t).2.installed = t.installed := by
  rw [run_eq]
  rfl

theorem size_run : (j.run t).2.sinks.size = t.sinks.size + 1 := by
  rw [run_eq]
  simp [OutputTarget.close, OutputTarget.capture]

theorem writes_run {sink : Nat} (h : sink < t.sinks.size) :
    (j.run t).2.writes sink = t.writes sink := by
  rw [run_eq]
  exact OutputTarget.writes_beside_capture h

end Job

/-! ### Many jobs -/

-- What many jobs come to on one target: each to what it would come to alone, while the sink that
-- was installed is installed again, and no sink that was there has got anything.
structure Isolated (js : List (Job α)) (t : OutputTarget) (results : List (Option CellResult))
    (t' : OutputTarget) : Prop where
  results : results = js.map Job.report
  reports : ∀ j ∈ js, ∀ evaluation, j.ending = some evaluation →
    ∃ r, j.report = some r ∧ j.Reports evaluation r
  installed : t'.installed = t.installed
  writes : ∀ sink < t.sinks.size, t'.writes sink = t.writes sink

theorem isolated_runJobs (js : List (Job α)) (t : OutputTarget) :
    Isolated js t (runJobs js t).1 (runJobs js t).2 := by
  have reports (j : Job α) (evaluation : Evaluation α) (hj : j.ending = some evaluation) :
      ∃ r, j.report = some r ∧ j.Reports evaluation r := by
    rw [j.report_eq, hj]
    exact ⟨_, rfl, Job.reports_result hj⟩
  induction js generalizing t
  case nil => exact ⟨rfl, fun j _ => reports j, rfl, fun _ _ => rfl⟩
  case cons j js ih =>
    obtain ⟨hresults, -, hinstalled, hwrites⟩ := ih (j.run t).2
    refine ⟨?_, fun j _ => reports j, hinstalled.trans (Job.installed_run t), fun sink hsink => ?_⟩
    · have hfirst : (j.run t).1 = j.report := by rw [j.report_eq, j.run_eq]
      rw [List.map_cons, ← hfirst, ← hresults]
      rfl
    · refine (hwrites sink ?_).trans (Job.writes_run t hsink)
      rw [Job.size_run]
      exact Nat.lt_succ_of_lt hsink

end Pipeline
end NoteCell
