import Mathlib.Data.List.Basic
import NoteCell.Output.Scopes

/-!
Captures that are closed in the reverse of the order in which they were opened. What is written then
goes to the innermost open capture and nowhere else, and when all captures are closed the root sink
is installed again.
-/
namespace NoteCell

/-! ### Texts -/

-- A write that says something. Empty text reaches no sink.
def Write.isProper (w : Write) : Bool := !w.text.isEmpty

theorem textOf_cons (stream : OutputStream) (w : Write) (ws : List Write) : textOf stream (w :: ws)
    = (if w.stream = stream then w.text else "") ++ textOf stream ws := by
  by_cases h : w.stream = stream <;> simp [textOf, h, String.join_cons]

-- What says nothing is not missed.
theorem textOf_filter_isProper (stream : OutputStream) (ws : List Write) :
    textOf stream (ws.filter Write.isProper) = textOf stream ws := by
  induction ws
  case nil => rfl
  case cons w ws ih =>
    cases hproper : w.isProper
    case true => rw [List.filter_cons_of_pos hproper, textOf_cons, textOf_cons, ih]
    case false =>
      have hempty : w.text = "" := by simpa [Write.isProper] using hproper
      rw [List.filter_cons_of_neg (by simp [hproper]), ih, textOf_cons, hempty]
      simp

/-! ### Sinks -/

namespace OutputTarget

variable {t : OutputTarget} {w : Write} {sink : Nat}

theorem writes_eq (t : OutputTarget) (sink : Nat) :
    t.writes sink = (t.sinks[sink]?.map Array.toList).getD [] := by
  rw [writes, Array.getD_eq_getD_getElem?]
  cases t.sinks[sink]? <;> rfl

theorem write_of_proper (h : w.isProper) :
    t.write w = { t with sinks := t.sinks.modify t.installed (·.push w) } := by
  rw [write, if_neg (by simpa [Write.isProper] using h)]

theorem write_of_empty (h : w.isProper = false) : t.write w = t := by
  rw [write, if_pos (by simpa [Write.isProper] using h)]

@[simp] theorem size_write : (t.write w).sinks.size = t.sinks.size := by
  rw [write]
  split <;> simp

@[simp] theorem installed_write : (t.write w).installed = t.installed := by
  rw [write]
  split <;> rfl

-- A write lands in the sink that is installed, and in no other.
theorem writes_write (h : t.installed < t.sinks.size) : (t.write w).writes sink
    = t.writes sink ++ (if sink = t.installed then [w] else []).filter Write.isProper := by
  cases hproper : w.isProper
  case false =>
    rw [write_of_empty hproper]
    split <;> simp [hproper]
  case true =>
    rw [write_of_proper hproper, writes_eq, writes_eq]
    by_cases hsink : sink = t.installed
    · subst hsink
      simp [hproper, h, Array.getElem_modify]
    · simp [hsink, Array.getElem?_modify, Ne.symm hsink]

theorem writes_capture : t.capture.1.writes sink = t.writes sink := by
  rw [capture, writes_eq, writes_eq, Array.getElem?_push]
  split
  case isTrue hsink => simp [hsink]
  case isFalse => rfl

-- All that has been written, sink by sink.
def held (t : OutputTarget) : List Write := t.sinks.toList.flatMap Array.toList

theorem held_write (h : t.installed < t.sinks.size) :
    (t.write w).held.Perm (t.held ++ [w].filter Write.isProper) := by
  cases hproper : w.isProper
  case false => simp [write_of_empty hproper, hproper]
  case true =>
    have hinside : t.installed < t.sinks.toList.length := by simpa using h
    rw [write_of_proper hproper, held, held, Array.toList_modify,
      List.modify_eq_take_cons_drop hinside]
    conv_rhs =>
      rw [← List.take_append_drop t.installed t.sinks.toList, List.drop_eq_getElem_cons hinside]
    simp only [List.flatMap_append, List.flatMap_cons, Array.toList_push, List.append_assoc,
      List.filter_cons_of_pos hproper, List.filter_nil]
    exact .append_left _ (.append_left _ (List.perm_append_singleton w _).symm)

theorem held_capture : t.capture.1.held = t.held := by
  simp [capture, held]

end OutputTarget

/-! ### Nested scopes -/

def ScopeCommand.write? : ScopeCommand → Option Write
  | write w => some w
  | _ => none

-- Which scopes are open, the innermost first, and how many have been opened: what commands say of
-- themselves, when each closing is meant for the innermost scope.
structure Nesting where
  opened : List Nat
  count : Nat

namespace Nesting

def initial : Nesting := ⟨[], 0⟩

variable (n : Nesting)

def innermost? : Option Nat := n.opened.head?

def next : ScopeCommand → Nesting
  | .capture => ⟨n.count :: n.opened, n.count + 1⟩
  | .finish _ | .drop _ => { n with opened := n.opened.tail }
  | .write _ | .take => n

def after (n : Nesting) (cs : List ScopeCommand) : Nesting := cs.foldl next n

-- Writes, captures and closings of the innermost scope.
def admits : ScopeCommand → Bool
  | .write _ | .capture => true
  | .finish k | .drop k => n.innermost? = some k
  | .take => false

def admitsAll : Nesting → List ScopeCommand → Bool
  | _, [] => true
  | n, c :: cs => n.admits c && admitsAll (n.next c) cs

-- What a command writes while the given scope is the innermost. No scope stands for the root.
def write? (scope? : Option Nat) (c : ScopeCommand) : Option Write :=
  if n.innermost? = scope? then c.write? else none

-- What commands write while the given scope is the innermost.
def written (scope? : Option Nat) : Nesting → List ScopeCommand → List Write
  | _, [] => []
  | n, c :: cs => (n.write? scope? c).toList ++ written scope? (n.next c) cs

-- The sink of a scope.
def sinkOf : Option Nat → Nat
  | none => OutputTarget.root
  | some k => k + 1

theorem sinkOf_inj {p q : Option Nat} : sinkOf p = sinkOf q ↔ p = q := by
  cases p <;> cases q <;> simp [sinkOf, OutputTarget.root]

end Nesting

namespace Scopes

open Nesting

def after (s : Scopes) (cs : List ScopeCommand) : Scopes := cs.foldl (fun s c => (s.run c).2) s

-- Open captures below a number, each of which replaced the sink of the next.
def Linked : Nat → List (Nat × Capture) → Prop
  | _, [] => True
  | bound, (k, c) :: rest =>
    k < bound ∧ c = ⟨sinkOf k, sinkOf (rest.head?.map (·.1))⟩ ∧ Linked k rest

theorem Linked.mono {bound bound' : Nat} {opened : List (Nat × Capture)} (h : Linked bound opened)
    (hle : bound ≤ bound') : Linked bound' opened := by
  cases opened with
  | nil => trivial
  | cons => exact ⟨Nat.lt_of_lt_of_le h.1 hle, h.2⟩

theorem Linked.lt {bound : Nat} {opened : List (Nat × Capture)} (h : Linked bound opened) :
    ∀ p ∈ opened, p.1 < bound := by
  induction opened generalizing bound
  case nil => simp
  case cons p rest ih =>
    obtain ⟨hp, _, hrest⟩ := h
    exact List.forall_mem_cons.mpr ⟨hp, fun q hq => Nat.lt_trans (ih hrest q hq) hp⟩

-- Scopes that stand as a nesting says, with what was written while each scope was the innermost.
structure Stands (s : Scopes) (n : Nesting) (log : Option Nat → List Write) (all : List Write) :
    Prop where
  count : s.count = n.count
  size : s.target.sinks.size = n.count + 1
  opened : s.opened.map (·.1) = n.opened
  linked : Linked n.count s.opened
  installed : s.target.installed = sinkOf n.innermost?
  writes : ∀ scope?, s.target.writes (sinkOf scope?) = (log scope?).filter Write.isProper
  held : s.target.held.Perm (all.filter Write.isProper)

theorem stands_new : Stands .new .initial (fun _ => []) [] where
  count := rfl
  size := rfl
  opened := rfl
  linked := trivial
  installed := rfl
  writes scope? := by
    cases scope? with
    | none => rfl
    | some k => simp [new, OutputTarget.new, OutputTarget.writes_eq, sinkOf]
  held := by simp [new, OutputTarget.new, OutputTarget.held]

namespace Stands

variable {s : Scopes} {n : Nesting} {log : Option Nat → List Write} {all : List Write}

theorem installed_lt (h : Stands s n log all) : s.target.installed < s.target.sinks.size := by
  rw [h.installed, h.size, innermost?, ← h.opened]
  cases hopened : s.opened with
  | nil => exact Nat.succ_pos _
  | cons p rest => exact Nat.succ_lt_succ (h.linked.lt p (hopened ▸ List.mem_cons_self))

-- The capture of the innermost scope.
theorem lookup (h : Stands s n log all) {k : Nat} (hk : n.innermost? = some k) :
    ∃ rest, s.opened = (k, ⟨sinkOf k, sinkOf (rest.head?.map (·.1))⟩) :: rest
      ∧ Linked k rest ∧ n.opened = k :: rest.map (·.1)
      ∧ s.opened.lookup k = some ⟨sinkOf k, sinkOf (rest.head?.map (·.1))⟩ := by
  have hopened := h.opened
  have hlinked := h.linked
  rw [innermost?, ← hopened] at hk
  cases hs : s.opened with
  | nil => simp [hs] at hk
  | cons p rest =>
    obtain ⟨j, c⟩ := p
    rw [hs] at hk hlinked hopened
    obtain rfl : j = k := by simpa using hk
    obtain ⟨_, rfl, hrest⟩ := hlinked
    exact ⟨rest, rfl, hrest, hopened.symm, by simp⟩

theorem write (h : Stands s n log all) (w : Write) :
    Stands (s.run (.write w)).2 n (fun scope? => log scope? ++ (n.write? scope? (.write w)).toList)
      (all ++ [w]) where
  count := h.count
  size := by simpa [run] using h.size
  opened := h.opened
  linked := h.linked
  installed := by simpa [run] using h.installed
  writes scope? := by
    change (s.target.write w).writes _ = _
    rw [OutputTarget.writes_write h.installed_lt, h.writes, h.installed, List.filter_append,
      Nesting.write?]
    by_cases hscope : n.innermost? = scope?
    · rw [if_pos hscope, if_pos (by rw [hscope])]
      rfl
    · rw [if_neg hscope, if_neg fun hsink => hscope (sinkOf_inj.mp hsink).symm]
      rfl
  held := by
    rw [List.filter_append]
    exact (OutputTarget.held_write h.installed_lt).trans (h.held.append_right _)

theorem capture (h : Stands s n log all) : Stands (s.run .capture).2 (n.next .capture) log all where
  count := congrArg (· + 1) h.count
  size := by simp [run, OutputTarget.capture, h.size, next]
  opened := by simp [run, h.opened, h.count, next]
  linked := by
    have hreplaced : s.target.installed = sinkOf (s.opened.head?.map (·.1)) := by
      rw [h.installed, innermost?, ← h.opened, List.head?_map]
    refine ⟨by simp [next, h.count], ?_, h.count ▸ h.linked⟩
    simp [h.size, h.count, hreplaced, sinkOf]
  installed := by simp [run, OutputTarget.capture, h.size, next, innermost?, sinkOf]
  writes scope? := by
    rw [← h.writes scope?]
    exact OutputTarget.writes_capture
  held := by
    change s.target.capture.1.held.Perm _
    rw [OutputTarget.held_capture]
    exact h.held

theorem close (h : Stands s n log all) {k : Nat} (hk : n.innermost? = some k) :
    ∃ c, s.opened.lookup k = some c ∧ c.sink = sinkOf k
      ∧ Stands (s.close k c) { n with opened := n.opened.tail } log all := by
  obtain ⟨rest, hopened, hlinked, hnesting, hlookup⟩ := h.lookup hk
  have hrest : s.opened.filter (·.1 ≠ k) = rest := by
    rw [hopened, List.filter_cons_of_neg (by simp), List.filter_eq_self]
    intro p hp
    simpa using Nat.ne_of_lt (hlinked.lt p hp)
  have hclosed : (s.close k ⟨sinkOf k, sinkOf (rest.head?.map (·.1))⟩).opened = rest := hrest
  refine ⟨_, hlookup, rfl, h.count, h.size, ?_, ?_, ?_, h.writes, h.held⟩
  · rw [hclosed, hnesting]
    rfl
  · rw [hclosed]
    exact hlinked.mono (Nat.le_of_lt (h.linked.lt _ (hopened ▸ List.mem_cons_self)))
  · simp [Scopes.close, OutputTarget.close, innermost?, hnesting]

theorem run (h : Stands s n log all) {c : ScopeCommand} (hc : n.admits c) :
    Stands (s.run c).2 (n.next c) (fun scope? => log scope? ++ (n.write? scope? c).toList)
      (all ++ c.write?.toList) := by
  cases c
  case write w => exact h.write w
  case take => cases hc
  -- What is left writes nothing.
  all_goals
    simp only [Nesting.write?, ScopeCommand.write?, ite_self, Option.toList_none, List.append_nil]
  case capture => exact h.capture
  case finish k =>
    obtain ⟨c, hlookup, -, hclosed⟩ := h.close (of_decide_eq_true hc)
    simp only [Scopes.run, hlookup]
    exact hclosed
  case drop k =>
    obtain ⟨c, hlookup, -, hclosed⟩ := h.close (of_decide_eq_true hc)
    simp only [Scopes.run, hlookup]
    exact hclosed

theorem after (h : Stands s n log all) {cs : List ScopeCommand} (hcs : n.admitsAll cs) :
    Stands (s.after cs) (n.after cs) (fun scope? => log scope? ++ n.written scope? cs)
      (all ++ cs.filterMap ScopeCommand.write?) := by
  induction cs generalizing s n log all
  case nil => simpa [written, Scopes.after, Nesting.after] using h
  case cons c cs ih =>
    rw [admitsAll, Bool.and_eq_true] at hcs
    have hafter := ih (h.run hcs.1) hcs.2
    simpa [written, List.filterMap_eq_flatMap_toList, Scopes.after, Nesting.after] using hafter

-- A finished scope gives what was written while it was the innermost.
theorem finish (h : Stands s n log all) {k : Nat} (hk : n.innermost? = some k) :
    (s.run (.finish k)).1 = .texts (textOf .stdout (log k)) (textOf .stderr (log k)) := by
  obtain ⟨c, hlookup, hsink, -⟩ := h.close hk
  simp only [Scopes.run, hlookup, texts, OutputTarget.stdout, OutputTarget.stderr, hsink, h.writes,
    textOf_filter_isProper]

end Stands

-- What becomes of the texts that commands write.
structure Delivered (cs : List ScopeCommand) (s : Scopes) : Prop where
  finish {k : Nat} : (initial.after cs).innermost? = some k → (s.run (.finish k)).1
    = .texts (textOf .stdout (initial.written k cs)) (textOf .stderr (initial.written k cs))
  root : s.target.writes OutputTarget.root = (initial.written none cs).filter Write.isProper
  -- Each write is in one sink, and there once.
  held : s.target.held.Perm ((cs.filterMap ScopeCommand.write?).filter Write.isProper)
  restored : (initial.after cs).opened = [] → s.target.installed = OutputTarget.root

theorem delivered_after {cs : List ScopeCommand} (h : initial.admitsAll cs) :
    Delivered cs (new.after cs) := by
  have hstands := stands_new.after h
  simp only [List.nil_append] at hstands
  refine ⟨hstands.finish, hstands.writes none, hstands.held, fun hopened => ?_⟩
  rw [hstands.installed, innermost?, hopened]
  rfl

-- One scope inside another, the inner one dropped with what it holds.
theorem delivered_after_two :
    let cs : List ScopeCommand := [.write ⟨.stdout, "root"⟩, .capture, .write ⟨.stderr, "a"⟩,
      .capture, .write ⟨.stdout, "b"⟩, .drop 1, .write ⟨.stderr, "c"⟩, .finish 0]
    initial.admitsAll cs ∧ Delivered cs (new.after cs) :=
  ⟨by decide, delivered_after (by decide)⟩

-- The root sink does not get to know of a write that says nothing.
theorem root_of_empty_write : initial.admitsAll [.write ⟨.stdout, ""⟩]
    ∧ (new.after [.write ⟨.stdout, ""⟩]).target.writes OutputTarget.root
      ≠ initial.written none [.write ⟨.stdout, ""⟩] := by
  decide

end Scopes

end NoteCell
