import NoteCell.Machine.Step
import NoteCell.Parsing.Statement
import NoteCell.Session.Pipeline
import NoteCell.Suspension.Registry

/-!
A session: cells that run one after another on one heap. A cell runs until it ends or waits for the
host; while one waits, no other is started.
-/
namespace NoteCell

-- A cell that has been started and has not ended.
structure InFlight where
  cell : String
  capture : Capture
  -- What it waits under.
  suspension : Option Nat
  machine : Machine

structure Session where
  heap : Heap
  hasHost : Bool
  registry : Registry
  target : OutputTarget
  inFlight : Option InFlight

-- What the outside gets to know, in the order in which it happens.
inductive Notice where
  | hostText (text : String)
  | hostImage (data : String)
  | request (e : SuspendEvent)
  | result (cell : String) (r : CellResult)

-- The representations of values in a heap.
abbrev HeapFormatter := Heap → Formatter Value

def reprFormatter : HeapFormatter := fun h v => .ok (.text (h.repr v))

def Outcome.evaluation : Outcome → Evaluation Value
  | finished value => .success value
  | failed (.raised e) => .failure e.text
  | failed .broken => .broken

-- The statements of a source, or why it cannot be run.
def runnable (source : String) : Except String (List Stmt) :=
  match parse source with
  | .error e => .error ("SyntaxError: " ++ e.render source)
  | .ok c =>
    match c.stray? with
    | some (stray, offset) =>
      .error ("SyntaxError: " ++ stray.message ++ " ("
        ++ (Position.of source.toList offset).render ++ ")")
    | none => .ok c.body

def Effect.notice? : Effect → Option Notice
  | write _ => none
  | hostText text => some (.hostText text)
  | hostImage data => some (.hostImage data)

def Effect.write? : Effect → Option Write
  | write w => some w
  | _ => none

namespace Session

def new (hasHost : Bool) : Session := ⟨.empty, hasHost, .new, .new, none⟩

variable (s : Session)

def isBusy : Bool := s.inFlight.isSome

-- Takes the effects out of a machine: what was written goes to the target, the rest is told.
def drain (m : Machine) : List Notice × Machine × Session :=
  let effects := m.world.effects.reverse
  (effects.filterMap Effect.notice?, { m with world := { m.world with effects := [] } },
    { s with target := s.target.writeAll (effects.filterMap Effect.write?) })

-- Ends a cell.
def conclude (formatter : HeapFormatter) (cell : String) (capture : Capture) (heap : Heap)
    (evaluation : Evaluation Value) : List Notice × Session :=
  let (result, target) :=
    Pipeline.finish (formatter heap) cell capture s.target evaluation
  ([.result cell result], { s with heap, target, inFlight := none })

-- Registers a machine that waits, and ends one that has ended or finds nobody to ask.
def settle (formatter : HeapFormatter) (cell : String) (capture : Capture) (m : Machine) :
    List Notice × Session :=
  match m.control with
  | .ended o => s.conclude formatter cell capture m.world.heap o.evaluation
  | .waiting waiter prompt =>
    match s.registry.register waiter prompt with
    | (.ok event, registry) =>
      ([.request event],
        { s with registry, inFlight := some ⟨cell, capture, some event.id, m⟩ })
    | (.error e, registry) =>
      { s with registry }.conclude formatter cell capture m.world.heap
        (Outcome.failed (.raised ⟨.endOfInput, e.message⟩)).evaluation
  | _ => ([], { s with inFlight := some ⟨cell, capture, none, m⟩ })

def advance (fuel : Nat) (formatter : HeapFormatter) (cell : String) (capture : Capture)
    (m : Machine) : List Notice × Session :=
  let (told, m, s) := s.drain (m.run fuel)
  let (more, s) := s.settle formatter cell capture m
  (told ++ more, s)

-- Takes a cell on, unless one is in flight. It does not run yet; one that cannot is ended at once.
def begin? (formatter : HeapFormatter) (cell source : String) : Option (List Notice × Session) :=
  if s.isBusy then none
  else
    let (target, capture) := s.target.capture
    let s := { s with target }
    match runnable source with
    | .error message => some (s.conclude formatter cell capture s.heap (.failure message))
    | .ok body =>
      some ([], { s with
        inFlight := some ⟨cell, capture, none, .start body cell ⟨s.heap, [], s.hasHost⟩⟩ })

-- Runs the cell in flight on. One that waits goes on when its answer has come in.
def progress (fuel : Nat) (formatter : HeapFormatter) : List Notice × Session :=
  match s.inFlight with
  | none => ([], s)
  | some f =>
    match f.suspension with
    | none => s.advance fuel formatter f.cell f.capture f.machine
    | some id =>
      match s.registry.collect id with
      | (none, _) => ([], s)
      | (some value, registry) =>
        { s with registry }.advance fuel formatter f.cell f.capture (f.machine.answer value)

def start? (fuel : Nat) (formatter : HeapFormatter) (cell source : String) :
    Option (List Notice × Session) := do
  let (told, s) ← s.begin? formatter cell source
  let (more, s) := s.progress fuel formatter
  return (told ++ more, s)

-- Hands an answer in.
def deliver (id : Nat) (value : String) : Except SuspensionError Unit × Session :=
  let (outcome, registry) := s.registry.resume id value
  (outcome, { s with registry })

def resume (fuel : Nat) (formatter : HeapFormatter) (id : Nat) (value : String) :
    Except SuspensionError (List Notice) × Session :=
  match s.deliver id value with
  | (.error e, s) => (.error e, s)
  | (.ok _, s) =>
    let (told, s) := s.progress fuel formatter
    (.ok told, s)

-- Gives up the cell in flight, and all that cells have left in the heap.
def drop : Session :=
  match s.inFlight with
  | none => { s with heap := .empty }
  | some f =>
    { s with
      heap := .empty
      target := s.target.close f.capture
      registry := f.suspension.elim s.registry s.registry.giveUp
      inFlight := none }

def hangUp : Session := { s with registry := s.registry.hangUp }

def write (w : Write) : Session := { s with target := s.target.write w }

-- The global binding of a name; unknown while a cell is in flight.
def global? (name : String) : Option Value := s.heap.binding? Heap.globals name

end Session
end NoteCell
