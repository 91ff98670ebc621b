import NoteCell.Session.Basic
import NoteCell.Suspension.Insertion
import NoteCell.Text.CharClass
import NoteCell.Worker.Protocol

/-!
A worker serves requests on one session. Five things happen to it, in any order: a line comes in,
the cell in flight runs on, a wait is announced, the end of a cell is told, a message is written.
What a cell sends to the host is posted at once, while waits and ends stay aside until their turn
comes.
-/
namespace NoteCell

structure WorkerOptions where
  -- Whether cells get their suspension points put in.
  insertsSuspensions : Bool
  primitive : String
deriving DecidableEq, Repr

def WorkerOptions.standard : WorkerOptions := ⟨true, defaultPrimitive⟩

structure Worker where
  options : WorkerOptions
  session : Session
  -- Waits that were not announced yet.
  waits : List SuspendEvent
  -- A cell that has ended and was not told of yet.
  ended : Option (String × CellResult)
  -- Messages that were not written yet.
  outbox : List Message
  written : List Message

inductive WorkerEvent where
  | line (text : String)
  | progress (fuel : Nat)
  | announce
  | conclude
  | write
deriving DecidableEq, Repr

namespace Worker

def new (options : WorkerOptions) : Worker := ⟨options, .new true, [], none, [], []⟩

variable (w : Worker)

-- Whether a cell may be started.
def isIdle : Bool := !w.session.isBusy && w.ended.isNone

def post (m : Message) : Worker := { w with outbox := w.outbox ++ [m] }

def hear : Notice → Worker
  | .hostText text => w.post (.stdout text)
  | .hostImage data => w.post (.executeResult none (.image data))
  | .request e => { w with waits := w.waits ++ [e] }
  | .result cell r => { w with ended := some (cell, r) }

-- Output outside of cells: standard error is not passed on.
def outsideMessage? (o : Write) : Option Message :=
  match o.stream with
  | .stdout => some (.stdout o.text)
  | .stderr => none

-- Takes over a session and what it tells.
def take (told : List Notice) (s : Session) : Worker :=
  let outside := (s.target.writes OutputTarget.root).filterMap outsideMessage?
  let s := { s with target := s.target.clear OutputTarget.root }
  let heard := told.foldl hear { w with session := s }
  { heard with outbox := heard.outbox ++ outside }

def prepared (code : String) : String :=
  if w.options.insertsSuspensions then withSuspensions w.options.primitive code else code

def busyReason : String := "another cell is already in progress"

def start (cell code : String) : Worker :=
  if w.isIdle then
    match w.session.begin? reprFormatter cell (w.prepared code) with
    | some (told, s) => w.take told s
    | none => w
  else w.post (.refusal (some cell) busyReason)

def resume (suspension : Nat) (value : String) : Worker :=
  match w.session.deliver suspension value with
  | (.ok _, session) => { w with session }
  | (.error e, session) => { w with session }.post (.refusal none e.message)

def handle : Request → Worker
  | .greet => w.post .initialized
  | .run cell code => w.start cell code
  | .resume suspension value => w.resume suspension value

def receive (line : String) : Worker :=
  if line.toList.all CharClass.isBlank then w
  else
    match Request.decode line with
    | .ok request => w.handle request
    | .error e => w.post (.refusal none ("invalid request: " ++ e.text))

def progress (fuel : Nat) : Worker :=
  let (told, s) := w.session.progress fuel reprFormatter
  w.take told s

-- Announces the oldest wait.
def announce : Worker :=
  match w.waits with
  | [] => w
  | e :: waits => { w with waits }.post (.ofEvent e)

-- Tells of the cell that has ended.
def conclude : Worker :=
  match w.ended with
  | none => w
  | some (cell, r) =>
    { w with ended := none, outbox := w.outbox ++ Message.ofResult cell r }

-- Writes the oldest message.
def write : Worker :=
  match w.outbox with
  | [] => w
  | m :: outbox => { w with outbox, written := w.written ++ [m] }

def step : WorkerEvent → Worker
  | .line text => w.receive text
  | .progress fuel => w.progress fuel
  | .announce => w.announce
  | .conclude => w.conclude
  | .write => w.write

def run (events : List WorkerEvent) : Worker := events.foldl step w

-- Everything that can still happen without another line.
def settle (fuel : Nat) : Worker :=
  let w := w.progress fuel
  let w := w.run (List.replicate w.waits.length .announce)
  let w := w.conclude
  w.run (List.replicate w.outbox.length .write)

-- The end of the input: the cell in flight is given up, and what was posted is written.
def shutDown : Worker :=
  let w := { w with session := w.session.drop, waits := [], ended := none }
  w.run (List.replicate w.outbox.length .write)

end Worker
end NoteCell
