import NoteCell.Session.Encoding
import NoteCell.Suspension.Registry

/-!
What a worker and its host tell each other: requests one way, messages the other, each one JSON
object on a line of its own.
-/
namespace NoteCell

inductive Request where
  | greet
  | run (cell code : String)
  | resume (suspension : Nat) (value : String)
deriving DecidableEq, Repr

inductive Message where
  | initialized
  -- Text sent to the host, or written while no cell runs.
  | stdout (text : String)
  -- The value of a cell, or an image sent to the host.
  | executeResult (cell : Option String) (result : Bundle)
  | inputRequest (suspension : Nat) (cell prompt : String)
  | executeCompleted (cell stdout stderr : String)
  | error (cell : Option String) (error stdout stderr : String)

def tagged (type : String) (fields : List (String × JsonValue)) : JsonValue :=
  .object (("type", .string type) :: fields)

def cellField (cell : Option String) : List (String × JsonValue) :=
  (cell.map fun cell => ("cellId", JsonValue.string cell)).toList

open Decoder (string word)

def cellSlot : Slot := .of "cellId" string

def looseCellSlot : Slot := .of "cellId" (.orNull string) true

def suspensionSlot : Slot := .of "suspension" word

namespace Request

def encode : Request → JsonValue
  | greet => tagged "initialize" []
  | run cell code => tagged "run" [("cellId", .string cell), ("code", .string code)]
  | resume suspension value =>
    tagged "resume" [("suspension", encodeWord suspension), ("value", .string value)]

def variants : List (Variant Request) := [
  ⟨"initialize", "Request::Initialize", [], fun _ => return .greet⟩,
  ⟨"run", "Request::Run", [cellSlot, .of "code" string], fun fields => do
    return .run (← fields.get "cellId" string) (← fields.get "code" string)⟩,
  ⟨"resume", "Request::Resume", [suspensionSlot, .of "value" string], fun fields => do
    return .resume (← fields.get "suspension" word) (← fields.get "value" string)⟩]

def recordType : RecordType Request := ⟨"Request", "type", variants⟩

def decode (line : String) : Except JsonError Request := recordType.read.read line

end Request

namespace Message

def ofEvent (e : SuspendEvent) : Message := .inputRequest e.id e.cell e.prompt

-- An error that comes without output.
def refusal (cell : Option String) (reason : String) : Message := .error cell reason "" ""

-- How the end of a cell is told.
def ofResult (cell : String) : CellResult → List Message
  | .success value out err =>
    (value.map (executeResult (some cell))).toList ++ [.executeCompleted cell out err]
  | .failure reason out err => [.error (some cell) reason out err]

def encode : Message → JsonValue
  | initialized => tagged "initialized" []
  | stdout text => tagged "stdout" [("text", .string text)]
  | executeResult cell result =>
    tagged "execute_result" (cellField cell ++ [("result", result.encode)])
  | inputRequest suspension cell prompt =>
    tagged "input_request" [("suspension", encodeWord suspension), ("cellId", .string cell),
      ("prompt", .string prompt)]
  | executeCompleted cell out err =>
    tagged "execute_completed" [("cellId", .string cell), ("stdout", .string out),
      ("stderr", .string err)]
  | error cell reason out err =>
    tagged "error" (cellField cell ++ [("error", .string reason), ("stdout", .string out),
      ("stderr", .string err)])

-- A message as it is sent, with its line break.
def line (m : Message) : String := m.encode.text ++ "\n"

def variants : List (Variant Message) := [
  ⟨"initialized", "Message::Initialized", [], fun _ => return .initialized⟩,
  ⟨"stdout", "Message::Stdout", [.of "text" string], fun fields => do
    return .stdout (← fields.get "text" string)⟩,
  ⟨"execute_result", "Message::ExecuteResult", [looseCellSlot, .of "result" Decoder.bundle],
    fun fields => do
      return .executeResult (← fields.get? "cellId" string) (← fields.get "result" .bundle)⟩,
  ⟨"input_request", "Message::InputRequest", [suspensionSlot, cellSlot, .of "prompt" string],
    fun fields => do
      return .inputRequest (← fields.get "suspension" word) (← fields.get "cellId" string)
        (← fields.get "prompt" string)⟩,
  ⟨"execute_completed", "Message::ExecuteCompleted", [cellSlot, outSlot, errSlot],
    fun fields => do
      return .executeCompleted (← fields.get "cellId" string) (← fields.get "stdout" string)
        (← fields.get "stderr" string)⟩,
  ⟨"error", "Message::Error", [looseCellSlot, .of "error" string, outSlot, errSlot],
    fun fields => do
      return .error (← fields.get? "cellId" string) (← fields.get "error" string)
        (← fields.get "stdout" string) (← fields.get "stderr" string)⟩]

def recordType : RecordType Message := ⟨"Message", "type", variants⟩

def decode (line : String) : Except JsonError Message := recordType.read.read line

end Message
end NoteCell
