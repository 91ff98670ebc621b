import NoteCell.Json.Printing
import NoteCell.Json.Record
import NoteCell.Session.Pipeline

/-!
Results of cells, streams, bundles and ids of suspensions in JSON form.
-/
namespace NoteCell

def encodeWord (n : Nat) : JsonValue := .number (.whole n)

def Bundle.encode (b : Bundle) : JsonValue := .object b

def CellResult.encode : CellResult → JsonValue
  | success value out err =>
    .object [("status", .string "success"),
      ("formattedValue", value.elim .null Bundle.encode), ("stdout", .string out),
      ("stderr", .string err)]
  | failure message out err =>
    .object [("status", .string "failure"), ("message", .string message),
      ("stdout", .string out), ("stderr", .string err)]

def OutputStream.encode (s : OutputStream) : JsonValue := .string s.name

def OutputStream.ofName? (name : String) : Option OutputStream :=
  [stdout, stderr].find? (·.name = name)

open Decoder (string)

def outSlot : Slot := .of "stdout" string

def errSlot : Slot := .of "stderr" string

namespace CellResult

def successVariant : Variant CellResult where
  name := "success"
  title := "ExecutionResult::Success"
  slots := [.of "formattedValue" (.orNull .bundle), outSlot, errSlot]
  build fields := do
    return .success (← fields.get? "formattedValue" .bundle) (← fields.get "stdout" string)
      (← fields.get "stderr" string)

def failureVariant : Variant CellResult where
  name := "failure"
  title := "ExecutionResult::Failure"
  slots := [.of "message" string, outSlot, errSlot]
  build fields := do
    return .failure (← fields.get "message" string) (← fields.get "stdout" string)
      (← fields.get "stderr" string)

def recordType : RecordType CellResult :=
  ⟨"ExecutionResult", "status", [successVariant, failureVariant]⟩

end CellResult

namespace JsonReader

def suspensionId : JsonReader Nat := do decodeHere Decoder.word (← leaf "u64")

def streamName : JsonReader OutputStream := do
  match OutputStream.ofName? (← oneOf ([OutputStream.stdout, .stderr].map OutputStream.name)) with
  | some s => return s
  | none => refuseNext .expectedValue

-- What an object has beside the name of a stream: nothing.
def noContent : JsonReader Unit := do
  match ← leaf "unit" with
  | .null => return ()
  | v => mismatchHere (v.invalidType "unit")

-- A stream is written as its name, and read as that or as an object with the name as its one key.
def stream : JsonReader OutputStream := do
  match ← peekToken? with
  | none => refuseHere .eofValue
  | some '"' => streamName
  | some '\x7b' =>
    skip
    let s ← streamName
    colon
    noContent
    match ← peekToken? with
    | some '\x7d' =>
      skip
      return s
    | some _ => refuseHere .expectedValue
    | none => refuseHere .eofObject
  | some _ => refuseNext .expectedValue

def bundle : JsonReader Bundle := do
  match ← peekToken? with
  | some '\x7b' => decodeHere Decoder.bundle (← value (← fuel) depthLimit)
  | _ => mismatchHere ((← leaf "a map").invalidType "a map")

end JsonReader
end NoteCell
