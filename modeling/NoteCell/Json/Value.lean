/-!
Data in JSON form. Whole numbers that fit 64 bits, with or without a sign, stay whole; all others
are doubles. The fields of an object keep the order in which they were read until the data is
settled.
-/
namespace NoteCell

inductive JsonNumber where
  | whole (n : Int)
  | double (x : Float)
deriving DecidableEq

inductive JsonValue where
  | null
  | bool (b : Bool)
  | number (n : JsonNumber)
  | string (s : String)
  | array (items : List JsonValue)
  | object (fields : List (String × JsonValue))

namespace JsonValue

-- Keys stay in order, and a key has the value that came last.
def insert (key : String) (v : JsonValue) : List (String × JsonValue) → List (String × JsonValue)
  | [] => [(key, v)]
  | (k, w) :: rest =>
    if key < k then (key, v) :: (k, w) :: rest
    else if key = k then (key, v) :: rest
    else (k, w) :: insert key v rest

mutual

-- Data as it is kept: the fields of every object in order and under different keys.
def settled : JsonValue → JsonValue
  | array items => .array (settledItems items)
  | object fields => .object (settledFields [] fields)
  | v => v

def settledItems : List JsonValue → List JsonValue
  | [] => []
  | v :: rest => settled v :: settledItems rest

def settledFields (done : List (String × JsonValue)) :
    List (String × JsonValue) → List (String × JsonValue)
  | [] => done
  | (key, v) :: rest => settledFields (insert key (settled v) done) rest

end

end JsonValue

-- Representations of a value by their media types, in the order of the types.
abbrev Bundle := List (String × JsonValue)

namespace Bundle

def plainType : String := "text/plain"

def imageType : String := "image/png"

def text (s : String) : Bundle := [(plainType, .string s)]

def image (data : String) : Bundle := [(imageType, .string data)]

def ofFields (fields : List (String × JsonValue)) : Bundle := JsonValue.settledFields [] fields

end Bundle
end NoteCell
