/-!
Data laid out over many lines, four columns deeper for every level.
-/
namespace NoteCell

inductive Dump where
  | atom (text : String)
  | record (name : String) (fields : List (String × Dump))
  | wrapped (name : String) (items : List Dump)
  | list (items : List Dump)

namespace Dump

def option : Option Dump → Dump
  | none => atom "None"
  | some d => wrapped "Some" [d]

def bool (b : Bool) : Dump := atom (if b then "true" else "false")

def pad (depth : Nat) : String := String.ofList (List.replicate (4 * depth) ' ')

-- What stands between brackets, the closing one on a line of its own.
def framed (depth : Nat) (opening inside closing : String) : String :=
  opening ++ "\n" ++ inside ++ pad depth ++ closing

mutual

-- The text of data that starts within a line of the given depth.
def text (depth : Nat) : Dump → String
  | atom s => s
  | record name fields => framed depth (name ++ " \x7b") (fieldsText (depth + 1) fields) "\x7d"
  | wrapped name items => framed depth (name ++ "(") (itemsText (depth + 1) items) ")"
  | list [] => "[]"
  | list (d :: items) => framed depth "[" (itemsText (depth + 1) (d :: items)) "]"

def fieldsText (depth : Nat) : List (String × Dump) → String
  | [] => ""
  | (name, d) :: rest =>
    pad depth ++ name ++ ": " ++ text depth d ++ ",\n" ++ fieldsText depth rest

def itemsText (depth : Nat) : List Dump → String
  | [] => ""
  | d :: rest => pad depth ++ text depth d ++ ",\n" ++ itemsText depth rest

end

end Dump
end NoteCell
