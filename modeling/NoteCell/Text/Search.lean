import NoteCell.Text.CharClass

/-!
Finding, splitting and trimming texts. An empty pattern is found before every character and at the
end; occurrences of others are taken from the left and do not overlap.
-/
namespace NoteCell.Search

def isInfix (needle : List Char) : List Char → Bool
  | [] => needle.isEmpty
  | c :: cs => needle.isPrefixOf (c :: cs) || isInfix needle cs

-- Puts a character in front of the first piece.
def extendFirst (c : Char) : List (List Char) → List (List Char)
  | [] => [[c]]
  | piece :: rest => (c :: piece) :: rest

-- The pieces between occurrences of a separator that is not empty; `skip` characters of an
-- occurrence are still to be left out.
def splitFrom (sep : List Char) : Nat → List Char → List (List Char)
  | _, [] => [[]]
  | skip + 1, _ :: cs => splitFrom sep skip cs
  | 0, c :: cs =>
    if sep.isPrefixOf (c :: cs) then [] :: splitFrom sep (sep.length - 1) cs
    else extendFirst c (splitFrom sep 0 cs)

def splitOn (sep text : List Char) : List (List Char) := splitFrom sep 0 text

def replace (old new text : List Char) : List Char :=
  if old.isEmpty then new ++ text.flatMap fun c => c :: new
  else List.intercalate new (splitOn old text)

def trimBy (p : Char → Bool) (text : List Char) : List Char :=
  ((text.dropWhile p).reverse.dropWhile p).reverse

def trim (text : List Char) : List Char := trimBy CharClass.isBlank text

-- The pieces between blanks.
def words (text : List Char) : List (List Char) :=
  (text.splitBy fun c d => CharClass.isBlank c == CharClass.isBlank d).filter fun piece =>
    !(piece.head?.any CharClass.isBlank)

end NoteCell.Search
