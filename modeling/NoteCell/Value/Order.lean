import NoteCell.Value.Equality

/-!
Order of values: numbers by value, texts by their characters, lists and tuples by the first items
that differ. What is not a number counts as equal to every number. Sorting keeps equal items in
place.
-/
namespace NoteCell

-- The first items that differ decide, then the lengths.
def orderItems (eq : Value → Value → Attempt Bool) (order : Value → Value → Attempt Ordering) :
    List Value → List Value → Attempt Ordering
  | a :: as, b :: bs => do if ← eq a b then orderItems eq order as bs else order a b
  | [], [] => return .eq
  | [], _ :: _ => return .lt
  | _ :: _, [] => return .gt

def orderTexts (s t : String) : Ordering := compare s t

namespace Heap

variable (h : Heap)

def unordered {α : Type} (op : CompareOp) (a b : Value) : Attempt α :=
  .typeError ("'" ++ op.text ++ "' not supported between instances of '" ++ h.typeName a
    ++ "' and '" ++ h.typeName b ++ "'")

def orderAt (op : CompareOp) : Nat → Value → Value → Attempt Ordering
  | 0, _, _ => .error .broken
  | fuel + 1, a, b =>
    match a.number?, b.number? with
    | some x, some y => return (x.compare? y).getD .eq
    | _, _ =>
      match a, b with
      | .str s, .str t => return orderTexts s t
      | .list i, .list j =>
        orderItems h.equals (orderAt op fuel) (h.list i).toList (h.list j).toList
      | .tuple i, .tuple j =>
        orderItems h.equals (orderAt op fuel) (h.tuple i).toList (h.tuple j).toList
      | a, b => h.unordered op a b

-- A walk down two values that ends meets no pair of containers twice.
def order (op : CompareOp) (a b : Value) : Attempt Ordering :=
  h.orderAt op ((h.size + 1) * (h.size + 1) + 1) a b

-- Puts an item into a row that is sorted from its end, comparing from there.
def insertSorted (before : Value → Value → Attempt Bool) (v : Value) :
    List Value → Attempt (List Value)
  | [] => return [v]
  | w :: rest => do
    if ← before v w then return w :: (← insertSorted before v rest) else return v :: w :: rest

def sortBy (before : Value → Value → Attempt Bool) (items : List Value) : Attempt (List Value) := do
  return (← items.foldlM (fun sorted v => insertSorted before v sorted) []).reverse

-- Whether `v` belongs before `w`, which stood in front of it.
def sortsBefore (reverse : Bool) (v w : Value) : Attempt Bool := do
  let o ← if reverse then h.order .less w v else h.order .less v w
  return o = .lt

def sorted (reverse : Bool) (items : List Value) : Attempt (List Value) :=
  sortBy (h.sortsBefore reverse) items

-- The first of the items that no other surpasses.
def extremum (op : CompareOp) (wanted : Ordering) (first : Value) (rest : List Value) :
    Attempt Value :=
  rest.foldlM (fun best v => do if (← h.order op v best) = wanted then return v else return best)
    first

end Heap
end NoteCell
