import NoteCell.Value.Heap

/-!
Going through the items of a value. A list is read place by place, so items put in meanwhile are
met; the items of other values are fixed when the iteration starts.
-/
namespace NoteCell

inductive Iteration where
  | items (rest : List Value)
  | list (id place : Nat)
  | range (next : Int64) (left : Nat) (step : Int64)
deriving DecidableEq

namespace Iteration

def characters (s : String) : List Value := s.toList.map fun c => .str (String.singleton c)

-- The iteration over a value, if it has one.
def of? (h : Heap) : Value → Option Iteration
  | .range r => some (range r.start r.length r.step)
  | .list id => some (list id 0)
  | .tuple id => some (items (h.tuple id).toList)
  | .str s => some (items (characters s))
  | .dict id => some (items ((h.dict id).map (·.1)))
  | _ => none

def of (h : Heap) (v : Value) : Attempt Iteration :=
  match of? h v with
  | some it => return it
  | none => .typeError ("'" ++ h.typeName v ++ "' object is not iterable")

def next? (h : Heap) : Iteration → Option (Value × Iteration)
  | items [] => none
  | items (v :: rest) => some (v, items rest)
  | list id place => (h.list id)[place]?.map fun v => (v, list id (place + 1))
  | range _ 0 _ => none
  | range next (left + 1) step => some (.int next, range (next + step) left step)

-- How many items are left as long as no list changes.
def left (h : Heap) : Iteration → Nat
  | items rest => rest.length
  | list id place => (h.list id).size - place
  | range _ left _ => left

theorem left_next? {h : Heap} {it rest : Iteration} {v : Value} (eq : it.next? h = some (v, rest)) :
    rest.left h < it.left h := by
  match it with
  | items [] => simp [next?] at eq
  | items (w :: ws) =>
    simp only [next?, Option.some.injEq, Prod.mk.injEq] at eq
    rw [← eq.2]
    simp [left]
  | list id place =>
    simp only [next?, Option.map_eq_some_iff, Prod.mk.injEq] at eq
    obtain ⟨w, got, -, rfl⟩ := eq
    have := (Array.getElem?_eq_some_iff.1 got).1
    simp only [left]
    omega
  | range _ 0 _ => simp [next?] at eq
  | range start (n + 1) step =>
    simp only [next?, Option.some.injEq, Prod.mk.injEq] at eq
    rw [← eq.2]
    simp [left]

-- Collects what is left, in order, after `done` in reverse.
def collectAfter (h : Heap) (done : List Value) (it : Iteration) : List Value :=
  match _eq : it.next? h with
  | none => done.reverse
  | some (v, rest) => collectAfter h (v :: done) rest
termination_by it.left h
decreasing_by exact left_next? _eq

def toList (h : Heap) (it : Iteration) : List Value := it.collectAfter h []

end Iteration

-- All items of a value.
def Heap.itemsOf (h : Heap) (v : Value) : Attempt (List Value) :=
  return (← Iteration.of h v).toList h

end NoteCell
