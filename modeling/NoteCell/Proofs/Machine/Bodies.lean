import Mathlib
import NoteCell.Machine.Builtins
import NoteCell.Machine.Libraries
import NoteCell.Machine.Methods

/-!
Heaps that differ in the bodies of functions only, and of calls of functions that wait to be
awaited, and in the cells that these calls were made for. No operation on values looks at those.
-/
namespace NoteCell

def Closure.mapBody (f : Stmt → Stmt) (c : Closure) : Closure := { c with body := c.body.map f }

def Work.mapBody (f : Stmt → Stmt) : Work → Work
  | input prompt => .input prompt
  | body context stmts => .body context (stmts.map f)
  | spent => .spent

def Coroutine.mapBody (f : Stmt → Stmt) (c : Coroutine) : Coroutine :=
  { c with work := c.work.mapBody f }

def Heap.mapBodies (f : Stmt → Stmt) (h : Heap) : Heap :=
  { h with
    closures := h.closures.map (Closure.mapBody f)
    coroutines := h.coroutines.map (Coroutine.mapBody f) }

/-! ### Bodies and cells -/

-- A change of bodies, and of the names of cells.
structure BodyChange where
  stmt : Stmt → Stmt
  cell : String → String

-- The bodies are changed only.
def BodyChange.ofStmt (f : Stmt → Stmt) : BodyChange := ⟨f, id⟩

def Context.mapCell (f : String → String) (c : Context) : Context := { c with cell := f c.cell }

def Work.mapWork (f : BodyChange) : Work → Work
  | input prompt => .input prompt
  | body context stmts => .body (context.mapCell f.cell) (stmts.map f.stmt)
  | spent => .spent

def Coroutine.mapWork (f : BodyChange) (c : Coroutine) : Coroutine :=
  { c with work := c.work.mapWork f }

def Heap.mapWork (f : BodyChange) (h : Heap) : Heap :=
  { h with
    closures := h.closures.map (Closure.mapBody f.stmt)
    coroutines := h.coroutines.map (Coroutine.mapWork f) }

theorem Heap.mapWork_ofStmt (f : Stmt → Stmt) (h : Heap) : h.mapWork (.ofStmt f) = h.mapBodies f := by
  have hwork : Coroutine.mapWork (.ofStmt f) = Coroutine.mapBody f := by
    funext c
    obtain ⟨name, work⟩ := c
    cases work <;> rfl
  rw [mapWork, mapBodies, hwork]
  rfl

variable (f : BodyChange) (h : Heap)

namespace Heap

@[simp]
theorem list_mapWork : (h.mapWork f).list = h.list := rfl

@[simp]
theorem tuple_mapWork : (h.mapWork f).tuple = h.tuple := rfl

@[simp]
theorem dict_mapWork : (h.mapWork f).dict = h.dict := rfl

@[simp]
theorem exception_mapWork : (h.mapWork f).exception = h.exception := rfl

@[simp]
theorem method_mapWork : (h.mapWork f).method = h.method := rfl

@[simp]
theorem library_mapWork : (h.mapWork f).library = h.library := rfl

@[simp]
theorem size_mapWork : (h.mapWork f).size = h.size := rfl

@[simp]
theorem closure_mapWork (id : Nat) :
    (h.mapWork f).closure id = (h.closure id).mapBody f.stmt := by
  simp only [closure, mapWork, Array.getD_eq_getD_getElem?, Array.getElem?_map]
  cases h.closures[id]? <;> rfl

@[simp]
theorem coroutine_mapWork (id : Nat) :
    (h.mapWork f).coroutine id = (h.coroutine id).mapWork f := by
  simp only [coroutine, mapWork, Array.getD_eq_getD_getElem?, Array.getElem?_map]
  cases h.coroutines[id]? <;> rfl

-- Names are looked up in scopes and nowhere else.
theorem binding?_congr {h h' : Heap} (hscopes : h'.scopes = h.scopes) (scope : Nat)
    (name : String) : h'.binding? scope name = h.binding? scope name := by
  induction scope using Nat.strongRecOn
  case ind scope ih =>
    rw [binding?, binding?, hscopes]
    split
    · rfl
    · split
      · rfl
      · split
        case isTrue hlt => exact ih _ hlt
        case isFalse => rfl
      · rfl

theorem binding?_mapWork (scope : Nat) (name : String) :
    (h.mapWork f).binding? scope name = h.binding? scope name :=
  binding?_congr (show (h.mapWork f).scopes = h.scopes from rfl) scope name

@[simp]
theorem typeName_mapWork : (h.mapWork f).typeName = h.typeName := by
  funext v
  cases v <;> rfl

@[simp]
theorem isTrue_mapWork : (h.mapWork f).isTrue = h.isTrue := by
  funext v
  cases v <;> rfl

theorem binding?_mapBodies (f : Stmt → Stmt) (scope : Nat) (name : String) :
    (h.mapBodies f).binding? scope name = h.binding? scope name := by
  rw [← mapWork_ofStmt, binding?_mapWork]

/-! ### Texts -/

@[simp]
theorem methodText_mapWork : (h.mapWork f).methodText = h.methodText := by
  funext m
  delta methodText
  rw [typeName_mapWork]

@[simp]
theorem plainText_mapWork : (h.mapWork f).plainText = h.plainText := by
  funext v
  delta plainText
  cases v <;> simp [Closure.mapBody, Coroutine.mapWork]

@[simp]
theorem reprAt_mapWork (room : Nat) : (h.mapWork f).reprAt room = h.reprAt room := by
  induction room
  case zero =>
    funext around v
    simp [reprAt]
  case succ room ih =>
    funext around v
    cases v <;> simp [reprAt, ih]

@[simp]
theorem repr_mapWork : (h.mapWork f).repr = h.repr := by
  funext v
  simp [repr]

@[simp]
theorem text_mapWork : (h.mapWork f).text = h.text := by
  funext v
  cases v <;> simp [text]

/-! ### Equality and keys -/

@[simp]
theorem equalsAt_mapWork (same : Value → Value → Bool) (room : Nat) :
    (h.mapWork f).equalsAt same room = h.equalsAt same room := by
  induction room
  case zero => rfl
  case succ room ih =>
    funext a b
    simp only [equalsAt, ih]
    rfl

@[simp]
theorem isHashableAt_mapWork (room : Nat) :
    (h.mapWork f).isHashableAt room = h.isHashableAt room := by
  induction room
  case zero =>
    funext v
    cases v <;> simp [isHashableAt]
  case succ room ih =>
    funext v
    cases v <;> simp [isHashableAt, ih]

@[simp]
theorem requireHashable_mapWork : (h.mapWork f).requireHashable = h.requireHashable := by
  funext v
  simp [requireHashable]

@[simp]
theorem digestAt_mapWork (room : Nat) : (h.mapWork f).digestAt room = h.digestAt room := by
  induction room
  case zero =>
    funext v
    cases v <;> simp [digestAt]
  case succ room ih =>
    funext v
    cases v <;> simp [digestAt, ih]

@[simp]
theorem digest_mapWork : (h.mapWork f).digest = h.digest := by
  funext v
  simp [digest]

@[simp]
theorem keysEqual_mapWork : (h.mapWork f).keysEqual = h.keysEqual := by
  funext a b
  delta keysEqual
  rw [equalsAt_mapWork]

@[simp]
theorem sameKey_mapWork : (h.mapWork f).sameKey = h.sameKey := by
  funext a b
  delta sameKey
  rw [digest_mapWork, keysEqual_mapWork]

@[simp]
theorem equals_mapWork : (h.mapWork f).equals = h.equals := by
  funext a b
  simp [equals]

@[simp]
theorem getKey?_mapWork : (h.mapWork f).getKey? = h.getKey? := by
  funext entries key
  simp [getKey?]

@[simp]
theorem hasKey_mapWork : (h.mapWork f).hasKey = h.hasKey := by
  funext entries key
  simp [hasKey]

@[simp]
theorem insertKey_mapWork : (h.mapWork f).insertKey = h.insertKey := by
  funext entries key value
  simp [insertKey]

/-! ### Order -/

@[simp]
theorem unordered_mapWork {α : Type} (op : CompareOp) (a b : Value) :
    ((h.mapWork f).unordered op a b : Attempt α) = h.unordered op a b := by
  simp [unordered]

@[simp]
theorem orderAt_mapWork (op : CompareOp) (fuel : Nat) :
    (h.mapWork f).orderAt op fuel = h.orderAt op fuel := by
  induction fuel
  case zero => rfl
  case succ fuel ih =>
    funext a b
    simp only [orderAt, ih, equals_mapWork, list_mapWork, tuple_mapWork, unordered_mapWork]

@[simp]
theorem order_mapWork : (h.mapWork f).order = h.order := by
  funext op a b
  simp [order]

@[simp]
theorem sorted_mapWork : (h.mapWork f).sorted = h.sorted := by
  have hbefore : (h.mapWork f).sortsBefore = h.sortsBefore := by
    funext reverse v w
    simp [sortsBefore]
  funext reverse items
  simp [sorted, hbefore]

@[simp]
theorem extremum_mapWork : (h.mapWork f).extremum = h.extremum := by
  funext op wanted first rest
  simp [extremum]

end Heap

/-! ### Iteration -/

namespace Iteration

@[simp]
theorem of?_mapWork : of? (h.mapWork f) = of? h := by
  funext v
  cases v <;> simp [of?]

@[simp]
theorem of_mapWork : Iteration.of (h.mapWork f) = Iteration.of h := by
  funext v
  simp [Iteration.of]

@[simp]
theorem next?_mapWork : next? (h.mapWork f) = next? h := by
  funext it
  match it with
  | items [] | items (_ :: _) | list .. | range _ 0 _ | range _ (_ + 1) _ => simp [next?]

@[simp]
theorem left_mapWork : left (h.mapWork f) = left h := by
  funext it
  cases it <;> simp [left]

theorem collectAfter_mapWork (done : List Value) (it : Iteration) :
    collectAfter (h.mapWork f) done it = collectAfter h done it := by
  induction done, it using collectAfter.induct h
  case case1 done it hnext =>
    rw [collectAfter, collectAfter]
    split <;> split <;> simp_all
  case case2 done it v rest hnext ih =>
    rw [collectAfter, collectAfter]
    split <;> split <;> simp_all

@[simp]
theorem toList_mapWork : toList (h.mapWork f) = toList h := by
  funext it
  exact collectAfter_mapWork f h [] it

end Iteration

@[simp]
theorem Heap.itemsOf_mapWork : (h.mapWork f).itemsOf = h.itemsOf := by
  funext v
  simp [itemsOf]

/-! ### Operations -/

namespace Operators

@[simp]
theorem anyEqual_mapWork : anyEqual (h.mapWork f) = anyEqual h := by
  funext item vs
  induction vs
  case nil => rfl
  case cons v vs ih => simp [anyEqual, ih]

@[simp]
theorem contains_mapWork : contains (h.mapWork f) = contains h := by
  funext container item
  delta contains
  simp only [anyEqual_mapWork, Heap.list_mapWork, Heap.tuple_mapWork, Heap.dict_mapWork,
    Heap.requireHashable_mapWork, Heap.hasKey_mapWork, Heap.typeName_mapWork]

@[simp]
theorem compare_mapWork : compare (h.mapWork f) = compare h := by
  funext op a b
  delta compare
  simp only [contains_mapWork, Heap.equals_mapWork, Heap.order_mapWork]

@[simp]
theorem sequenceIndex_mapWork : sequenceIndex (h.mapWork f) = sequenceIndex h := by
  funext container index
  delta sequenceIndex
  rw [Heap.typeName_mapWork]

@[simp]
theorem getItem_mapWork : getItem (h.mapWork f) = getItem h := by
  have hitem : itemAt (h.mapWork f) = itemAt h := by
    funext container index
    delta itemAt
    rw [sequenceIndex_mapWork]
  funext container index
  delta getItem
  simp only [hitem, Heap.list_mapWork, Heap.tuple_mapWork, Heap.dict_mapWork,
    Heap.requireHashable_mapWork, Heap.getKey?_mapWork, Heap.repr_mapWork,
    Heap.typeName_mapWork]

@[simp]
theorem unpack_mapWork : unpack (h.mapWork f) = unpack h := by
  funext v count
  delta unpack
  simp only [Iteration.of?_mapWork, Iteration.toList_mapWork, Heap.typeName_mapWork]

end Operators

namespace Builtins

@[simp]
theorem toInt_mapWork : toInt (h.mapWork f) = toInt h := by
  funext v
  delta toInt
  rw [Heap.typeName_mapWork]

@[simp]
theorem toFloat_mapWork : toFloat (h.mapWork f) = toFloat h := by
  funext v
  delta toFloat
  rw [Heap.typeName_mapWork]

@[simp]
theorem expectNumber_mapWork : expectNumber (h.mapWork f) = expectNumber h := by
  funext function v
  delta expectNumber
  rw [Heap.typeName_mapWork]

@[simp]
theorem expectIndex_mapWork : expectIndex (h.mapWork f) = expectIndex h := by
  funext v
  delta expectIndex
  rw [Heap.typeName_mapWork]

@[simp]
theorem len_mapWork : len (h.mapWork f) = len h := by
  have hlength : length? (h.mapWork f) = length? h := by
    funext v
    delta length?
    simp only [Heap.list_mapWork, Heap.tuple_mapWork, Heap.dict_mapWork]
  funext v
  delta len
  rw [hlength, Heap.typeName_mapWork]

@[simp]
theorem absolute_mapWork : absolute (h.mapWork f) = absolute h := by
  funext v
  delta absolute
  rw [Heap.typeName_mapWork]

@[simp]
theorem range_mapWork : range (h.mapWork f) = range h := by
  funext args
  delta range
  rw [expectIndex_mapWork]

@[simp]
theorem squareRoot_mapWork : squareRoot (h.mapWork f) = squareRoot h := by
  funext v
  delta squareRoot
  rw [expectNumber_mapWork]

@[simp]
theorem wholeBy_mapWork (name : String) (quotient : Int → Int → Int) :
    wholeBy name quotient (h.mapWork f) = wholeBy name quotient h := by
  funext v
  delta wholeBy
  rw [expectNumber_mapWork]

end Builtins

namespace Methods

theorem joinable_eq (place : Nat) (it : Iteration) :
    joinable h place it = match it.next? h with
      | none => .ok []
      | some (.str s, rest) => (joinable h (place + 1) rest).map (s :: ·)
      | some (v, _) =>
        .typeError
          (s!"sequence item {place}: expected str instance, " ++ h.typeName v ++ " found") := by
  rw [joinable]
  split <;> simp_all [Except.map, bind, Except.bind, pure, Except.pure]

@[simp]
theorem joinable_mapWork : joinable (h.mapWork f) = joinable h := by
  funext place it
  induction place, it using joinable.induct h
  all_goals
    rw [joinable_eq, joinable_eq, Iteration.next?_mapWork, Heap.typeName_mapWork]
    simp_all

end Methods

@[simp]
theorem Libraries.loaded?_mapWork : loaded? (h.mapWork f) = loaded? h := rfl

@[simp]
theorem Libraries.memberOf_mapWork : memberOf (h.mapWork f) = memberOf h := by
  funext l libraryName name
  delta memberOf
  simp only [Heap.library_mapWork, Heap.typeName_mapWork]

end NoteCell
