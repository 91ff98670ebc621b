import NoteCell.Proofs.Value.Equality

/-!
Displays: what the text of a value shows of it. A text opens a container and shows what it holds,
unless the container is open already or too many are; so no list or dict is shown inside itself. For
a value that holds nothing twice over on the way down, and does not nest too deeply, this is the
text that plain recursion writes, which keeps no account of what is open.
-/
namespace NoteCell

namespace Heap

variable (h : Heap)

-- What a container holds, in the order of its text.
def contents : Value → List Value
  | .dict id => (h.dict id).flatMap fun e => [e.1, e.2]
  | v => h.items v

-- Levels of containers, one in the other. What holds itself has more of them than any number.
def NestsAtMost : Nat → Value → Prop
  | 0, v => v.isLeaf
  | n + 1, v => ∀ w ∈ h.contents v, NestsAtMost n w

instance decidableNestsAtMost : (n : Nat) → (v : Value) → Decidable (h.NestsAtMost n v)
  | 0, v => inferInstanceAs (Decidable (v.isLeaf = true))
  | n + 1, v =>
    have := decidableNestsAtMost n
    inferInstanceAs (Decidable (∀ w ∈ h.contents v, h.NestsAtMost n w))

end Heap

/-! ### Texts of containers -/

namespace Display

-- Keys before their values.
def entryTexts : List String → List String
  | key :: value :: rest => (key ++ ": " ++ value) :: entryTexts rest
  | _ => []

-- The text of a container, from those of what it holds.
def enclosed (v : Value) (texts : List String) : String :=
  match v with
  | .tuple _ => Heap.tupleText texts
  | .dict _ => "\x7b" ++ Heap.commaSeparated (entryTexts texts) ++ "\x7d"
  | _ => "[" ++ Heap.commaSeparated texts ++ "]"

-- What stands for a list or dict that is open already.
def elided : Value → String
  | .dict _ => "\x7b...\x7d"
  | _ => "[...]"

theorem entryTexts_map (f : Value → String) (entries : Entries) :
    entryTexts ((entries.flatMap fun e => [e.1, e.2]).map f)
      = entries.map fun e => f e.1 ++ ": " ++ f e.2 := by
  induction entries
  case nil => rfl
  case cons e entries ih => exact congrArg (_ :: ·) ih

end Display

-- How a value is shown: by itself, as one that is open already, or with the displays of what it
-- holds.
inductive Display where
  | plain (v : Value)
  | again (v : Value)
  | opened (v : Value) (parts : List Display)

namespace Display

def value : Display → Value
  | plain v | again v | opened v _ => v

def text (h : Heap) : Display → String
  | plain v => h.plainText v
  | again v => elided v
  | opened v parts => enclosed v (parts.map (text h))

end Display

namespace Heap

open Display

-- A display that is right where the containers `around` are open, the innermost first.
inductive Shows (h : Heap) : List Value → Display → Prop
  | plain {around : List Value} {v : Value} (hv : v.isLeaf ∨ nestingLimit < around.length) :
    Shows h around (.plain v)
  | again {around : List Value} {v : Value} (hv : v.isMutable) (hopen : v ∈ around) :
    Shows h around (.again v)
  | opened {around : List Value} {v : Value} {parts : List Display} (hv : v.isLeaf = false)
    (hnew : v.isMutable → v ∉ around) (hroom : around.length ≤ nestingLimit)
    (hvalues : parts.map Display.value = h.contents v)
    (hparts : ∀ d ∈ parts, Shows h (v :: around) d) : Shows h around (.opened v parts)

-- How plain recursion writes a value down, with all that it holds. What holds itself gets no text.
inductive Prints (h : Heap) : Value → String → Prop
  | leaf {v : Value} (hv : v.isLeaf) : Prints h v (h.plainText v)
  | opened {v : Value} {f : Value → String} (hv : v.isLeaf = false)
    (hcontents : ∀ w ∈ h.contents v, Prints h w (f w)) :
    Prints h v (enclosed v ((h.contents v).map f))

variable {h : Heap} {v : Value} {around : List Value} {room n : Nat}

/-! ### Steps of the text -/

-- The lists and dicts that are open in a container.
def within (v : Value) (around : List Value) : List Value :=
  if v.isMutable then v :: around else around

theorem reprAt_zero (h : Heap) (around : List Value) (v : Value) :
    h.reprAt 0 around v = h.plainText v := by
  cases v <;> rfl

theorem reprAt_leaf (hv : v.isLeaf) (h : Heap) (room : Nat) (around : List Value) :
    h.reprAt room around v = h.plainText v := by
  cases room
  case zero => exact reprAt_zero h around v
  case succ =>
    cases v
    case list | tuple | dict => cases hv
    all_goals rfl

theorem reprAt_again (hv : v.isMutable) (hopen : v ∈ around) :
    h.reprAt (room + 1) around v = elided v := by
  have hcontains := List.contains_iff_mem.mpr hopen
  cases v
  case list | dict => exact if_pos hcontains
  all_goals cases hv

theorem reprAt_opened (hv : v.isLeaf = false) (hnew : v.isMutable → v ∉ around) :
    h.reprAt (room + 1) around v
      = enclosed v ((h.contents v).map (h.reprAt room (within v around))) := by
  have hcontains (hmutable : v.isMutable) : ¬ around.contains v :=
    mt List.contains_iff_mem.mp (hnew hmutable)
  cases v
  case list => rw [reprAt, if_neg (hcontains rfl)]; rfl
  case tuple => rfl
  case dict =>
    rw [reprAt, if_neg (hcontains rfl), enclosed, contents, entryTexts_map]
    rfl
  all_goals cases hv

/-! ### Nesting -/

theorem contents_leaf (hv : v.isLeaf) : h.contents v = [] := by
  cases v
  case list | tuple | dict => cases hv
  all_goals rfl

namespace NestsAtMost

theorem leaf (hv : v.isLeaf) (n : Nat) : h.NestsAtMost n v := by
  cases n
  case zero => exact hv
  case succ =>
    rw [NestsAtMost, contents_leaf hv]
    exact List.forall_mem_nil _

theorem succ (hv : h.NestsAtMost n v) : h.NestsAtMost (n + 1) v := by
  induction n generalizing v
  case zero => exact leaf hv 1
  case succ n ih => exact fun w hw => ih (hv w hw)

end NestsAtMost

theorem Prints.unique {s t : String} (hs : h.Prints v s) (ht : h.Prints v t) : s = t := by
  induction hs generalizing t
  case leaf hv =>
    cases ht with
    | leaf => rfl
    | opened hopen => cases hv.symm.trans hopen
  case opened hopen _ ih =>
    cases ht with
    | leaf hv => cases hv.symm.trans hopen
    | opened _ hcontents => rw [List.map_congr_left fun w hw => ih w hw (hcontents w hw)]

-- What is open around a value nests more deeply than the value does, so it is not met again.
theorem prints_reprAt (hv : h.NestsAtMost n v) (hroom : n ≤ room)
    (haround : ∀ u ∈ around, ¬ h.NestsAtMost n u) :
    h.Prints v (h.reprAt room around v) := by
  induction n generalizing v room around
  case zero =>
    rw [reprAt_leaf hv]
    exact .leaf hv
  case succ n ih =>
    have hdeeper : ∀ u ∈ around, ¬ h.NestsAtMost n u := fun u hu => mt .succ (haround u hu)
    by_cases hless : h.NestsAtMost n v
    case pos => exact ih hless (Nat.le_of_succ_le hroom) hdeeper
    case neg =>
      obtain ⟨room, rfl⟩ : ∃ k, room = k + 1 := ⟨room - 1, by omega⟩
      have hopen : v.isLeaf = false := Bool.eq_false_iff.mpr fun hleaf => hless (.leaf hleaf n)
      have hnew : v ∉ around := fun hmem => haround v hmem hv
      have hwithin : ∀ u ∈ within v around, ¬ h.NestsAtMost n u := by
        rw [within]
        split
        case isTrue => exact List.forall_mem_cons.mpr ⟨hless, hdeeper⟩
        case isFalse => exact hdeeper
      rw [reprAt_opened hopen fun _ => hnew]
      exact .opened hopen fun w hw => ih (hv w hw) (Nat.le_of_succ_le_succ hroom) hwithin

/-! ### What the text shows -/

theorem within_filter (v : Value) (around : List Value) :
    within v (around.filter (·.isMutable)) = (v :: around).filter (·.isMutable) :=
  List.filter_cons.symm

theorem exists_shows (h : Heap) (v : Value) (hroom : room + around.length = nestingLimit + 1) :
    ∃ d : Display, d.value = v ∧ h.Shows around d
      ∧ d.text h = h.reprAt room (around.filter (·.isMutable)) v := by
  induction room generalizing v around
  case zero => exact ⟨.plain v, rfl, .plain (.inr (by omega)), by rw [Display.text, reprAt_zero]⟩
  case succ room ih =>
    by_cases hleaf : v.isLeaf
    case pos => exact ⟨.plain v, rfl, .plain (.inl hleaf), by rw [Display.text, reprAt_leaf hleaf]⟩
    case neg =>
      by_cases hagain : v.isMutable ∧ v ∈ around
      case pos =>
        obtain ⟨hmutable, hmem⟩ := hagain
        have hopen : v ∈ around.filter (·.isMutable) := List.mem_filter.mpr ⟨hmem, hmutable⟩
        refine ⟨.again v, rfl, .again hmutable hmem, ?_⟩
        rw [Display.text, reprAt_again hmutable hopen]
      case neg =>
        have hopen := Bool.eq_false_iff.mpr hleaf
        have hnew : v.isMutable → v ∉ around := fun hmutable hmem => hagain ⟨hmutable, hmem⟩
        have hinner : room + (v :: around).length = nestingLimit + 1 := by
          rw [List.length_cons]
          omega
        choose part hvalue hshows htext using fun w => ih w hinner
        refine ⟨.opened v ((h.contents v).map part), rfl, .opened hopen hnew (by omega) ?_ ?_, ?_⟩
        · rw [List.map_map, funext hvalue (f := value ∘ part), List.map_id']
        · exact List.forall_mem_map.mpr fun w _ => hshows w
        · rw [Display.text, List.map_map, funext htext (f := Display.text h ∘ part),
            reprAt_opened hopen fun hmutable hmem => hnew hmutable (List.mem_filter.mp hmem).1,
            within_filter]

-- Every value has a text. It opens no list or dict inside itself and leaves nothing out but what is
-- open already or too deep, and it is the text of plain recursion wherever nothing is left out.
theorem repr_shows (h : Heap) (v : Value) :
    (∃ d : Display, d.value = v ∧ h.Shows [] d ∧ d.text h = h.repr v)
      ∧ (h.NestsAtMost (nestingLimit + 1) v → ∀ t, h.Prints v t ↔ t = h.repr v) := by
  refine ⟨h.exists_shows v rfl, fun hv t => ?_⟩
  have hprints : h.Prints v (h.repr v) :=
    prints_reprAt hv (Nat.le_refl _) (List.forall_mem_nil _)
  exact ⟨fun ht => ht.unique hprints, fun ht => ht ▸ hprints⟩

-- A list that is held three times, and one that holds itself.
def sharing : Heap :=
  { empty with
    lists := #[#[.int 1], #[.list 1, .list 0]]
    tuples := #[#[.list 0, .list 0, .dict 0]]
    dicts := #[[(.str "k", .list 0)]] }

theorem repr_shows_sharing :
    (∃ d : Display, d.value = .list 1 ∧ sharing.Shows [] d ∧ d.text sharing = "[[...], [1]]")
      ∧ sharing.NestsAtMost (nestingLimit + 1) (.tuple 0)
      ∧ sharing.Prints (.tuple 0) "([1], [1], \x7b'k': [1]\x7d)" := by
  have hlooped : sharing.repr (.list 1) = "[[...], [1]]" := by decide +kernel
  have hshared : sharing.repr (.tuple 0) = "([1], [1], \x7b'k': [1]\x7d)" := by decide +kernel
  have hnests : sharing.NestsAtMost (nestingLimit + 1) (.tuple 0) := by decide +kernel
  exact ⟨hlooped ▸ (repr_shows sharing (.list 1)).1, hnests,
    ((repr_shows sharing (.tuple 0)).2 hnests _).mpr hshared.symm⟩

end Heap

end NoteCell
