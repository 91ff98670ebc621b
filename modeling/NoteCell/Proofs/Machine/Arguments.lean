import NoteCell.Proofs.Machine.Moves

/-!
Arguments of calls. A call enters the body of a function in a scope that binds each parameter once.
Arguments that leave a parameter out, or are one too many for the parameters, are refused before that.
-/
namespace NoteCell

namespace Closure

variable (c : Closure) (args : Arguments)

def names : List String := c.params.map (·.1)

-- A name that is left for a keyword when the positional arguments have taken their parameters.
def Open (positional : List Value) (name : String) : Prop :=
  ∃ i ≥ positional.length, c.names[i]? = some name

-- Arguments that fill each parameter once, but for some that have defaults.
structure Accepts : Prop where
  fits : args.positional.length ≤ c.params.length
  known : ∀ keyword ∈ args.keywords, c.Open args.positional keyword.1
  complete : ∀ i ≥ args.positional.length, ∀ param, c.params[i]? = some param →
    param.1 ∉ args.keywords.map (·.1) → param.2.isSome

-- What the parameters are bound to: positional arguments from the first on, those given by name,
-- and defaults for the others.
structure Binds (bindings : List (String × Value)) : Prop where
  names : bindings.map (·.1) = c.names
  positional : (bindings.map (·.2)).take args.positional.length = args.positional
  keywords : args.keywords ⊆ bindings
  defaults : ∀ i ≥ args.positional.length, ∀ param, c.params[i]? = some param →
    param.1 ∉ args.keywords.map (·.1) → bindings[i]?.map (·.2) = param.2

end Closure

/-! ### Keywords -/

section

variable {α : Type} {pairs : List (String × α)} {key : String} {value : α}

theorem not_mem_of_nodup {p : String × α} {pairs' : List (String × α)}
    (h : ((pairs ++ [p] ++ pairs').map (·.1)).Nodup) : p.1 ∉ pairs.map (·.1) := by
  rw [List.map_append, List.map_append] at h
  exact fun hmem => List.disjoint_of_nodup_append h.of_append_left hmem (by simp)

theorem lookup?_append (pairs pairs' : List (String × α)) (key : String) :
    lookup? (pairs ++ pairs') key = (lookup? pairs key).or (lookup? pairs' key) := by
  rw [lookup?, List.find?_append, Option.map_or]
  rfl

theorem lookup?_eq_none_iff : lookup? pairs key = none ↔ key ∉ pairs.map (·.1) := by
  rw [lookup?, Option.map_eq_none_iff, List.find?_eq_none]
  simp only [decide_eq_true_eq, List.mem_map, not_exists, not_and]

theorem lookup?_of_mem (hnodup : (pairs.map (·.1)).Nodup) (h : (key, value) ∈ pairs) :
    lookup? pairs key = some value := by
  induction pairs with
  | nil => cases h
  | cons p pairs ih =>
    rw [List.map_cons, List.nodup_cons] at hnodup
    obtain rfl | h := List.mem_cons.mp h
    · simp [lookup?]
    · have hne : p.1 ≠ key := fun heq => hnodup.1 (heq ▸ List.mem_map_of_mem h)
      rw [lookup?, List.find?_cons_of_neg (by simpa using hne)]
      exact ih hnodup.2 h

end

namespace Closure

variable {c : Closure} {args : Arguments} {positional : List Value}
  {done rest : List (String × Value)} {keyword : String × Value}

-- The slots of the parameters behind some keywords.
def slots (c : Closure) (positional : List Value) (done : List (String × Value)) :
    List (Option Value) :=
  c.params.mapIdx fun i param => positional[i]?.or (lookup? done param.1)

theorem positionalSlots_eq (h : positional.length ≤ c.params.length) :
    c.positionalSlots positional = c.slots positional [] := by
  refine List.ext_getElem? fun i => ?_
  rw [positionalSlots, slots, List.getElem?_mapIdx, List.getElem?_append]
  split
  case isTrue hi =>
    rw [List.length_map] at hi
    rw [List.getElem?_eq_getElem (Nat.lt_of_lt_of_le hi h)]
    simp [lookup?, hi]
  case isFalse hi =>
    rw [List.length_map] at hi ⊢
    have hnone : positional[i]? = none := List.getElem?_eq_none (Nat.not_lt.mp hi)
    rw [List.getElem?_replicate, hnone]
    by_cases hlt : i < c.params.length
    · rw [List.getElem?_eq_getElem hlt, if_pos (by omega)]
      rfl
    · rw [List.getElem?_eq_none (Nat.not_lt.mp hlt), if_neg (by omega)]
      rfl

theorem getElem?_names {i : Nat} : c.names[i]? = c.params[i]?.map (·.1) := List.getElem?_map

-- The place of a parameter is the only one with its name.
theorem findIdx?_name (hnames : c.names.Nodup) {i : Nat} {name : String} (hi : c.names[i]? = some name) :
    c.params.findIdx? (·.1 = name) = some i := by
  obtain ⟨param, hparam, rfl⟩ := Option.map_eq_some_iff.mp (getElem?_names.symm.trans hi)
  obtain ⟨hlt, rfl⟩ := List.getElem?_eq_some_iff.mp hparam
  rw [List.findIdx?_eq_some_iff_getElem]
  refine ⟨hlt, by simp, fun j hj => ?_⟩
  have hne := List.pairwise_iff_getElem.mp hnames j i (by simpa [names] using hj.trans hlt)
    (by simpa [names] using hlt) hj
  simpa [names] using hne

theorem fillKeyword_open (hnames : c.names.Nodup) (hdone : keyword.1 ∉ done.map (·.1))
    (h : c.Open positional keyword.1) : c.fillKeyword (c.slots positional done) keyword
      = .ok (c.slots positional (done ++ [keyword])) := by
  obtain ⟨i, hle, hi⟩ := h
  obtain ⟨param, hparam, hname⟩ := Option.map_eq_some_iff.mp (getElem?_names.symm.trans hi)
  have hempty : (c.slots positional done)[i]? = some none := by
    rw [slots, List.getElem?_mapIdx, hparam, Option.map_some, List.getElem?_eq_none hle, hname,
      lookup?_eq_none_iff.mpr hdone]
    rfl
  rw [fillKeyword, findIdx?_name hnames hi]
  simp only [hempty]
  refine congrArg Except.ok (List.ext_getElem? fun j => ?_)
  rw [List.getElem?_set, slots, slots, List.length_mapIdx, List.getElem?_mapIdx, List.getElem?_mapIdx]
  split
  case isTrue hij =>
    subst hij
    obtain ⟨hlt, -⟩ := List.getElem?_eq_some_iff.mp hparam
    rw [if_pos hlt, hparam, Option.map_some, List.getElem?_eq_none hle, hname, lookup?_append,
      lookup?_eq_none_iff.mpr hdone]
    simp [lookup?]
  case isFalse hij =>
    cases hj : c.params[j]? with
    | none => rfl
    | some other =>
      have hne : keyword.1 ≠ other.1 := by
        intro heq
        have hj' : c.names[j]? = some keyword.1 := by rw [getElem?_names, hj, heq]; rfl
        exact hij (Option.some.inj ((findIdx?_name hnames hi).symm.trans (findIdx?_name hnames hj')))
      rw [Option.map_some, Option.map_some, lookup?_append]
      simp [lookup?, hne]

theorem fillKeyword_taken (h : ¬ c.Open positional keyword.1) :
    ∃ message, c.fillKeyword (c.slots positional done) keyword = .typeError message := by
  rw [fillKeyword]
  cases hfind : c.params.findIdx? (·.1 = keyword.1) with
  | none => exact ⟨_, rfl⟩
  | some i =>
    obtain ⟨hlt, hname, -⟩ := List.findIdx?_eq_some_iff_getElem.mp hfind
    have hi : c.names[i]? = some keyword.1 := by
      rw [getElem?_names, List.getElem?_eq_getElem hlt]
      simpa using hname
    have hpositional : i < positional.length := by
      rw [← Nat.not_le]
      exact fun hle => h ⟨i, hle, hi⟩
    have hslot : (c.slots positional done)[i]? = some (some positional[i]) := by
      simp [slots, hlt, hpositional]
    simp only [hslot]
    exact ⟨_, rfl⟩

theorem foldlM_open (hnames : c.names.Nodup) (hnodup : ((done ++ rest).map (·.1)).Nodup)
    (h : ∀ keyword ∈ rest, c.Open positional keyword.1) :
    rest.foldlM c.fillKeyword (c.slots positional done) = .ok (c.slots positional (done ++ rest)) := by
  induction rest generalizing done with
  | nil => rw [List.append_nil]; rfl
  | cons keyword rest ih =>
    obtain ⟨hkeyword, hrest⟩ := List.forall_mem_cons.mp h
    rw [List.append_cons] at hnodup ⊢
    rw [List.foldlM_cons, fillKeyword_open hnames (not_mem_of_nodup hnodup) hkeyword]
    exact ih hnodup hrest

theorem foldlM_taken (hnames : c.names.Nodup) (hnodup : ((done ++ rest).map (·.1)).Nodup)
    (h : ¬ ∀ keyword ∈ rest, c.Open positional keyword.1) :
    ∃ message, rest.foldlM c.fillKeyword (c.slots positional done) = .typeError message := by
  induction rest generalizing done with
  | nil => exact absurd (List.forall_mem_nil _) h
  | cons keyword rest ih =>
    rw [List.append_cons] at hnodup
    by_cases hkeyword : c.Open positional keyword.1
    case neg =>
      obtain ⟨message, hfill⟩ := @fillKeyword_taken c positional done keyword hkeyword
      exact ⟨message, by rw [List.foldlM_cons, hfill]; rfl⟩
    case pos =>
      obtain ⟨message, hfold⟩ := ih hnodup fun hrest => h (List.forall_mem_cons.mpr ⟨hkeyword, hrest⟩)
      refine ⟨message, ?_⟩
      rw [List.foldlM_cons, fillKeyword_open hnames (not_mem_of_nodup hnodup) hkeyword]
      exact hfold

/-! ### Bindings -/

-- What a call has for the parameter at a place.
def given? (args : Arguments) (i : Nat) (param : String × Option Value) : Option Value :=
  (args.positional[i]?.or (lookup? args.keywords param.1)).or param.2

theorem filled_slots (c : Closure) (args : Arguments) :
    c.filled (c.slots args.positional args.keywords)
      = c.params.mapIdx fun i param => (param.1, given? args i param) := by
  refine List.ext_getElem? fun i => ?_
  rw [filled, slots, List.getElem?_map, List.zip, List.getElem?_zipWith, List.getElem?_mapIdx,
    List.getElem?_mapIdx]
  cases c.params[i]? <;> rfl

theorem isSome_given? (h : c.Accepts args) {i : Nat} {param : String × Option Value}
    (hparam : c.params[i]? = some param) : (given? args i param).isSome := by
  rw [given?]
  by_cases hi : i < args.positional.length
  case pos => simp [hi]
  case neg =>
    rw [List.getElem?_eq_none (Nat.not_lt.mp hi), Option.none_or]
    cases hlookup : lookup? args.keywords param.1 with
    | some v => rfl
    | none =>
      rw [Option.none_or]
      exact h.complete i (Nat.not_lt.mp hi) param hparam (lookup?_eq_none_iff.mp hlookup)

-- Pairs whose values are all there.
theorem exists_values {pairs : List (String × Option Value)} (h : ∀ p ∈ pairs, p.2.isSome) :
    ∃ bindings : List (String × Value), pairs = bindings.map fun b => (b.1, some b.2) := by
  induction pairs with
  | nil => exact ⟨[], rfl⟩
  | cons p pairs ih =>
    obtain ⟨hp, hpairs⟩ := List.forall_mem_cons.mp h
    obtain ⟨v, hv⟩ := Option.isSome_iff_exists.mp hp
    obtain ⟨bindings, rfl⟩ := ih hpairs
    exact ⟨(p.1, v) :: bindings, by rw [List.map_cons, ← hv]⟩

theorem binds_of_given? (h : c.Accepts args) (hkeywords : (args.keywords.map (·.1)).Nodup)
    {bindings : List (String × Value)} (hbindings : c.params.mapIdx (fun i param =>
      (param.1, given? args i param)) = bindings.map fun b => (b.1, some b.2)) :
    c.Binds args bindings := by
  have hplace (i : Nat) {param : String × Option Value} (hparam : c.params[i]? = some param) :
      ∃ v, bindings[i]? = some (param.1, v) ∧ given? args i param = some v := by
    have hi := congrArg (·[i]?) hbindings
    simp only [List.getElem?_mapIdx, hparam, List.getElem?_map, Option.map_some] at hi
    obtain ⟨b, hb, heq⟩ := Option.map_eq_some_iff.mp hi.symm
    obtain ⟨hname, hvalue⟩ := Prod.mk.inj heq
    exact ⟨b.2, by rw [hb, ← hname], hvalue.symm⟩
  have hlength : bindings.length = c.params.length := by
    simpa using (congrArg List.length hbindings).symm
  refine ⟨?_, ?_, fun keyword hkeyword => ?_, fun i hle param hparam hfree => ?_⟩
  · refine List.ext_getElem? fun i => ?_
    rw [getElem?_names, List.getElem?_map]
    cases hparam : c.params[i]? with
    | none =>
      rw [List.getElem?_eq_none_iff] at hparam
      rw [List.getElem?_eq_none (hlength ▸ hparam)]
      rfl
    | some param =>
      obtain ⟨v, hb, -⟩ := hplace i hparam
      rw [hb]
      rfl
  · refine List.ext_getElem? fun i => ?_
    rw [List.getElem?_take]
    split
    case isFalse hi => exact (List.getElem?_eq_none (Nat.not_lt.mp hi)).symm
    case isTrue hi =>
      obtain ⟨v, hb, hv⟩ := hplace i (List.getElem?_eq_getElem (hi.trans_le h.fits))
      rw [given?, List.getElem?_eq_getElem hi] at hv
      rw [List.getElem?_map, hb, List.getElem?_eq_getElem hi]
      exact hv.symm
  · obtain ⟨i, hle, hi⟩ := h.known keyword hkeyword
    obtain ⟨param, hparam, hname⟩ := Option.map_eq_some_iff.mp (getElem?_names.symm.trans hi)
    obtain ⟨v, hb, hv⟩ := hplace i hparam
    rw [given?, List.getElem?_eq_none hle, hname, lookup?_of_mem hkeywords hkeyword] at hv
    obtain rfl : keyword.2 = v := Option.some.inj hv
    rw [hname] at hb
    exact List.mem_of_getElem? hb
  · obtain ⟨v, hb, hv⟩ := hplace i hparam
    rw [given?, List.getElem?_eq_none hle, lookup?_eq_none_iff.mpr hfree] at hv
    rw [hb]
    exact hv.symm

theorem bindArguments_eq {filled : List (Option Value)} (hfits : args.positional.length ≤ c.params.length)
    (hfold : args.keywords.foldlM c.fillKeyword (c.slots args.positional []) = .ok filled) :
    c.bindArguments args = match ((c.filled filled).filter (·.2.isNone)).map (·.1) with
      | [] => .ok ((c.filled filled).filterMap fun (name, v) => v.map fun v => (name, v))
      | missing => .typeError (c.missingText missing) := by
  rw [bindArguments, if_neg (Nat.not_lt.mpr hfits), positionalSlots_eq hfits, hfold]
  rfl

theorem bindArguments_of_accepts (hnames : c.names.Nodup)
    (hkeywords : (args.keywords.map (·.1)).Nodup) (h : c.Accepts args) :
    ∃ bindings, c.bindArguments args = .ok bindings ∧ c.Binds args bindings := by
  have hgiven : ∀ p ∈ c.params.mapIdx fun i param => (param.1, given? args i param), p.2.isSome := by
    intro p hp
    obtain ⟨i, hi⟩ := List.mem_iff_getElem?.mp hp
    rw [List.getElem?_mapIdx] at hi
    obtain ⟨param, hparam, rfl⟩ := Option.map_eq_some_iff.mp hi
    exact isSome_given? h hparam
  obtain ⟨bindings, hbindings⟩ := exists_values hgiven
  refine ⟨bindings, ?_, binds_of_given? h hkeywords hbindings⟩
  rw [bindArguments_eq h.fits (foldlM_open hnames hkeywords h.known), List.nil_append, filled_slots,
    hbindings]
  have hmissing : (bindings.map fun b => (b.1, some b.2)).filter (·.2.isNone) = [] :=
    List.filter_eq_nil_iff.mpr (List.forall_mem_map.mpr fun b _ => Bool.false_ne_true)
  rw [hmissing]
  simp

-- A parameter that nothing is left for.
theorem missing_of_not_accepts (hfits : args.positional.length ≤ c.params.length)
    (hknown : ∀ keyword ∈ args.keywords, c.Open args.positional keyword.1) (h : ¬ c.Accepts args) :
    ((c.filled (c.slots args.positional args.keywords)).filter (·.2.isNone)).map (·.1) ≠ [] := by
  obtain ⟨i, hle, param, hparam, hfree, hnone⟩ : ∃ i ≥ args.positional.length, ∃ param,
      c.params[i]? = some param ∧ param.1 ∉ args.keywords.map (·.1) ∧ param.2 = none := by
    by_contra hcomplete
    push Not at hcomplete
    exact h ⟨hfits, hknown, fun i hle param hparam hfree =>
      Option.isSome_iff_ne_none.mpr (hcomplete i hle param hparam hfree)⟩
  have hgiven : given? args i param = none := by
    rw [given?, List.getElem?_eq_none hle, lookup?_eq_none_iff.mpr hfree, hnone]
    rfl
  have hmem : (param.1, none) ∈ c.filled (c.slots args.positional args.keywords) := by
    rw [filled_slots, ← hgiven]
    refine List.mem_of_getElem? (i := i) ?_
    rw [List.getElem?_mapIdx, hparam]
    rfl
  exact List.ne_nil_of_mem (List.mem_map_of_mem (List.mem_filter.mpr ⟨hmem, rfl⟩))

theorem bindArguments_of_not_accepts (hnames : c.names.Nodup)
    (hkeywords : (args.keywords.map (·.1)).Nodup) (h : ¬ c.Accepts args) :
    ∃ message, c.bindArguments args = .typeError message := by
  by_cases hfits : args.positional.length ≤ c.params.length
  case neg => exact ⟨_, by rw [bindArguments, if_pos (Nat.lt_of_not_le hfits)]⟩
  case pos =>
    by_cases hknown : ∀ keyword ∈ args.keywords, c.Open args.positional keyword.1
    case neg =>
      obtain ⟨message, hfold⟩ : ∃ message, args.keywords.foldlM c.fillKeyword
          (c.slots args.positional []) = .typeError message := foldlM_taken hnames hkeywords hknown
      refine ⟨message, ?_⟩
      rw [bindArguments, if_neg (Nat.not_lt.mpr hfits), positionalSlots_eq hfits, hfold]
      rfl
    case pos =>
      have hmissing := missing_of_not_accepts hfits hknown h
      rw [bindArguments_eq hfits (foldlM_open hnames hkeywords hknown), List.nil_append]
      split
      case h_1 hnil => exact absurd hnil hmissing
      case h_2 => exact ⟨_, rfl⟩

end Closure

/-! ### Scopes of calls -/

theorem assign_of_new {α : Type} {pairs : List (String × α)} {key : String} (value : α)
    (h : key ∉ pairs.map (·.1)) : assign pairs key value = pairs ++ [(key, value)] := by
  induction pairs with
  | nil => rfl
  | cons p pairs ih =>
    rw [List.map_cons, List.mem_cons, not_or] at h
    rw [assign, if_neg (Ne.symm h.1), ih h.2, List.cons_append]

theorem Heap.bind_push (h : Heap) (scopes : Array Scope) (s : Scope) (name : String) (v : Value) :
    ({ h with scopes := scopes.push s } : Heap).bind scopes.size name v
      = { h with scopes := scopes.push { s with bindings := assign s.bindings name v } } := by
  have hscopes : (scopes.push s).modify scopes.size
      (fun s => { s with bindings := assign s.bindings name v })
        = scopes.push { s with bindings := assign s.bindings name v } := by
    refine Array.ext (by simp) fun i hi _ => ?_
    rw [Array.getElem_modify, Array.getElem_push, Array.getElem_push]
    rw [Array.size_modify, Array.size_push] at hi
    split
    case isTrue heq => rw [dif_neg (by omega), dif_neg (by omega)]
    case isFalse hne => rw [dif_pos (by omega), dif_pos (by omega)]
  rw [bind, hscopes]

-- Names that differ stand in a new scope as they are bound.
theorem Heap.foldl_bind_push (h : Heap) (scopes : Array Scope) (outer : Option Nat)
    (done : List (String × Value)) {bindings : List (String × Value)}
    (hnodup : ((done ++ bindings).map (·.1)).Nodup) :
    bindings.foldl (fun h p => h.bind scopes.size p.1 p.2) { h with scopes := scopes.push ⟨done, outer⟩ }
      = { h with scopes := scopes.push ⟨done ++ bindings, outer⟩ } := by
  induction bindings generalizing done with
  | nil => rw [List.append_nil]; rfl
  | cons p bindings ih =>
    rw [List.append_cons] at hnodup ⊢
    rw [List.foldl_cons, bind_push, assign_of_new p.2 (not_mem_of_nodup hnodup)]
    exact ih _ hnodup

theorem World.entered_eq (world : World) (outer : Nat) {bindings : List (String × Value)}
    (h : (bindings.map (·.1)).Nodup) : world.entered outer bindings
      = { world with heap := { world.heap with
          scopes := world.heap.scopes.push ⟨bindings, some outer⟩ } } := by
  rw [World.entered, Heap.foldl_bind_push world.heap world.heap.scopes (some outer) [] h]
  rfl

/-! ### Calls -/

namespace Machine

variable {m : Machine} {c : Closure} {args : Arguments}

-- The machine that has entered a call. The body is to run in the new scope, at once or when it is
-- awaited.
def enterScope (m : Machine) (c : Closure) (scope : Scope) : Machine :=
  let heap := m.world.heap
  let context : Context := ⟨heap.scopes.size, m.context.depth + 1, m.context.cell⟩
  let entered := { m with
    world := { m.world with heap := { heap with scopes := heap.scopes.push scope } } }
  if c.isAsync then entered.giveBy (.newCoroutine ⟨c.name, .body context c.body⟩)
  else entered.runBody context c.body

theorem callClosure_ok (hdepth : m.context.depth < depthLimit) {bindings : List (String × Value)}
    (hbindings : (bindings.map (·.1)).Nodup) (h : c.bindArguments args = .ok bindings) :
    m.callClosure c args = m.enterScope c ⟨bindings, some c.scope⟩ := by
  obtain ⟨control, frames, context, world⟩ := m
  have hrun := run_enter context c args world
  rw [if_neg (Nat.not_le.mpr hdepth), h] at hrun
  dsimp only at hrun
  rw [World.entered_eq world c.scope hbindings] at hrun
  simp only [callClosure, act, hrun]
  rfl

theorem callClosure_error (hdepth : m.context.depth < depthLimit) {f : Failure}
    (h : c.bindArguments args = .error f) : m.callClosure c args = m.fail f := by
  obtain ⟨control, frames, context, world⟩ := m
  have hrun := run_enter context c args world
  rw [if_neg (Nat.not_le.mpr hdepth), h] at hrun
  simp only [callClosure, act, hrun]
  rfl

theorem run_raise (m : Machine) (kind : ExnKind) (message : String) (fuel : Nat) :
    run fuel (m.raise kind message) = m.raise kind message := by
  cases fuel <;> rfl

theorem raise_ne_enterScope {kind : ExnKind} {message : String} {scope : Scope} :
    m.raise kind message ≠ m.enterScope c scope := by
  intro h
  have hcontrol := congrArg control h
  rw [enterScope] at hcontrol
  split at hcontrol <;> cases hcontrol

-- A call enters the body just when its arguments suit the parameters, and the scope then has the
-- parameters and nothing else. All other calls end in an error there and then.
theorem callClosure_binds (hnames : c.names.Nodup) (hkeywords : (args.keywords.map (·.1)).Nodup)
    (hdepth : m.context.depth < depthLimit) :
    ((∃ scope, m.callClosure c args = m.enterScope c scope) ↔ c.Accepts args)
      ∧ (c.Accepts args → ∃ bindings, c.Binds args bindings
        ∧ m.callClosure c args = m.enterScope c ⟨bindings, some c.scope⟩)
      ∧ (¬ c.Accepts args → ∃ message, ∀ fuel,
        run fuel (m.callClosure c args) = m.raise .typeError message) := by
  have haccepts (h : c.Accepts args) : ∃ bindings, c.Binds args bindings
      ∧ m.callClosure c args = m.enterScope c ⟨bindings, some c.scope⟩ := by
    obtain ⟨bindings, hbind, hbinds⟩ := Closure.bindArguments_of_accepts hnames hkeywords h
    exact ⟨bindings, hbinds, callClosure_ok hdepth (hbinds.names ▸ hnames) hbind⟩
  have hrefuses (h : ¬ c.Accepts args) :
      ∃ message, m.callClosure c args = m.raise .typeError message := by
    obtain ⟨message, hbind⟩ := Closure.bindArguments_of_not_accepts hnames hkeywords h
    exact ⟨message, callClosure_error hdepth hbind⟩
  refine ⟨⟨fun ⟨scope, hscope⟩ => ?_, fun h => ?_⟩, haccepts, fun h => ?_⟩
  · by_contra h
    obtain ⟨message, hraise⟩ := hrefuses h
    exact raise_ne_enterScope (hraise.symm.trans hscope)
  · obtain ⟨bindings, -, hcall⟩ := haccepts h
    exact ⟨_, hcall⟩
  · obtain ⟨message, hraise⟩ := hrefuses h
    exact ⟨message, fun fuel => hraise ▸ run_raise m .typeError message fuel⟩

-- Two of three parameters have defaults, and the call names the last of them.
theorem callClosure_binds_defaults :
    let c : Closure := ⟨"f", [("a", none), ("b", some (.int 1)), ("c", some (.int 2))], [], 0, false⟩
    let m := start [] "c1" ⟨.empty, [], false⟩
    c.names.Nodup ∧ m.context.depth < depthLimit
      ∧ (∃ bindings, c.Binds ⟨[.int 7], [("c", .int 9)]⟩ bindings
        ∧ m.callClosure c ⟨[.int 7], [("c", .int 9)]⟩ = m.enterScope c ⟨bindings, some 0⟩)
      ∧ ∃ message, ∀ fuel, run fuel (m.callClosure c ⟨[.int 7], [("a", .int 9)]⟩)
        = m.raise .typeError message := by
  intro c m
  have hnames : c.names.Nodup := by decide
  have hdepth : m.context.depth < depthLimit := by decide
  have haccepts : c.Accepts ⟨[.int 7], [("c", .int 9)]⟩ := by
    refine ⟨by decide, List.forall_mem_singleton.mpr ⟨2, by decide, rfl⟩, fun i hi param hparam _ => ?_⟩
    match i, hi with
    | 1, _ | 2, _ =>
      cases hparam
      rfl
    | i + 3, _ => cases hparam
  have htaken : ¬ c.Accepts ⟨[.int 7], [("a", .int 9)]⟩ := by
    intro h
    obtain ⟨i, hi, hname⟩ := h.known _ (List.mem_singleton_self _)
    match i, hi with
    | 1, _ | 2, _ => exact absurd hname (by decide)
    | i + 3, _ => cases hname
  exact ⟨hnames, hdepth, (callClosure_binds hnames (by decide) hdepth).2.1 haccepts,
    (callClosure_binds hnames (by decide) hdepth).2.2 htaken⟩

end Machine
end NoteCell
