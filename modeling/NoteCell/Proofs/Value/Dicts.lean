import Mathlib.Data.List.Find
import Mathlib.Data.List.Induction
import NoteCell.Proofs.Machine.Actions
import NoteCell.Proofs.Value.Equality
import NoteCell.Proofs.Value.Iterations

/-!
Dicts as maps from keys up to equality, in the order in which the keys first came. Keys that nest as
deep as they may and one level deeper than values are compared are put in and never found.
-/
namespace NoteCell

/-! ### Rows without repetitions -/

section

variable {α : Type} {r : α → α → Bool} {as : List α} {a : α}

theorem loop_concat (as kept : List α) : List.eraseDupsBy.loop r (as ++ [a]) kept
    = if (List.eraseDupsBy.loop r as kept).any (r a) then List.eraseDupsBy.loop r as kept
      else List.eraseDupsBy.loop r as kept ++ [a] := by
  induction as generalizing kept
  case nil =>
    simp only [List.nil_append, List.eraseDupsBy.loop, List.any_reverse]
    cases kept.any (r a) <;> simp
  case cons b as ih =>
    rw [List.cons_append, List.eraseDupsBy.loop, List.eraseDupsBy.loop]
    cases kept.any (r b) <;> exact ih _

theorem eraseDupsBy_concat : (as ++ [a]).eraseDupsBy r
    = if (as.eraseDupsBy r).any (r a) then as.eraseDupsBy r else as.eraseDupsBy r ++ [a] :=
  loop_concat as []

theorem mem_of_mem_eraseDupsBy {b : α} (hb : b ∈ as.eraseDupsBy r) : b ∈ as := by
  induction as using List.reverseRecOn
  case nil => exact hb
  case append_singleton as a ih =>
    rw [eraseDupsBy_concat] at hb
    split at hb
    · exact List.mem_append_left _ (ih hb)
    · exact (List.mem_append.mp hb).elim (fun hb => List.mem_append_left _ (ih hb))
        (List.mem_append_right _)

-- What is left out is represented by something before it.
theorem exists_mem_eraseDupsBy {b : α} (hb : b ∈ as) :
    ∃ c ∈ as.eraseDupsBy r, c = b ∨ r b c := by
  induction as using List.reverseRecOn
  case nil => cases hb
  case append_singleton as a ih =>
    rw [eraseDupsBy_concat]
    rcases List.mem_append.mp hb with hb | hb
    · obtain ⟨c, hc, hbc⟩ := ih hb
      refine ⟨c, ?_, hbc⟩
      split
      · exact hc
      · exact List.mem_append_left _ hc
    · obtain rfl := List.mem_singleton.mp hb
      split
      case isTrue hany =>
        obtain ⟨c, hc, hbc⟩ := List.any_eq_true.mp hany
        exact ⟨c, hc, .inr hbc⟩
      case isFalse => exact ⟨b, List.mem_append_right _ hb, .inl rfl⟩

theorem pairwise_eraseDupsBy : (as.eraseDupsBy r).Pairwise fun a b => r b a = false := by
  induction as using List.reverseRecOn
  case nil => exact .nil
  case append_singleton as a ih =>
    rw [eraseDupsBy_concat]
    split
    · exact ih
    case isFalse hany =>
      refine List.pairwise_append.mpr ⟨ih, List.pairwise_singleton _ _, fun c hc b hb => ?_⟩
      obtain rfl := List.mem_singleton.mp hb
      simp only [List.any_eq_true, not_exists, not_and, Bool.not_eq_true] at hany
      exact hany c hc

end

/-! ### Entries -/

namespace Entries

-- The value that came last under a key.
def last? (same : Value → Value → Bool) (inserts : List (Value × Value)) (key : Value) :
    Option Value :=
  (inserts.findRev? fun p => same p.1 key).map (·.2)

variable {same : Value → Value → Bool} {inserts : List (Value × Value)} {entries : Entries}
  {key value : Value}

theorem last?_concat (p : Value × Value) : last? same (inserts ++ [p]) key
    = if same p.1 key then some p.2 else last? same inserts key := by
  rw [last?, last?, List.findRev?_eq_find?_reverse, List.findRev?_eq_find?_reverse,
    List.reverse_append, List.reverse_singleton, List.singleton_append, List.find?_cons]
  cases same p.1 key <;> rfl

theorem last?_eq_none (hnone : ∀ p ∈ inserts, ¬ same p.1 key) : last? same inserts key = none := by
  rw [last?, List.findRev?_eq_find?_reverse, Option.map_eq_none_iff, List.find?_eq_none]
  exact fun p hp => hnone p (List.mem_reverse.mp hp)

theorem last?_congr {other : Value} (hsame : ∀ p ∈ inserts, same p.1 key = same p.1 other) :
    last? same inserts key = last? same inserts other := by
  rw [last?, last?, List.findRev?_eq_find?_reverse, List.findRev?_eq_find?_reverse,
    List.find?_congr fun p hp => hsame p (List.mem_reverse.mp hp)]

theorem map_fst_insert : (Entries.insert same key value entries).map (·.1)
    = if (entries.map (·.1)).any (same · key) then entries.map (·.1)
      else entries.map (·.1) ++ [key] := by
  induction entries
  case nil => rfl
  case cons e rest ih =>
    rw [Entries.insert, List.map_cons, List.any_cons]
    cases same e.1 key with
    | true => rfl
    | false =>
      rw [if_neg (by decide), List.map_cons, ih, Bool.false_or]
      split <;> rfl

-- What was put in is found under its key if that key is the same as itself, or as one before it.
theorem find?_insert : Entries.find? same (Entries.insert same key value entries) key
    = if entries.any (same ·.1 key) || same key key then some value else none := by
  induction entries
  case nil =>
    rw [Entries.insert, Entries.find?, List.find?_singleton]
    cases same key key <;> rfl
  case cons e rest ih =>
    rw [Entries.insert, List.any_cons]
    cases hsame : same e.1 key with
    | true =>
      rw [if_pos rfl, Entries.find?, List.find?_cons, hsame]
      rfl
    | false =>
      rw [if_neg (by decide), Entries.find?, List.find?_cons, hsame]
      exact ih

theorem insert_congr {same' : Value → Value → Bool} (hsame : ∀ a, same a key = same' a key) :
    Entries.insert same key value entries = Entries.insert same' key value entries := by
  induction entries
  case nil => rfl
  case cons e rest ih => rw [Entries.insert, Entries.insert, hsame, ih]

end Entries

-- Being the same is an equivalence of keys.
structure KeyLaws (same : Value → Value → Bool) (isKey : Value → Prop) : Prop where
  refl {a : Value} : isKey a → same a a
  symm {a b : Value} : isKey a → isKey b → same a b → same b a
  trans {a b c : Value} : isKey a → isKey b → isKey c → same a b → same b c → same a c

namespace Entries

-- At most one entry is changed.
theorem mem_insert {same : Value → Value → Bool} {isKey : Value → Prop} (laws : KeyLaws same isKey)
    {entries : Entries} (hentries : ∀ e ∈ entries, isKey e.1) {key value : Value}
    (hkey : isKey key) (hpairwise : entries.Pairwise fun e f => same e.1 f.1 = false)
    {e : Value × Value} (he : e ∈ Entries.insert same key value entries) :
    (same key e.1 ∧ e.2 = value) ∨ (same key e.1 = false ∧ e ∈ entries) := by
  induction entries
  case nil =>
    obtain rfl := List.mem_singleton.mp he
    exact .inl ⟨laws.refl hkey, rfl⟩
  case cons c rest ih =>
    obtain ⟨hc, hrest⟩ := List.forall_mem_cons.mp hentries
    obtain ⟨hpc, hprest⟩ := List.pairwise_cons.mp hpairwise
    rw [Entries.insert] at he
    split at he
    case isTrue hsame =>
      rcases List.mem_cons.mp he with rfl | he
      · exact .inl ⟨laws.symm hc hkey hsame, rfl⟩
      · refine .inr ⟨Bool.eq_false_iff.mpr fun hother => ?_, List.mem_cons_of_mem _ he⟩
        have hce := laws.trans hc hkey (hrest e he) hsame hother
        rw [hpc e he] at hce
        cases hce
    case isFalse hother =>
      rcases List.mem_cons.mp he with rfl | he
      · exact .inr ⟨Bool.eq_false_iff.mpr fun hsame => hother (laws.symm hkey hc hsame),
          List.mem_cons_self⟩
      · exact (ih hrest hprest he).imp_right fun h => ⟨h.1, List.mem_cons_of_mem _ h.2⟩

-- The keys are the first ones to come, each with the value that came last.
structure Keeps (same : Value → Value → Bool) (inserts : List (Value × Value)) (entries : Entries) :
    Prop where
  keys : entries.map (·.1) = (inserts.map (·.1)).eraseDupsBy fun key first => same first key
  values : ∀ e ∈ entries, last? same inserts e.1 = some e.2

theorem keeps_nil (same : Value → Value → Bool) : Keeps same [] [] :=
  ⟨rfl, List.forall_mem_nil _⟩

namespace Keeps

variable {same : Value → Value → Bool} {isKey : Value → Prop} {inserts : List (Value × Value)}
  {entries : Entries} {key value : Value}

section

variable (hk : Keeps same inserts entries)

include hk

theorem isKey_of_mem (hinserts : ∀ p ∈ inserts, isKey p.1) : ∀ e ∈ entries, isKey e.1 := by
  intro e he
  have hmem : e.1 ∈ entries.map (·.1) := List.mem_map_of_mem he
  rw [hk.keys] at hmem
  obtain ⟨p, hp, heq⟩ := List.mem_map.mp (mem_of_mem_eraseDupsBy hmem)
  exact heq ▸ hinserts p hp

theorem pairwise : entries.Pairwise fun e f => same e.1 f.1 = false := by
  have hpairwise : (entries.map (·.1)).Pairwise fun a b => same a b = false := by
    rw [hk.keys]
    exact pairwise_eraseDupsBy
  exact List.pairwise_map.mp hpairwise

variable (laws : KeyLaws same isKey) (hinserts : ∀ p ∈ inserts, isKey p.1) (hkey : isKey key)

include laws hinserts hkey

theorem exists_mem_iff : (∃ e ∈ entries, same e.1 key) ↔ ∃ p ∈ inserts, same p.1 key := by
  have hmem : (∃ e ∈ entries, same e.1 key) ↔ ∃ c ∈ entries.map (·.1), same c key := by simp
  rw [hmem, hk.keys]
  constructor
  · rintro ⟨c, hc, hsame⟩
    obtain ⟨p, hp, rfl⟩ := List.mem_map.mp (mem_of_mem_eraseDupsBy hc)
    exact ⟨p, hp, hsame⟩
  · rintro ⟨p, hp, hsame⟩
    obtain ⟨c, hc, rfl | hcp⟩ := exists_mem_eraseDupsBy
      (r := fun key first => same first key) (List.mem_map_of_mem (f := (·.1)) hp)
    · exact ⟨p.1, hc, hsame⟩
    · obtain ⟨q, hq, rfl⟩ := List.mem_map.mp (mem_of_mem_eraseDupsBy hc)
      exact ⟨q.1, hc, laws.trans (hinserts q hq) (hinserts p hp) hkey hcp hsame⟩

theorem find?_eq : Entries.find? same entries key = last? same inserts key := by
  rw [Entries.find?]
  cases hfind : List.find? (fun e => same e.1 key) entries with
  | none =>
    have hnone : ¬ ∃ e ∈ entries, same e.1 key := by simpa using hfind
    rw [hk.exists_mem_iff laws hinserts hkey] at hnone
    exact (last?_eq_none fun p hp hsame => hnone ⟨p, hp, hsame⟩).symm
  | some e =>
    have he := List.mem_of_find?_eq_some hfind
    have hsame : same e.1 key := List.find?_some (p := fun e : Value × Value => same e.1 key) hfind
    have hekey := hk.isKey_of_mem hinserts e he
    rw [Option.map_some, ← hk.values e he]
    refine last?_congr fun p hp => Bool.eq_iff_iff.mpr ⟨fun hpe => ?_, fun hpkey => ?_⟩
    · exact laws.trans (hinserts p hp) hekey hkey hpe hsame
    · exact laws.trans (hinserts p hp) hkey hekey hpkey (laws.symm hekey hkey hsame)

theorem insert :
    Keeps same (inserts ++ [(key, value)]) (Entries.insert same key value entries) := by
  constructor
  case keys =>
    rw [map_fst_insert, List.map_append, List.map_singleton, eraseDupsBy_concat, hk.keys]
  case values =>
    intro e he
    rw [last?_concat]
    obtain ⟨hsame, hvalue⟩ | ⟨hother, he⟩ :=
      mem_insert laws (hk.isKey_of_mem hinserts) hkey hk.pairwise he
    · rw [if_pos hsame, hvalue]
    · rw [if_neg (Bool.eq_false_iff.mp hother), hk.values e he]

end

end Keeps
end Entries

/-! ### Keys -/

namespace Heap

variable {h : Heap} {a b key value : Value} {entries : Entries}

-- What can be a key, holds no NaN and does not nest deeper than values are compared.
structure IsKey (h : Heap) (v : Value) : Prop where
  hashable : h.requireHashable v = .ok ()
  defined : h.Throughout (·.isNaN = false) v
  nests : h.NestsWithin nestingLimit v

theorem isKey_iff : h.IsKey a ↔ h.requireHashable a = .ok () ∧ h.Throughout (·.isNaN = false) a
    ∧ h.NestsWithin nestingLimit a :=
  ⟨fun ha => ⟨ha.hashable, ha.defined, ha.nests⟩, fun ⟨hhashable, hdefined, hnests⟩ =>
    ⟨hhashable, hdefined, hnests⟩⟩

theorem isKey_of_items_isLeaf (hhashable : h.requireHashable a = .ok ()) (ha : a.isNaN = false)
    (hitems : ∀ w ∈ h.items a, w.isLeaf ∧ w.isNaN = false) : h.IsKey a where
  hashable := hhashable
  defined := .of_items_isLeaf ha hitems
  nests := .of_items fun w hw => .of_items_eq_nil (items_eq_nil_of_isLeaf (hitems w hw).1)

theorem IsKey.frozen (ha : h.IsKey a) : h.Throughout (·.isMutable = false) a :=
  throughout_of_hashable ha.hashable

-- Whether two values are found equal. A comparison that fails has not found them equal.
def isEqual (h : Heap) (a b : Value) : Bool := h.equals a b = .ok true

theorem keyLaws (h : Heap) : KeyLaws h.isEqual h.IsKey where
  refl ha := decide_eq_true (equalsAt_self ha.defined ha.nests)
  symm ha _ hab := by
    refine decide_eq_true (Eq.trans ?_ (of_decide_eq_true hab))
    exact (equalsAt_comm (ha.frozen.imp fun _ => isDict_eq_false)).symm
  trans _ hb hc hab hbc := by
    refine decide_eq_true ?_
    exact equalsAt_trans hb.frozen hc.frozen (of_decide_eq_true hab) (of_decide_eq_true hbc)

-- Keys are compared without a failure, equality is an equivalence of them, and equal keys have the
-- same digest.
theorem equals_equivalence (h : Heap) :
    (∀ a b, h.IsKey a → h.IsKey b → ∃ r, h.equals a b = .ok r)
    ∧ Equivalence (fun a b : { v // h.IsKey v } => h.equals a b = .ok true)
    ∧ ∀ a b, h.requireHashable b = .ok () → h.equals a b = .ok true → h.digest a = h.digest b := by
  refine ⟨fun a b ha _ => equalsAt_returns ha.frozen ha.nests, ⟨?_, ?_, ?_⟩, ?_⟩
  · exact fun a => of_decide_eq_true (h.keyLaws.refl a.2)
  · exact fun {a b} hab => of_decide_eq_true (h.keyLaws.symm a.2 b.2 (decide_eq_true hab))
  · exact fun {a b c} hab hbc => of_decide_eq_true
      (h.keyLaws.trans a.2 b.2 c.2 (decide_eq_true hab) (decide_eq_true hbc))
  · exact fun a b hb hab => digestAt_eq hb hab

theorem equals_equivalence_mixed :
    let h : Heap := { Heap.empty with
      tuples := #[#[.bool true, .float (-0.0)], #[.int 1, .bool false], #[.float 1.0, .int 0]] }
    h.IsKey (.tuple 0) ∧ h.IsKey (.tuple 2) ∧ h.equals (.tuple 0) (.tuple 2) = .ok true
      ∧ h.digest (.tuple 0) = h.digest (.tuple 2) := by
  intro h
  have hkey : ∀ v ∈ [Value.tuple 0, .tuple 1, .tuple 2], h.IsKey v := by
    have hparts : ∀ v ∈ [Value.tuple 0, .tuple 1, .tuple 2], h.requireHashable v = .ok ()
        ∧ v.isNaN = false ∧ ∀ w ∈ h.items v, w.isLeaf ∧ w.isNaN = false := by decide +kernel
    exact fun v hv => isKey_of_items_isLeaf (hparts v hv).1 (hparts v hv).2.1 (hparts v hv).2.2
  have hfirst : h.IsKey (.tuple 0) := hkey _ (by decide)
  have hlast : h.IsKey (.tuple 2) := hkey _ (by decide)
  obtain ⟨-, hequivalence, hdigest⟩ := equals_equivalence h
  have hleft : h.equals (.tuple 0) (.tuple 1) = .ok true := by decide +kernel
  have hright : h.equals (.tuple 1) (.tuple 2) = .ok true := by decide +kernel
  have heq : h.equals (.tuple 0) (.tuple 2) = .ok true :=
    @Equivalence.trans _ _ hequivalence ⟨.tuple 0, hfirst⟩ ⟨.tuple 1, hkey _ (by decide)⟩
      ⟨.tuple 2, hlast⟩ hleft hright
  exact ⟨hfirst, hlast, heq, hdigest _ _ hlast.hashable heq⟩

theorem equals_eq_false (ha : h.IsKey a) (hab : h.isEqual a b = false) :
    h.equals a b = .ok false := by
  obtain ⟨r, hr⟩ : ∃ r, h.equals a b = .ok r := equalsAt_returns ha.frozen ha.nests
  cases r with
  | false => exact hr
  | true => exact absurd hr (of_decide_eq_false hab)

theorem sameKey_eq (hb : h.requireHashable b = .ok ()) : h.sameKey a b = h.isEqual a b := by
  rw [Bool.eq_iff_iff, sameKey_iff hb, isEqual, decide_eq_true_iff]

theorem insertKey_eq (hkey : h.requireHashable key = .ok ()) :
    h.insertKey entries key value = .ok (Entries.insert h.isEqual key value entries) := by
  rw [insertKey, hkey, ← Entries.insert_congr fun _ => sameKey_eq hkey]
  rfl

theorem getKey?_eq (hkey : h.requireHashable key = .ok ()) :
    h.getKey? entries key = Entries.find? h.isEqual entries key := by
  simp only [getKey?, Entries.find?, sameKey_eq hkey]

/-! ### Dicts of the heap -/

section

variable {dicts : Array Entries}

theorem part_withDicts {depth : Nat} {v u : Value} :
    { h with dicts }.Part depth v u ↔ h.Part depth v u := by
  constructor
  · intro hu
    induction hu with
    | self v => exact .self v
    | item hw _ ih => exact .item hw ih
  · intro hu
    induction hu with
    | self v => exact .self v
    | item hw _ ih => exact .item hw ih

theorem isHashableAt_withDicts (room : Nat) (v : Value) :
    { h with dicts }.isHashableAt room v = h.isHashableAt room v := by
  induction room generalizing v
  case zero => cases v <;> rfl
  case succ room ih =>
    cases v
    case tuple i => exact congrArg (List.forM (h.tuple i).toList) (funext ih)
    all_goals rfl

theorem requireHashable_withDicts (v : Value) :
    { h with dicts }.requireHashable v = h.requireHashable v :=
  isHashableAt_withDicts _ v

theorem isKey_withDicts : { h with dicts }.IsKey a ↔ h.IsKey a := by
  simp only [isKey_iff, Throughout, NestsWithin, part_withDicts, requireHashable_withDicts]

theorem isEqual_withDicts (hb : h.IsKey b) : { h with dicts }.isEqual a b = h.isEqual a b := by
  have hdicts : h.Throughout (·.isDict = false) b := hb.frozen.imp fun _ => isDict_eq_false
  have hdicts' : { h with dicts }.Throughout (·.isDict = false) b :=
    (isKey_withDicts.mpr hb).frozen.imp fun _ => isDict_eq_false
  have heq : { h with dicts }.equals a b = h.equals a b := by
    calc { h with dicts }.equals a b = { h with dicts }.equals b a := (equalsAt_comm hdicts').symm
      _ = h.equals a b := equalsAt_withDicts dicts hdicts
  rw [isEqual, isEqual, heq]

end

-- Entries as a map from keys up to equality, in the order of their first coming.
structure IsMapOf (h : Heap) (inserts : List (Value × Value)) (entries : Entries) : Prop where
  keys : entries.map (·.1)
    = (inserts.map (·.1)).eraseDupsBy fun key first => h.equals first key = .ok true
  values : ∀ e ∈ entries, Entries.last? h.isEqual inserts e.1 = some e.2
  distinct : entries.Pairwise fun e f => h.equals e.1 f.1 = .ok false
  get : ∀ key, h.IsKey key → h.getKey? entries key = Entries.last? h.isEqual inserts key
  has : ∀ key, h.IsKey key →
    (h.hasKey entries key ↔ ∃ p ∈ inserts, h.equals p.1 key = .ok true)

theorem isMapOf_of_keeps {inserts : List (Value × Value)}
    (hinserts : ∀ p ∈ inserts, h.IsKey p.1) (hk : Entries.Keeps h.isEqual inserts entries) :
    h.IsMapOf inserts entries where
  keys := hk.keys
  values := hk.values
  distinct := by
    refine hk.pairwise.imp_of_mem fun he _ hdistinct => ?_
    exact equals_eq_false (hk.isKey_of_mem hinserts _ he) hdistinct
  get key hkey := by
    rw [getKey?_eq hkey.hashable, hk.find?_eq h.keyLaws hinserts hkey]
  has key hkey := by
    have hmem := hk.exists_mem_iff h.keyLaws hinserts hkey
    simp only [isEqual, decide_eq_true_iff] at hmem
    rw [hasKey_iff hkey.hashable, hmem]

/-! ### Keys that nest too deeply -/

-- Tuples that each hold the one before, up from `None`.
def tower (height : Nat) : Heap :=
  { empty with
    tuples := Array.ofFn fun i : Fin height => #[if i.val = 0 then .nothing else .tuple (i - 1)] }

section

variable {height i : Nat}

theorem mem_items_tower {w : Value} (hi : i < height) :
    w ∈ (tower height).items (.tuple i) ↔ w = if i = 0 then .nothing else .tuple (i - 1) := by
  have htuple : (tower height).tuple i = #[if i = 0 then .nothing else .tuple (i - 1)] := by
    rw [tuple, Array.getD_eq_getD_getElem?]
    simp [tower, hi]
  rw [items, htuple]
  exact List.mem_singleton

theorem isHashableAt_tower {room : Nat} (hi : i < height) (hroom : i < room) :
    (tower height).isHashableAt room (.tuple i) = .ok () := by
  induction i generalizing room
  case zero =>
    obtain ⟨room, rfl⟩ := Nat.exists_eq_add_of_lt hroom
    refine Attempt.forM_eq_ok_iff.mpr fun w hw => ?_
    obtain rfl := (mem_items_tower hi).mp hw
    cases room <;> rfl
  case succ i ih =>
    obtain ⟨room, rfl⟩ := Nat.exists_eq_add_of_lt hroom
    refine Attempt.forM_eq_ok_iff.mpr fun w hw => ?_
    obtain rfl := (mem_items_tower hi).mp hw
    exact ih (by omega) (by omega)

theorem throughout_tower (hi : i < height) :
    (tower height).Throughout (·.isNaN = false) (.tuple i) := by
  induction i
  case zero =>
    refine .of_items rfl fun w hw => ?_
    obtain rfl := (mem_items_tower hi).mp hw
    exact .of_items rfl (List.forall_mem_nil _)
  case succ i ih =>
    refine .of_items rfl fun w hw => ?_
    obtain rfl := (mem_items_tower hi).mp hw
    exact ih (by omega)

theorem not_nestsWithin_zero_tower (hi : i < height) :
    ¬ (tower height).NestsWithin 0 (.tuple i) := by
  intro hnests
  have hmem := (mem_items_tower hi).mpr rfl
  rw [hnests.items_eq_nil] at hmem
  cases hmem

theorem nestsWithin_tower_iff {limit : Nat} (hi : i < height) :
    (tower height).NestsWithin limit (.tuple i) ↔ i < limit := by
  obtain _ | limit := limit
  · exact ⟨fun hnests => absurd hnests (not_nestsWithin_zero_tower hi), nofun⟩
  induction i generalizing limit
  case zero =>
    refine ⟨fun _ => limit.succ_pos, fun _ => .of_items fun w hw => ?_⟩
    obtain rfl := (mem_items_tower hi).mp hw
    exact .of_items_eq_nil rfl
  case succ i ih =>
    have hbelow : (tower height).NestsWithin limit (.tuple i) ↔ i < limit := by
      obtain _ | limit := limit
      · exact ⟨fun hnests => absurd hnests (not_nestsWithin_zero_tower (by omega)), nofun⟩
      · exact ih (by omega) limit
    rw [Nat.succ_lt_succ_iff, ← hbelow]
    refine ⟨fun hnests => hnests.item ((mem_items_tower hi).mpr rfl), fun hnests => ?_⟩
    refine .of_items fun w hw => ?_
    obtain rfl := (mem_items_tower hi).mp hw
    exact hnests

end

-- Keys are compared up to the nesting limit, and may hold what stands one level deeper. Such a key
-- is put in and never found.
theorem lookup_inserted (h : Heap) :
    (∀ a, h.requireHashable a = .ok () → h.NestsWithin (nestingLimit + 1) a)
    ∧ (∀ a b, h.requireHashable a = .ok () → h.requireHashable b = .ok () →
      (h.NestsWithin nestingLimit a ∨ h.NestsWithin nestingLimit b) → ∃ r, h.equals a b = .ok r)
    ∧ ∀ key, h.requireHashable key = .ok () → h.Throughout (·.isNaN = false) key →
      (¬ h.NestsWithin nestingLimit key →
        h.equals key key = .raise .recursion "maximum recursion depth exceeded in comparison")
      ∧ ∀ entries value, ∃ entries', h.insertKey entries key value = .ok entries'
        ∧ (h.NestsWithin nestingLimit key → h.getKey? entries' key = some value)
        ∧ (¬ h.NestsWithin nestingLimit key → h.getKey? entries' key = none) := by
  refine ⟨fun a => nestsWithin_of_hashable, ?_, ?_⟩
  · intro a b ha hb hnests
    rcases hnests with hnests | hnests
    · exact equalsAt_returns (throughout_of_hashable ha) hnests
    · have hdicts : h.Throughout (·.isDict = false) b :=
        (throughout_of_hashable hb).imp fun _ => isDict_eq_false
      obtain ⟨r, hr⟩ : ∃ r, h.equals b a = .ok r :=
        equalsAt_returns (throughout_of_hashable hb) hnests
      exact ⟨r, (equalsAt_comm hdicts).symm.trans hr⟩
  · intro key hkey hdefined
    have hfrozen : h.Throughout (·.isMutable = false) key := throughout_of_hashable hkey
    refine ⟨equalsAt_self_error hfrozen hdefined, fun entries value => ?_⟩
    refine ⟨_, insertKey_eq hkey, fun hnests => ?_, fun hdeep => ?_⟩
    · have hself : h.isEqual key key := h.keyLaws.refl ⟨hkey, hdefined, hnests⟩
      rw [getKey?_eq hkey, Entries.find?_insert, hself, Bool.or_true, if_pos rfl]
    · have hother : ∀ a, h.isEqual a key = false := fun a =>
        decide_eq_false fun heq => hdeep (nestsWithin_of_equalsAt hfrozen heq)
      rw [getKey?_eq hkey, Entries.find?_insert]
      simp [hother]

theorem lookup_inserted_tower :
    (tower 501).equals (.tuple 500) (.tuple 500)
        = .raise .recursion "maximum recursion depth exceeded in comparison"
      ∧ (∃ entries, (tower 501).insertKey [] (.tuple 500) (.bool true) = .ok entries
        ∧ (tower 501).getKey? entries (.tuple 500) = none)
      ∧ (∃ r, (tower 501).equals (.tuple 499) (.tuple 500) = .ok r)
      ∧ ∃ entries, (tower 501).insertKey [] (.tuple 499) (.bool true) = .ok entries
        ∧ (tower 501).getKey? entries (.tuple 499) = some (.bool true) := by
  have hhashable : ∀ i, i < 501 → (tower 501).requireHashable (.tuple i) = .ok () :=
    fun i hi => isHashableAt_tower hi hi
  have hshallow : (tower 501).NestsWithin nestingLimit (.tuple 499) :=
    (nestsWithin_tower_iff (by decide)).mpr (by decide)
  have hdeep : ¬ (tower 501).NestsWithin nestingLimit (.tuple 500) :=
    mt (nestsWithin_tower_iff (by decide)).mp (by decide)
  obtain ⟨-, hreturns, hkeys⟩ := lookup_inserted (tower 501)
  obtain ⟨hraises, hdeepKey⟩ :=
    hkeys _ (hhashable 500 (by decide)) (throughout_tower (by decide))
  obtain ⟨-, hshallowKey⟩ := hkeys _ (hhashable 499 (by decide)) (throughout_tower (by decide))
  obtain ⟨entries, hinsert, -, hlost⟩ := hdeepKey [] (.bool true)
  obtain ⟨entries', hinsert', hfound, -⟩ := hshallowKey [] (.bool true)
  exact ⟨hraises hdeep, ⟨entries, hinsert, hlost hdeep⟩,
    hreturns _ _ (hhashable 499 (by decide)) (hhashable 500 (by decide)) (.inl hshallow),
    entries', hinsert', hfound hshallow⟩

end Heap

/-! ### Listing -/

namespace Methods

theorem run_mapM_newTuple (entries : Entries) (w : World) :
    (entries.mapM fun e => Action.newTuple #[e.1, e.2]).run.run w
      = (.ok ((List.range' w.heap.tuples.size entries.length).map .tuple),
        { w with heap := { w.heap with
          tuples := w.heap.tuples ++ (entries.map fun e => #[e.1, e.2]).toArray } }) := by
  induction entries generalizing w
  case nil =>
    rw [List.map_nil, Array.append_empty]
    rfl
  case cons e entries ih =>
    have htuples : ∀ rows : List (Array Value), w.heap.tuples.push #[e.1, e.2] ++ rows.toArray
        = w.heap.tuples ++ (#[e.1, e.2] :: rows).toArray := by simp
    rw [List.mapM_cons, Action.run_bind, Action.newTuple, Action.run_make]
    dsimp only
    rw [Action.run_bind, ih]
    dsimp only
    rw [htuples, Array.size_push]
    rfl

-- A method that is called without arguments gives a list.
def Gives (m : BoundMethod) (w : World) (p : Heap → List Value → Prop) : Prop :=
  ∃ i w', (call m ⟨[], []⟩).run.run w = (.ok (.list i), w') ∧ p w'.heap (w'.heap.items (.list i))

theorem items_push_list (h : Heap) (row : Array Value) :
    { h with lists := h.lists.push row }.items (.list h.lists.size) = row.toList := by
  simp [Heap.items, Heap.list]

theorem map_items_append (h : Heap) (rows : List (Array Value)) :
    (List.range' h.tuples.size rows.length).map
      (fun id => { h with tuples := h.tuples ++ rows.toArray }.items (.tuple id))
      = rows.map Array.toList := by
  refine List.ext_getElem (by simp) fun i _ hi => ?_
  rw [List.length_map] at hi
  simp [Heap.items, Heap.tuple, hi]

-- What a dict lists: its keys, its values, and both as pairs.
structure Lists (w : World) (id : Nat) (entries : Entries) : Prop where
  keys : Gives ⟨.dict id, "keys"⟩ w fun _ items => items = entries.map (·.1)
  values : Gives ⟨.dict id, "values"⟩ w fun _ items => items = entries.map (·.2)
  items : Gives ⟨.dict id, "items"⟩ w fun h items =>
    items.map h.items = entries.map fun e => [e.1, e.2]

theorem lists_dict (w : World) (id : Nat) : Lists w id (w.heap.dict id) where
  keys := ⟨_, _, rfl, items_push_list _ _⟩
  values := ⟨_, _, rfl, items_push_list _ _⟩
  items := by
    have hrun : (call ⟨.dict id, "items"⟩ ⟨[], []⟩).run.run w
        = ((w.heap.dict id).mapM (fun e => Action.newTuple #[e.1, e.2])
          >>= fun row => Action.newList row.toArray).run.run w := rfl
    rw [Action.run_bind, run_mapM_newTuple] at hrun
    refine ⟨_, _, hrun, ?_⟩
    have hrows := map_items_append w.heap ((w.heap.dict id).map fun e => #[e.1, e.2])
    rw [List.length_map, List.map_map] at hrows
    rw [items_push_list]
    dsimp only
    rw [List.map_map]
    exact hrows

end Methods

/-! ### Putting items in -/

namespace Operators

open Heap

-- `d[key] = value` for pair after pair. What fails is passed over.
def setItems (id : Nat) (pairs : List (Value × Value)) (w : World) : World :=
  pairs.foldl (fun w p => ((setItem (.dict id) p.1 p.2).run.run w).2) w

variable {h : Heap} {w : World} {id : Nat} {key value : Value}

theorem run_setItem_dict : (setItem (.dict id) key value).run.run w
    = match w.heap.insertKey (w.heap.dict id) key value with
      | .ok entries => (.ok (), { w with heap := { w.heap with
          dicts := w.heap.dicts.modify id fun _ => entries } })
      | .error f => (.error f, w) := by
  rw [setItem, Action.run_bind]
  change (Action.lift (w.heap.insertKey (w.heap.dict id) key value)
    >>= fun entries => Action.setDict id entries).run.run w = _
  rw [Action.run_bind]
  cases w.heap.insertKey (w.heap.dict id) key value <;> rfl

theorem run_setItem_of_error {f : Failure} (hkey : w.heap.requireHashable key = .error f) :
    (setItem (.dict id) key value).run.run w = (.error f, w) := by
  have hinsert : w.heap.insertKey (w.heap.dict id) key value = .error f := by
    rw [insertKey, hkey]
    rfl
  rw [run_setItem_dict, hinsert]

-- A world with some heap but for its dicts, one of which keeps what was put in.
structure Keeping (h : Heap) (id : Nat) (inserts : List (Value × Value)) (w : World) : Prop where
  heap : w.heap = { h with dicts := w.heap.dicts }
  stands : id < w.heap.dicts.size
  keys : ∀ p ∈ inserts, h.IsKey p.1
  keeps : Entries.Keeps h.isEqual inserts (w.heap.dict id)

-- The pairs with keys that can be keys.
def accepted (h : Heap) (pairs : List (Value × Value)) : List (Value × Value) :=
  pairs.filter fun p => h.requireHashable p.1 = .ok ()

theorem Keeping.setItem {inserts : List (Value × Value)} (hw : Keeping h id inserts w)
    {p : Value × Value} (hp : h.requireHashable p.1 = .ok () → h.IsKey p.1) :
    Keeping h id (inserts ++ accepted h [p]) ((setItem (.dict id) p.1 p.2).run.run w).2 := by
  obtain ⟨heap, effects, hasHost⟩ := w
  obtain ⟨hheap, hid, hkeys, hkeeps⟩ := hw
  dsimp only at hheap hid hkeeps
  generalize heap.dicts = dicts at hheap hid
  subst hheap
  cases hhashable : h.requireHashable p.1 with
  | error f =>
    have haccepted : accepted h [p] = [] := by simp [accepted, hhashable]
    have herror : { h with dicts }.requireHashable p.1 = .error f :=
      (requireHashable_withDicts p.1).trans hhashable
    rw [run_setItem_of_error herror, haccepted, List.append_nil]
    exact ⟨rfl, hid, hkeys, hkeeps⟩
  | ok =>
    have hkey : h.IsKey p.1 := hp hhashable
    have haccepted : accepted h [p] = [p] := by simp [accepted, hhashable]
    have hinserted : { h with dicts }.insertKey ({ h with dicts }.dict id) p.1 p.2 = _ :=
      insertKey_eq ((requireHashable_withDicts p.1).trans hhashable)
    rw [Entries.insert_congr fun _ => isEqual_withDicts hkey] at hinserted
    rw [run_setItem_dict, hinserted, haccepted]
    refine ⟨rfl, (Array.size_modify ..).symm ▸ hid, ?_, ?_⟩
    · exact List.forall_mem_append.mpr ⟨hkeys, List.forall_mem_singleton.mpr hkey⟩
    · have hdict : (dicts.modify id fun _ => Entries.insert h.isEqual p.1 p.2
          ({ h with dicts }.dict id)).getD id []
          = Entries.insert h.isEqual p.1 p.2 ({ h with dicts }.dict id) := by
        rw [Array.getD_eq_getD_getElem?, Array.getElem?_modify]
        simp [hid]
      change Entries.Keeps _ _ ((dicts.modify id _).getD id [])
      rw [hdict]
      exact hkeeps.insert h.keyLaws hkeys hkey

theorem Keeping.setItems {inserts pairs : List (Value × Value)} (hw : Keeping h id inserts w)
    (hpairs : ∀ p ∈ pairs, h.requireHashable p.1 = .ok () → h.IsKey p.1) :
    Keeping h id (inserts ++ accepted h pairs) (setItems id pairs w) := by
  induction pairs generalizing inserts w
  case nil => exact (List.append_nil inserts).symm ▸ hw
  case cons p pairs ih =>
    obtain ⟨hp, hpairs⟩ := List.forall_mem_cons.mp hpairs
    have haccepted : accepted h (p :: pairs) = accepted h [p] ++ accepted h pairs := by
      simp only [accepted, ← List.filter_append, List.singleton_append]
    rw [haccepted, ← List.append_assoc]
    exact ih (hw.setItem hp) hpairs

-- Whatever is put in changes dicts only.
theorem exists_heap_setItems (id : Nat) (pairs : List (Value × Value)) (w : World) :
    ∃ dicts, (Operators.setItems id pairs w).heap = { w.heap with dicts } := by
  induction pairs generalizing w
  case nil => exact ⟨w.heap.dicts, rfl⟩
  case cons p pairs ih =>
    obtain ⟨dicts, hdicts⟩ := ih ((setItem (.dict id) p.1 p.2).run.run w).2
    refine ⟨dicts, hdicts.trans ?_⟩
    rw [run_setItem_dict]
    cases w.heap.insertKey (w.heap.dict id) p.1 p.2 <;> rfl

-- An empty dict into which pairs are put is a map of those pairs whose keys are hashable. It goes
-- through its keys and lists its entries in their order. A key that is not hashable leaves
-- everything as it is.
theorem setItems_isMapOf {pairs : List (Value × Value)} (hid : id < w.heap.dicts.size)
    (hempty : w.heap.dict id = [])
    (hpairs : ∀ p ∈ pairs, w.heap.requireHashable p.1 = .ok () → w.heap.IsKey p.1) :
    (setItems id pairs w).heap.IsMapOf (accepted w.heap pairs)
        ((setItems id pairs w).heap.dict id)
      ∧ (setItems id pairs w).heap.itemsOf (.dict id)
        = .ok (((setItems id pairs w).heap.dict id).map (·.1))
      ∧ Methods.Lists (setItems id pairs w) id ((setItems id pairs w).heap.dict id)
      ∧ ∀ key value f, (setItems id pairs w).heap.requireHashable key = .error f →
        (setItem (.dict id) key value).run.run (setItems id pairs w)
          = (.error f, setItems id pairs w) := by
  obtain ⟨dicts, hheap⟩ := exists_heap_setItems id pairs w
  have hstart : Keeping (setItems id pairs w).heap id [] w :=
    ⟨by rw [hheap], hid, List.forall_mem_nil _, by rw [hempty]; exact Entries.keeps_nil _⟩
  have haccepted : accepted (setItems id pairs w).heap pairs = accepted w.heap pairs := by
    simp only [accepted, hheap, requireHashable_withDicts]
  have hend : Keeping _ id ([] ++ accepted _ pairs) _ := hstart.setItems fun p hp hhashable => by
    rw [hheap, requireHashable_withDicts] at hhashable
    rw [hheap, isKey_withDicts]
    exact hpairs p hp hhashable
  rw [List.nil_append, haccepted] at hend
  exact ⟨isMapOf_of_keeps (haccepted ▸ hend.keys) hend.keeps, itemsOf_dict _ _,
    Methods.lists_dict _ _, fun key value f => run_setItem_of_error⟩

theorem setItems_isMapOf_mixed :
    let w : World := ⟨{ Heap.empty with
      lists := #[#[]]
      tuples := #[#[.int 1, .str "a"], #[.float 1.0, .str "a"]]
      dicts := #[[]] }, [], false⟩
    let h := (setItems 0 [(.tuple 0, .int 1), (.list 0, .int 2), (.bool true, .int 3),
      (.tuple 1, .int 4), (.float 1.0, .int 5)] w).heap
    h.getKey? (h.dict 0) (.tuple 0) = some (.int 4)
      ∧ h.itemsOf (.dict 0) = .ok [.tuple 0, .bool true] := by
  intro w h
  have hparts : ∀ p ∈ ([(.tuple 0, .int 1), (.list 0, .int 2), (.bool true, .int 3),
      (.tuple 1, .int 4), (.float 1.0, .int 5)] : List (Value × Value)),
      p.1.isNaN = false ∧ ∀ v ∈ w.heap.items p.1, v.isLeaf ∧ v.isNaN = false := by
    decide +kernel
  have hpairs := fun p hp hhashable =>
    isKey_of_items_isLeaf hhashable (hparts p hp).1 (hparts p hp).2
  obtain ⟨hmap, hitems, -, -⟩ := @setItems_isMapOf w 0 _ (by decide) rfl hpairs
  refine ⟨(hmap.get _ ?_).trans ?_, hitems.trans ?_⟩
  · exact isKey_of_items_isLeaf rfl rfl (by decide +kernel)
  · decide +kernel
  · rw [hmap.keys]
    decide +kernel

end Operators
end NoteCell
