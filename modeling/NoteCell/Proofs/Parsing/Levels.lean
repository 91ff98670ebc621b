import NoteCell.Parsing.Expression
import NoteCell.Proofs.Printing.Tokens
import NoteCell.Proofs.Tree.Shape

/-!
Running the rules of the grammar. The verdict of a rule before given tokens is told by a condition
under which it succeeds, and without which it fails, and by what holds after a success. There is one
rule for each strength of expression: what it reads is also read by the rules of all weaker levels,
as long as the next token does not go on with it.
-/
namespace NoteCell

namespace Cursor

-- The tokens that are left are the given ones, and they are all of the source.
structure Faces (c : Cursor) (ts : List Token) : Prop where
  tokens : c.rest.map (·.token) = ts
  clean : c.error = none

def next (c : Cursor) : Cursor :=
  match c.rest with
  | t :: rest => { c with rest := rest, stop := t.span.stop }
  | [] => c

variable {c : Cursor} {t : Token} {ts : List Token}

theorem Faces.head? (h : c.Faces ts) : c.head? = ts.head? := by
  rw [Cursor.head?, ← h.tokens, List.head?_map]

theorem Faces.next (h : c.Faces (t :: ts)) : c.next.Faces ts := by
  have ⟨rest, error, stop⟩ := c
  cases rest
  case nil => exact absurd h.tokens (by simp)
  case cons => exact ⟨(List.cons.inj h.tokens).2, h.clean⟩

end Cursor

namespace Parser

variable {α β : Type} {c c' : Cursor} {t : Token} {ts : List Token}

theorem bind_ok {p : Parser α} {q : α → Parser β} {a : α} (h : p c = .ok (a, c')) :
    (p >>= q) c = q a c' := by
  simp [bind, StateT.bind, Except.bind, h]

theorem bind_error {p : Parser α} {q : α → Parser β} {e : SyntaxError} (h : p c = .error e) :
    (p >>= q) c = .error e := by
  simp [bind, StateT.bind, Except.bind, h]

theorem start_eq (c : Cursor) : start c = .ok (c.start, c) := rfl

theorem stop_eq (c : Cursor) : stop c = .ok (c.stop, c) := rfl

theorem reachNext_eq (c : Cursor) : reachNext c = .ok ((), { c with stop := c.start }) := rfl

theorem peek?_eq (h : c.Faces ts) : peek? c = .ok (ts.head?, c) := by
  rw [peek?, h.head?]

theorem advance_eq (h : c.Faces (t :: ts)) : advance c = .ok ((), c.next) := by
  have ⟨rest, error, stop⟩ := c
  cases rest
  case nil => exact absurd h.tokens (by simp)
  case cons => rfl

theorem accept_eq (h : c.Faces (t :: ts)) : accept t c = .ok (true, c.next) := by
  rw [accept, bind_ok (peek?_eq h), if_pos List.head?_cons, bind_ok (advance_eq h)]
  rfl

theorem accept_ne (h : c.Faces ts) (ht : ts.head? ≠ some t) : accept t c = .ok (false, c) := by
  rw [accept, bind_ok (peek?_eq h), if_neg ht]
  rfl

theorem expect_eq (h : c.Faces (t :: ts)) : expect t c = .ok ((), c.next) := by
  rw [expect, bind_ok (accept_eq h)]
  rfl

theorem identifier_eq {s : String} (h : c.Faces (.name s :: ts)) :
    identifier c = .ok (s, c.next) := by
  rw [identifier, bind_ok (peek?_eq h)]
  exact bind_ok (advance_eq h)

end Parser

open NoteCell.Parser

-- A success exactly under the condition `fits`, with a result and a rest as `Q` has them.
def Verdict {α : Type} (fits : Prop) (r : Except SyntaxError (α × Cursor))
    (Q : α → Cursor → Prop) : Prop :=
  match r with
  | .ok (a, c) => fits ∧ Q a c
  | .error _ => ¬ fits

namespace Verdict

variable {α β : Type} {f g : Prop} {c c' : Cursor} {p : Parser α} {q : α → Parser β} {a : α}
  {P P' : α → Cursor → Prop} {Q : β → Cursor → Prop}

theorem ok (hf : f) (hP : P a c) : Verdict f (.ok (a, c)) P := ⟨hf, hP⟩

theorem pure (hf : f) (hP : P a c) : Verdict f ((Pure.pure a : Parser α) c) P := ⟨hf, hP⟩

theorem step (h : p c = .ok (a, c')) (hq : Verdict f (q a c') Q) : Verdict f ((p >>= q) c) Q := by
  rwa [bind_ok h]

-- The condition of the whole is that of the last part, which the first part has a share in.
theorem seq (hp : Verdict f (p c) P) (hgf : g → f)
    (hq : f → ∀ a c', P a c' → Verdict g (q a c') Q) : Verdict g ((p >>= q) c) Q := by
  match h : p c, hp with
  | .ok (a, c'), ⟨hf, ha⟩ =>
    rw [bind_ok h]
    exact hq hf a c' ha
  | .error e, hf =>
    rw [bind_error h]
    exact fun hg => hf (hgf hg)

theorem congr {r : Except SyntaxError (α × Cursor)} (h : Verdict f r P) (hfg : f ↔ g) :
    Verdict g r P := by
  rwa [← propext hfg]

theorem imp {r : Except SyntaxError (α × Cursor)} (h : Verdict f r P)
    (hP : f → ∀ a c, P a c → P' a c) : Verdict f r P' := by
  match r, h with
  | .ok (a, c), ⟨hf, ha⟩ => exact ⟨hf, hP hf a c ha⟩
  | .error _, hf => exact hf

end Verdict

/-! ### Expressions as verdicts -/

-- The expression `e'` was built to the shape of `e`.
structure Mirrors (e e' : Expr) : Prop where
  bare : e'.bare = e.bare
  nested : e'.WellNested

-- What has been read mirrors `e`, and `rest` is left.
structure Reading (e : Expr) (rest : List Token) (e' : Expr) (c : Cursor) : Prop
    extends Mirrors e e' where
  faces : c.Faces rest

def Expr.Fits (e : Expr) : Prop := e.depth ≤ maxExprNesting

theorem Expr.Fits.child {info : NodeInfo} {form : ExprForm Expr} (h : (node info form).Fits)
    {c : Expr} (hc : c ∈ form.children) : c.Fits := by
  rw [Fits, depth_node] at h
  have := nestingOver_le.mp h _ (List.mem_map_of_mem hc)
  unfold Fits maxExprNesting
  omega

-- A node is made when its depth is within the limit.
theorem verdict_makeExprBefore {follows : Option Token → Bool} {form form' : ExprForm Expr}
    {info : NodeInfo} {at_ : Nat} {c : Cursor} {rest : List Token}
    (hform : form'.map Expr.bare = form.map Expr.bare)
    (hw : ∀ c ∈ form'.children, c.WellNested) (hc : c.Faces rest) :
    Verdict (Expr.node info form).Fits (makeExprBefore follows form' at_ c)
      (Reading (.node info form) rest) := by
  have hb : (Expr.build form' (.between at_ c.stop)).bare = (Expr.node info form).bare := by
    rw [Expr.build, Expr.bare_node, Expr.bare_node, hform]
  have hn : (Expr.build form' (.between at_ c.stop)).WellNested := Expr.wellNested_build hw
  rw [makeExprBefore]
  apply Verdict.step (stop_eq c)
  rw [hn.nesting_eq, Expr.depth_eq_of_bare hb]
  split
  case isTrue hle => exact .ok hle ⟨⟨hb, hn⟩, hc⟩
  case isFalse hlt => exact hlt

/-! ### Levels -/

namespace Family

def strength : Family → Nat
  | or => Strength.or
  | and => Strength.and
  | sum => Strength.sum
  | product => Strength.product

end Family

-- How strong the expression is that a token goes on with; zero for what ends every expression.
def Token.hold : Token → Nat
  | .word .if_ => Strength.test
  | .word .or_ => Strength.or
  | .word .and_ => Strength.and
  | .word .not_ | .word .in_ | .word .is_ => Strength.comparison
  | .sign .eqEq | .sign .notEq | .sign .less | .sign .lessEq | .sign .greater
  | .sign .greaterEq => Strength.comparison
  | .sign .plus | .sign .minus => Strength.sum
  | .sign .star | .sign .slash | .sign .doubleSlash | .sign .percent => Strength.product
  | .sign .doubleStar => Strength.power
  | .sign .lparen | .sign .lbracket | .sign .dot => Strength.atom
  | .str _ => Strength.atom + 1
  | _ => 0

def holdOf (ts : List Token) : Nat := (ts.head?.map Token.hold).getD 0

@[simp] theorem holdOf_nil : holdOf [] = 0 := rfl

@[simp] theorem holdOf_cons (t : Token) (ts : List Token) : holdOf (t :: ts) = t.hold := rfl

theorem head?_ne_of_hold {ts : List Token} (t : Token) (h : holdOf ts < t.hold) :
    ts.head? ≠ some t := by
  intro ht
  simp [holdOf, ht] at h

-- The rule for expressions of a strength.
def Parser.ofStrength : Nat → Nat → Parser Expr
  | 0, n | 1, n => expression n
  | 2, n => family n .or
  | 3, n => family n .and
  | 4, n => negation n
  | 5, n => comparison n
  | 6, n => family n .sum
  | 7, n => family n .product
  | 8, n => factor n
  | 9, n => power n
  | 10, n => awaited n
  | _, n => primary n

-- Enough fuel to read tokens at a level.
def fuelFor (k : Nat) (ts : List Token) : Nat := 32 * ts.length + (25 - 2 * k)

-- The rule of level `k` reads `ts` as the expression `e`.
def Reads (k : Nat) (ts : List Token) (e : Expr) : Prop :=
  ∀ n c rest, c.Faces (ts ++ rest) → fuelFor k (ts ++ rest) ≤ n → holdOf rest < k →
    Verdict e.Fits (ofStrength k n c) (Reading e rest)

def ReadsAtom (ts : List Token) (e : Expr) : Prop :=
  ∀ n c rest, c.Faces (ts ++ rest) → fuelFor (Strength.atom + 1) (ts ++ rest) < n →
    holdOf rest ≤ Strength.atom → Verdict e.Fits (atom n c) (Reading e rest)

-- A rule comes to the point where `e` is read and `loop` goes on with it.
def Reaches (e : Expr) (rest : List Token) (loop : Nat → Expr → Parser Expr)
    (r : Except SyntaxError (Expr × Cursor)) : Prop :=
  (e.Fits ∧ ∃ m e' c', Reading e rest e' c' ∧ 32 * rest.length < m ∧ r = loop m e' c')
    ∨ (¬ e.Fits ∧ ∃ err, r = .error err)

def ReadsLeft (f : Family) (ts : List Token) (e : Expr) : Prop :=
  ∀ n c rest, c.Faces (ts ++ rest) → fuelFor f.strength (ts ++ rest) ≤ n →
    holdOf rest ≤ f.strength →
    Reaches e rest (fun m e' => joined m f c.start e') (family n f c)

def ReadsOwner (ts : List Token) (e : Expr) : Prop :=
  ∀ n c rest, c.Faces (ts ++ rest) → fuelFor Strength.atom (ts ++ rest) ≤ n →
    holdOf rest ≤ Strength.atom →
    Reaches e rest (fun m e' => extended m c.start e') (primary n c)

section

variable {e : Expr} {rest : List Token} {loop : Nat → Expr → Parser Expr} {c : Cursor}

theorem Verdict.reaches {p : Parser Expr} {m : Nat} (h : Verdict e.Fits (p c) (Reading e rest))
    (hm : 32 * rest.length < m) : Reaches e rest loop ((p >>= loop m) c) := by
  match hp : p c, h with
  | .ok (e', c'), ⟨hf, hr⟩ => exact .inl ⟨hf, m, e', c', hr, hm, bind_ok hp⟩
  | .error err, hf => exact .inr ⟨hf, err, bind_error hp⟩

theorem Reaches.verdict {r : Except SyntaxError (Expr × Cursor)} {Q : Expr → Cursor → Prop}
    (h : Reaches e rest loop r)
    (hq : e.Fits → ∀ m e' c', Reading e rest e' c' → 32 * rest.length < m →
      Verdict e.Fits (loop m e' c') Q) : Verdict e.Fits r Q := by
  obtain ⟨hf, m, e', c', hr, hm, rfl⟩ | ⟨hf, err, rfl⟩ := h
  case inl => exact hq hf m e' c' hr hm
  case inr => exact hf

end

/-! ### From a level to the weaker one -/

section

variable {ts : List Token} {e : Expr}

theorem Opens.head?_ne {k : Nat} {rest : List Token} (ho : Opens k ts) {t : Token}
    (ht : t.opens k = false) : (ts ++ rest).head? ≠ some t := by
  have ⟨u, us, hts, hu⟩ := ho
  rintro h
  simp only [hts, List.cons_append, List.head?_cons, Option.some.injEq] at h
  simp [h, ht] at hu

theorem fuel_step {k n : Nat} (h : fuelFor k ts ≤ n) (hk : k < 12) :
    ∃ m, n = m + 1 ∧ fuelFor (k + 1) ts < m := by
  unfold fuelFor at *
  exact ⟨n - 1, by omega, by omega⟩

theorem fuel_rest {k n : Nat} {rest : List Token} (h : fuelFor k (ts ++ rest) < n) :
    32 * rest.length < n := by
  simp only [fuelFor, List.length_append] at h
  omega

theorem ReadsAtom.owner (h : ReadsAtom ts e) : ReadsOwner ts e := by
  intro n c rest hc hn hr
  have ⟨m, hm, hlt⟩ := fuel_step hn (by decide)
  rw [hm, primary, bind_ok (start_eq c)]
  exact (h m c rest hc hlt hr).reaches (fuel_rest hlt)

theorem ReadsOwner.reads (h : ReadsOwner ts e) : Reads Strength.atom ts e := by
  intro n c rest hc hn hr
  refine (h n c rest hc hn (Nat.le_of_lt hr)).verdict ?_
  intro hf m e' c' he' hm
  obtain ⟨m, rfl⟩ : ∃ k, m = k + 1 := ⟨m - 1, by omega⟩
  have no (t : Token) (ht : t.hold = Strength.atom) :=
    accept_ne he'.faces (head?_ne_of_hold t (ht ▸ hr))
  rw [extended, bind_ok (no (.sign .dot) rfl), if_neg (by simp),
    bind_ok (no (.sign .lparen) rfl), if_neg (by simp),
    bind_ok (no (.sign .lbracket) rfl), if_neg (by simp)]
  exact .pure hf he'

theorem Reads.await (h : Reads Strength.atom ts e) (ho : Opens Strength.atom ts) :
    Reads Strength.await ts e := by
  intro n c rest hc hn hr
  have ⟨m, hm, hlt⟩ := fuel_step hn (by decide)
  change Verdict _ (awaited n c) _
  rw [hm, awaited, bind_ok (start_eq c),
    bind_ok (accept_ne hc (ho.head?_ne rfl)), if_neg (by simp)]
  exact h m c rest hc (Nat.le_of_lt hlt) (Nat.lt_succ_of_lt hr)

theorem Reads.power (h : Reads Strength.await ts e) : Reads Strength.power ts e := by
  intro n c rest hc hn hr
  have ⟨m, hm, hlt⟩ := fuel_step hn (by decide)
  change Verdict _ (Parser.power n c) _
  rw [hm, Parser.power, bind_ok (start_eq c)]
  refine (h m c rest hc (Nat.le_of_lt hlt) (Nat.lt_succ_of_lt hr)).seq id ?_
  intro hf e' c' he'
  rw [bind_ok (accept_ne he'.faces (head?_ne_of_hold (.sign .doubleStar) hr)), if_neg (by simp)]
  exact .pure hf he'

theorem Reads.sign (h : Reads Strength.power ts e) (ho : Opens Strength.power ts) :
    Reads Strength.sign ts e := by
  intro n c rest hc hn hr
  have ⟨m, hm, hlt⟩ := fuel_step hn (by decide)
  change Verdict _ (factor n c) _
  rw [hm, factor, bind_ok (start_eq c),
    bind_ok (accept_ne hc (ho.head?_ne rfl)), if_neg (by simp),
    bind_ok (accept_ne hc (ho.head?_ne rfl)), if_neg (by simp)]
  exact h m c rest hc (Nat.le_of_lt hlt) (Nat.lt_succ_of_lt hr)

theorem operand_eq (f : Family) (n : Nat) :
    operand (n + 1) f = ofStrength (f.strength + 1) n := by
  cases f <;> rfl

theorem Reads.left (f : Family) (h : Reads (f.strength + 1) ts e) : ReadsLeft f ts e := by
  intro n c rest hc hn hr
  have hf : f.strength < 12 := by cases f <;> decide
  have ⟨m, hm, hlt⟩ := fuel_step hn hf
  obtain ⟨m, rfl⟩ : ∃ k, m = k + 1 := ⟨m - 1, by omega⟩
  rw [hm, family, bind_ok (start_eq c), operand_eq]
  exact (h m c rest hc (Nat.le_of_lt_succ hlt) (Nat.lt_succ_of_le hr)).reaches (fuel_rest hlt)

theorem joint?_eq_none {f : Family} {rest : List Token} (h : holdOf rest < f.strength) :
    rest.head? >>= f.joint? = none := by
  cases rest
  case nil => rfl
  case cons t rest =>
    change f.joint? t = none
    rw [holdOf_cons] at h
    cases f <;> unfold Family.joint? <;> split <;> simp_all [Token.hold, Family.strength]

theorem ReadsLeft.reads {f : Family} (h : ReadsLeft f ts e) : Reads f.strength ts e := by
  intro n c rest hc hn hr
  have hrule : ofStrength f.strength n = family n f := by cases f <;> rfl
  rw [hrule]
  refine (h n c rest hc hn (Nat.le_of_lt hr)).verdict ?_
  intro hf m e' c' he' hm
  obtain ⟨m, rfl⟩ : ∃ k, m = k + 1 := ⟨m - 1, by omega⟩
  rw [joined, bind_ok (peek?_eq he'.faces), joint?_eq_none hr]
  exact .pure hf he'

theorem comparison?_eq_none {rest : List Token} (h : holdOf rest < Strength.comparison) :
    rest.head? >>= comparison? = none := by
  cases rest
  case nil => rfl
  case cons t rest =>
    change comparison? t = none
    rw [holdOf_cons] at h
    unfold comparison?
    split <;> simp_all [Token.hold]

theorem comparisons_eq {n : Nat} {c : Cursor} {rest : List Token} (hc : c.Faces rest)
    (hn : 0 < n) (hr : holdOf rest < Strength.comparison) : comparisons n c = .ok ([], c) := by
  obtain ⟨n, rfl⟩ : ∃ k, n = k + 1 := ⟨n - 1, by omega⟩
  have hop : compareOp? c = .ok (none, c) := by
    rw [compareOp?, bind_ok (peek?_eq hc), comparison?_eq_none hr]
    rfl
  rw [comparisons, bind_ok hop]
  rfl

theorem Reads.comparison (h : Reads Strength.sum ts e) : Reads Strength.comparison ts e := by
  intro n c rest hc hn hr
  have ⟨m, hm, hlt⟩ := fuel_step hn (by decide)
  change Verdict _ (Parser.comparison n c) _
  rw [hm, Parser.comparison, bind_ok (start_eq c)]
  refine (h m c rest hc (Nat.le_of_lt hlt) (Nat.lt_succ_of_lt hr)).seq id ?_
  intro hf e' c' he'
  rw [bind_ok (comparisons_eq he'.faces (by omega) hr)]
  exact .pure hf he'

theorem Reads.not (h : Reads Strength.comparison ts e) (ho : Opens Strength.comparison ts) :
    Reads Strength.not ts e := by
  intro n c rest hc hn hr
  have ⟨m, hm, hlt⟩ := fuel_step hn (by decide)
  change Verdict _ (negation n c) _
  rw [hm, negation, bind_ok (start_eq c),
    bind_ok (accept_ne hc (ho.head?_ne rfl)), if_neg (by simp)]
  exact h m c rest hc (Nat.le_of_lt hlt) (Nat.lt_succ_of_lt hr)

theorem Reads.test (h : Reads Strength.or ts e) : Reads Strength.test ts e := by
  intro n c rest hc hn hr
  have ⟨m, hm, hlt⟩ := fuel_step hn (by decide)
  change Verdict _ (expression n c) _
  rw [hm, expression, bind_ok (start_eq c)]
  refine (h m c rest hc (Nat.le_of_lt hlt) (Nat.lt_succ_of_lt hr)).seq id ?_
  intro hf e' c' he'
  rw [bind_ok (accept_ne he'.faces (head?_ne_of_hold (.word .if_) hr)), if_neg (by simp)]
  exact .pure hf he'

end

/-! ### All levels at once -/

structure Ready (k : Nat) (ts : List Token) (e : Expr) : Prop where
  reads : ∀ j, 0 < j → j ≤ k → Reads j ts e
  left : ∀ f : Family, f.strength ≤ k → ReadsLeft f ts e
  owner : Strength.atom ≤ k → ReadsOwner ts e

namespace Ready

variable {k : Nat} {ts : List Token} {e : Expr}

theorem succ (h : Ready k ts e) (hr : Reads (k + 1) ts e)
    (hl : ∀ f : Family, f.strength = k + 1 → ReadsLeft f ts e)
    (ho : Strength.atom = k + 1 → ReadsOwner ts e) : Ready (k + 1) ts e where
  reads j hj hk := (Nat.le_succ_iff.mp hk).elim (h.reads j hj) (· ▸ hr)
  left f hk := (Nat.le_succ_iff.mp hk).elim (h.left f) (hl f)
  owner hk := (Nat.le_succ_iff.mp hk).elim h.owner ho

theorem test (h : Reads Strength.test ts e) : Ready Strength.test ts e where
  reads j hj hk := Nat.le_antisymm hk hj ▸ h
  left f hf := by cases f <;> exact absurd hf (by decide)
  owner hk := absurd hk (by decide)

theorem or (h : ReadsLeft .or ts e) : Ready Strength.or ts e :=
  (test h.reads.test).succ h.reads (fun f hf => by cases f <;> first | exact h | cases hf) nofun

theorem and (h : ReadsLeft .and ts e) : Ready Strength.and ts e :=
  (or (h.reads.left .or)).succ h.reads (fun f hf => by cases f <;> first | exact h | cases hf) nofun

theorem not (h : Reads Strength.not ts e) : Ready Strength.not ts e :=
  (and (h.left .and)).succ h (fun f hf => by cases f <;> cases hf) nofun

theorem comparison (h : Reads Strength.comparison ts e) (ho : Opens Strength.comparison ts) :
    Ready Strength.comparison ts e :=
  (not (h.not ho)).succ h (fun f hf => by cases f <;> cases hf) nofun

theorem sum (h : ReadsLeft .sum ts e) (ho : Opens Strength.sum ts) : Ready Strength.sum ts e :=
  (comparison h.reads.comparison (ho.mono (by decide))).succ h.reads
    (fun f hf => by cases f <;> first | exact h | cases hf) nofun

theorem product (h : ReadsLeft .product ts e) (ho : Opens Strength.product ts) :
    Ready Strength.product ts e :=
  (sum (h.reads.left .sum) (ho.mono (by decide))).succ h.reads
    (fun f hf => by cases f <;> first | exact h | cases hf) nofun

theorem sign (h : Reads Strength.sign ts e) (ho : Opens Strength.sign ts) :
    Ready Strength.sign ts e :=
  (product (h.left .product) (ho.mono (by decide))).succ h (fun f hf => by cases f <;> cases hf) nofun

theorem power (h : Reads Strength.power ts e) (ho : Opens Strength.power ts) :
    Ready Strength.power ts e :=
  (sign (h.sign ho) (ho.mono (by decide))).succ h (fun f hf => by cases f <;> cases hf) nofun

theorem await (h : Reads Strength.await ts e) (ho : Opens Strength.await ts) :
    Ready Strength.await ts e :=
  (power h.power (ho.mono (by decide))).succ h (fun f hf => by cases f <;> cases hf) nofun

theorem atom (h : ReadsOwner ts e) (ho : Opens Strength.atom ts) : Ready Strength.atom ts e :=
  (await (h.reads.await ho) (ho.mono (by decide))).succ h.reads
    (fun f hf => by cases f <;> cases hf) fun _ => h

end Ready

end NoteCell
