import NoteCell.Proofs.Lexing.Floats
import NoteCell.Proofs.Lexing.Pieces

/-!
Literals and other spelled tokens. The escaped body of a literal ends nowhere before its closing
quote, and it denotes the text that was escaped. Every token that a text can hold is read back from
its spelling, as long as what follows does not run on with it.
-/
namespace NoteCell

open Piece

namespace Quoted

def IsQuote (quote : Char) : Prop := quote = '\'' ∨ quote = '"'

theorem isQuote_quoteFor (s : List Char) : IsQuote (quoteFor s) := by
  unfold quoteFor IsQuote
  split <;> simp

-- A character that stands for itself in a literal.
structure IsPlain (quote c : Char) : Prop where
  quote : c ≠ quote
  backslash : c ≠ '\\'
  lineBreak : isLineBreak c = false

-- The ways in which a character is written inside a literal.
inductive Escaped (quote c : Char) : List Char → Prop
  | simple {e : Char} (meaning : simpleEscape? e = some [c]) (hx : e ≠ 'x') (hu : e ≠ 'u') :
    Escaped quote c ['\\', e]
  | hex {a b : Char} (meaning : hexChar? [a, b] = some c) (ha : IsPlain quote a)
    (hb : IsPlain quote b) : Escaped quote c ['\\', 'x', a, b]
  | plain (h : IsPlain quote c) : Escaped quote c [c]

theorem isPlain_hexDigit {quote : Char} (hq : IsQuote quote) (n : Nat) :
    IsPlain quote (hexDigit n) := by
  have hdigit : ∀ d < 16, Nat.digitChar d ≠ '\'' ∧ Nat.digitChar d ≠ '"' ∧ Nat.digitChar d ≠ '\\'
      ∧ isLineBreak (Nat.digitChar d) = false := by decide
  have ⟨hsingle, hdouble, hslash, hbreak⟩ := hdigit (n % 16) (Nat.mod_lt n (by decide))
  refine ⟨?_, hslash, hbreak⟩
  obtain rfl | rfl := hq
  · exact hsingle
  · exact hdouble

theorem toNat_lt_of_isControl {c : Char} (h : isControl c) : c.toNat < 128 := by
  simp only [isControl, Bool.or_eq_true, decide_eq_true_eq, beq_iff_eq] at h
  omega

theorem hexChar?_hexDigits {c : Char} (h : isControl c) : hexChar? (hexDigits c.toNat 2) = some c := by
  have hall : ∀ n < 128, hexChar? (hexDigits n 2) = some (Char.ofNat n) := by decide
  rw [hall c.toNat (toNat_lt_of_isControl h), c.ofNat_toNat]

theorem escaped_escape {quote : Char} (hq : IsQuote quote) (c : Char) :
    Escaped quote c (escape quote c) := by
  unfold escape
  split
  case isTrue h => subst h; exact .simple rfl (by decide) (by decide)
  split
  case isTrue h => subst h; exact .simple rfl (by decide) (by decide)
  split
  case isTrue h => subst h; exact .simple rfl (by decide) (by decide)
  split
  case isTrue h => subst h; exact .simple rfl (by decide) (by decide)
  split
  case isTrue h =>
    subst h
    obtain rfl | rfl := hq <;> exact .simple rfl (by decide) (by decide)
  split
  case isTrue h =>
    exact .hex (hexChar?_hexDigits h) (isPlain_hexDigit hq _) (isPlain_hexDigit hq _)
  case isFalse hslash hn hr ht hquote hcontrol =>
    exact .plain ⟨hquote, hslash, by simp [isLineBreak, hn, hr]⟩

/-! ### Where a body ends -/

theorem shortBody_plain {quote c : Char} (h : IsPlain quote c) (cs : List Char) :
    shortBody quote (c :: cs) = (c :: (shortBody quote cs).1, (shortBody quote cs).2) := by
  rw [shortBody.eq_3 _ _ _ fun _ _ hc _ => h.backslash hc, if_neg h.quote,
    if_neg (by simp [h.backslash, h.lineBreak])]

theorem shortBody_escaped {quote c : Char} {es : List Char} (h : Escaped quote c es)
    (cs : List Char) :
    shortBody quote (es ++ cs) = (es ++ (shortBody quote cs).1, (shortBody quote cs).2) := by
  cases h with
  | simple meaning hx hu => rfl
  | hex meaning ha hb =>
    simp only [List.cons_append, List.nil_append, shortBody, shortBody_plain ha, shortBody_plain hb]
  | plain h => exact shortBody_plain h cs

theorem shortBody_literal {quote : Char} (hq : IsQuote quote) (s rest : List Char) :
    shortBody quote (s.flatMap (escape quote) ++ quote :: rest)
      = (s.flatMap (escape quote), true) := by
  induction s with
  | nil =>
    have hslash : quote ≠ '\\' := by obtain rfl | rfl := hq <;> decide
    rw [List.flatMap_nil, List.nil_append, shortBody.eq_3 _ _ _ fun _ _ hc _ => hslash hc, if_pos rfl]
  | cons c cs ih =>
    rw [List.flatMap_cons, List.append_assoc, shortBody_escaped (escaped_escape hq c), ih]

/-! ### What a body denotes -/

theorem decode_escaped {quote c : Char} {es : List Char} (h : Escaped quote c es) (offset : Nat)
    (cs : List Char) : ∃ offset', decode offset (es ++ cs) = (decode offset' cs).map (c :: ·) := by
  cases h with
  | @simple e meaning hx hu =>
    refine ⟨offset + 1 + e.utf8Size, ?_⟩
    rw [List.cons_append, List.cons_append, List.nil_append]
    rw [decode.eq_4 _ _ _ (fun _ _ _ h _ => hx h) (fun _ _ _ _ _ h _ => hu h),
      if_neg (by simp [hx, hu]), meaning]
    rfl
  | hex meaning ha hb =>
    exact ⟨offset + 4, by simp only [List.cons_append, List.nil_append, decode, meaning]⟩
  | plain h =>
    refine ⟨offset + c.utf8Size, ?_⟩
    exact decode.eq_5 _ _ _ (fun _ _ _ hc _ => h.backslash hc)
      (fun _ _ _ _ _ hc _ => h.backslash hc) (fun _ _ hc _ => h.backslash hc)

theorem decode_literal {quote : Char} (hq : IsQuote quote) (s : List Char) :
    ∀ offset, decode offset (s.flatMap (escape quote)) = .ok s := by
  induction s with
  | nil => exact fun _ => rfl
  | cons c cs ih =>
    intro offset
    have ⟨_, h⟩ := decode_escaped (escaped_escape hq c) offset (cs.flatMap (escape quote))
    rw [List.flatMap_cons, h, ih]
    rfl

/-! ### Literals -/

theorem Escaped.starts {quote c : Char} {es : List Char} (h : Escaped quote c es)
    (hq : IsQuote quote) : ∃ d ds, es = d :: ds ∧ d ≠ quote := by
  have hslash : '\\' ≠ quote := by obtain rfl | rfl := hq <;> decide
  cases h with
  | simple | hex => exact ⟨_, _, rfl, hslash⟩
  | plain h => exact ⟨_, _, rfl, h.quote⟩

-- Only the empty literal starts with two quotation marks, and then no third one may follow.
theorem not_triple {quote : Char} (hq : IsQuote quote) (s : List Char) {rest : List Char}
    (hrest : ∀ c ∈ rest.head?, c ≠ quote) :
    [quote, quote].isPrefixOf (s.flatMap (escape quote) ++ quote :: rest) = false := by
  cases s with
  | nil =>
    cases rest with
    | nil => simp [List.isPrefixOf]
    | cons d ds =>
      have : (quote == d) = false := beq_eq_false_iff_ne.mpr (hrest d rfl).symm
      simp [List.isPrefixOf, this]
  | cons c cs =>
    have ⟨d, ds, he, hd⟩ := (escaped_escape hq c).starts hq
    have : (quote == d) = false := beq_eq_false_iff_ne.mpr hd.symm
    simp [he, List.isPrefixOf, this]

end Quoted

open Quoted in
theorem first_str {s : String} {rest : List Char} (hrest : (Token.str s).Stops rest) {c : Char}
    {cs : List Char} (htext : (Token.str s).spelling.toList = c :: cs) :
    first c (cs ++ rest) = ⟨.token (.str s), cs.length⟩ := by
  have hq := isQuote_quoteFor s.toList
  rw [Token.spelling, Quoted.text, String.toList_ofList, literal] at htext
  rw [List.cons_append] at htext
  obtain ⟨rfl, rfl⟩ := List.cons.inj htext
  have hstop (d : Char) (hd : d ∈ rest.head?) : d ≠ quoteFor s.toList := by
    have := hrest d hd
    simp only [Token.runsOn, Bool.or_eq_false_iff, decide_eq_false_iff_not] at this
    rintro rfl
    obtain h | h := hq
    · exact this.1 h
    · exact this.2 h
  have hbreak : isLineBreak (quoteFor s.toList) = false := by
    obtain h | h := hq <;> rw [h] <;> decide
  have hquote : (quoteFor s.toList = '\'' || quoteFor s.toList = '"') = true := by
    obtain h | h := hq <;> rw [h] <;> decide
  rw [first, hbreak, hquote, List.append_assoc, List.singleton_append, quoted,
    not_triple hq s.toList hstop, shortBody_literal hq]
  simp [string, decode_literal hq]
  omega

/-! ### Spelled tokens -/

-- The tokens of texts: those of layout are left out, and so is what has no literal of its own.
def Token.Lexable : Token → Prop
  | .name s => (∃ c cs, s.toList = c :: cs ∧ isNameStart c ∧ ∀ d ∈ cs, isNameContinue d)
      ∧ Keyword.ofText? s = none
  | .int n => 0 ≤ n.toInt
  | .float x => Double.IsMagnitude x
  | .str _ | .word _ | .sign _ => True
  | .newline | .indent | .dedent => False

-- The characters that a lexeme cannot start with.
def isPadding (c : Char) : Bool := c = ' ' || c = '\t' || c = '\x0c' || c = '#' || c = '\\'

theorem paddingLength_of_not_padding {c : Char} (h : isPadding c = false) (cs : List Char) :
    paddingLength false (c :: cs) = 0 := by
  simp only [isPadding, Bool.or_eq_false_iff, decide_eq_false_iff_not] at h
  rw [paddingLength.eq_6 _ _ (fun _ hc _ => h.2 hc) (fun _ hc _ => h.2 hc) (fun _ hc _ => h.2 hc)]
  simp [h.1.1.1.1, h.1.1.1.2, h.1.1.2, h.1.2]

-- What reading a token back from the head of a text comes to.
def Token.Reads (t : Token) (rest : List Char) : Prop :=
  ∃ c cs, t.spelling.toList = c :: cs ∧ isPadding c = false
    ∧ first c (cs ++ rest) = ⟨.token t, cs.length⟩

section

variable {rest : List Char}

theorem isPadding_of_isDigit {c : Char} (h : c.isDigit) : isPadding c = false :=
  forall_isDigit (P := fun c => isPadding c = false) (by decide) h

theorem isPadding_of_isNameStart {c : Char} (h : isNameStart c) : isPadding c = false := by
  rw [Bool.eq_false_iff]
  intro hp
  simp only [isPadding, Bool.or_eq_true, decide_eq_true_eq] at hp
  obtain (((rfl | rfl) | rfl) | rfl) | rfl := hp <;> revert h <;> decide

theorem Keyword.exists_text (k : Keyword) :
    ∃ c cs, k.text.toList = c :: cs ∧ isNameStart c ∧ ∀ d ∈ cs, isNameContinue d := by
  cases k <;> exact ⟨_, _, rfl, by decide, List.all_eq_true.mp (by decide)⟩

theorem Token.reads_name {s : String} (h : (Token.name s).Lexable)
    (hrest : (Token.name s).Stops rest) : (Token.name s).Reads rest := by
  obtain ⟨⟨c, cs, htext, hc, hcs⟩, hword⟩ := h
  refine ⟨c, cs, htext, isPadding_of_isNameStart hc, ?_⟩
  rw [Piece.first_name hc hcs hrest, ← htext, String.ofList_toList, nameToken, hword]

theorem Token.reads_word {k : Keyword} (hrest : (Token.word k).Stops rest) :
    (Token.word k).Reads rest := by
  have ⟨c, cs, htext, hc, hcs⟩ := k.exists_text
  refine ⟨c, cs, htext, isPadding_of_isNameStart hc, ?_⟩
  rw [Piece.first_name hc hcs hrest, ← htext, String.ofList_toList, nameToken, Keyword.ofText?_text]

theorem Token.reads_sign {s : Sign} (hrest : (Token.sign s).Stops rest) :
    (Token.sign s).Reads rest := by
  obtain ⟨c, cs, htext, hc⟩ : ∃ c cs, s.text.toList = c :: cs ∧ isPadding c = false := by
    cases s <;> exact ⟨_, _, rfl, by decide⟩
  exact ⟨c, cs, htext, hc, Piece.first_sign s hrest htext⟩

theorem Token.reads_digits {n : Int64} (h : (Token.int n).Lexable)
    (hrest : ∀ c ∈ rest.head?, isNameContinue c = false) (hfraction : fractionLength rest = 0) :
    (Token.int n).Reads rest := by
  have htext := toList_spelling_int h
  obtain ⟨c, cs, hc⟩ := List.exists_cons_of_ne_nil (Nat.toDigits_ne_nil (n := n.toInt.toNat) (b := 10))
  have hdigit : c.isDigit := Decimal.isDigit_of_mem_toDigits (hc ▸ List.mem_cons_self)
  exact ⟨c, cs, htext.trans hc, isPadding_of_isDigit hdigit,
    first_digits h hrest hfraction (htext.trans hc)⟩

theorem Token.reads_int {n : Int64} (h : (Token.int n).Lexable) (hrest : (Token.int n).Stops rest) :
    (Token.int n).Reads rest := by
  have hstop (c : Char) (hc : c ∈ rest.head?) : isNameContinue c = false ∧ c ≠ '.' := by
    simpa [Token.runsOn] using hrest c hc
  exact reads_digits h (fun c hc => (hstop c hc).1) (fractionLength_of_stop fun c hc => (hstop c hc).2)

-- A whole number in front of a point and a name.
theorem Token.reads_int_point {n : Int64} (h : (Token.int n).Lexable) {c : Char} (hc : isNameStart c)
    (cs : List Char) : (Token.int n).Reads ('.' :: c :: cs) := by
  have hpoint : isNameContinue '.' = false := by decide
  exact reads_digits h (fun d hd => by cases hd; exact hpoint) (fractionLength_point hc cs)

theorem Token.reads_float {x : Float} (h : (Token.float x).Lexable)
    (hrest : (Token.float x).Stops rest) : (Token.float x).Reads rest :=
  have ⟨c, cs, htext, hc, hfirst⟩ := first_float h hrest
  ⟨c, cs, htext, isPadding_of_isDigit hc, hfirst⟩

theorem Token.reads_str {s : String} (hrest : (Token.str s).Stops rest) :
    (Token.str s).Reads rest := by
  have htext : (Token.str s).spelling.toList = Quoted.literal s.toList := String.toList_ofList
  refine ⟨_, _, htext, ?_, first_str hrest htext⟩
  obtain h | h := Quoted.isQuote_quoteFor s.toList <;> rw [h] <;> decide

theorem Token.reads {t : Token} (h : t.Lexable) (hrest : t.Stops rest) : t.Reads rest := by
  cases t
  case name => exact reads_name h hrest
  case int => exact reads_int h hrest
  case float => exact reads_float h hrest
  case str => exact reads_str hrest
  case word => exact reads_word hrest
  case sign => exact reads_sign hrest
  all_goals exact h.elim

end

end NoteCell
