import Mathlib
import NoteCell.Json.Printing
import NoteCell.Json.Record
import NoteCell.Proofs.Decimal.Nearest
import NoteCell.Proofs.Lexing.Pieces

/-!
What a reader takes from a text: the steps of reading, and the strings, numbers and words that are
written and read again.
-/
namespace NoteCell

namespace JsonReader

variable {α β σ : Type} {r : JsonReader α} {k : α → JsonReader β} {a : α} {b : β}
variable {text mid rest : List Char} {c : Char}

-- `r` reads `text` down to `rest` and gives `a`, wherever the text stands.
def Reads (r : JsonReader α) (text : List Char) (a : α) (rest : List Char) : Prop :=
  ∀ line column, ∃ line' column', r.run.run ⟨text, line, column⟩ = (.ok a, ⟨rest, line', column'⟩)

namespace Reads

theorem pure (a : α) (text : List Char) : Reads (Pure.pure a) text a text :=
  fun line column => ⟨line, column, rfl⟩

theorem bind (hr : r.Reads text a mid) (hk : (k a).Reads mid b rest) :
    (r >>= k).Reads text b rest := by
  intro line column
  obtain ⟨midLine, midColumn, hr⟩ := hr line column
  obtain ⟨line', column', hk⟩ := hk midLine midColumn
  refine ⟨line', column', ?_⟩
  change (r >>= k) ⟨text, line, column⟩ = _
  change r ⟨text, line, column⟩ = _ at hr
  change k a ⟨mid, midLine, midColumn⟩ = _ at hk
  simp only [Bind.bind, ExceptT.bind, ExceptT.mk, StateT.bind, ExceptT.bindCont, hr]
  exact hk

-- What looks at the place where the text stands.
theorem get_bind {k : JsonCursor → JsonReader β}
    (hk : ∀ line column, ∃ line' column',
      (k ⟨text, line, column⟩).run.run ⟨text, line, column⟩ = (.ok b, ⟨rest, line', column'⟩)) :
    (get >>= k).Reads text b rest := hk

end Reads

theorem reads_peek? (text : List Char) : peek?.Reads text text.head? text :=
  fun line column => ⟨line, column, rfl⟩

theorem reads_skip (c : Char) (rest : List Char) : skip.Reads (c :: rest) () rest := by
  intro line column
  by_cases hc : c = '\n'
  · subst hc
    exact ⟨line + 1, 0, rfl⟩
  · refine ⟨line, column + c.utf8Size, ?_⟩
    change ((Except.ok () : Except JsonError Unit), JsonCursor.advance ⟨c :: rest, line, column⟩) = _
    simp [JsonCursor.advance]

theorem reads_skipSpaces (hspace : ∀ c ∈ text.head?, isSpace c = false) :
    skipSpaces.Reads text () text := by
  have hnone : text.takeWhile isSpace = [] := by
    cases text with
    | nil => rfl
    | cons c rest => simp [hspace c rfl]
  refine fun line column => ⟨line, column, ?_⟩
  change ((Except.ok () : Except JsonError Unit), ((text.takeWhile isSpace).foldl
    (fun c _ => c.advance) (⟨text, line, column⟩ : JsonCursor))) = _
  rw [hnone]
  rfl

theorem reads_peekToken? (hc : isSpace c = false) (rest : List Char) :
    peekToken?.Reads (c :: rest) (some c) (c :: rest) :=
  Reads.bind (reads_skipSpaces (by simpa using hc)) (reads_peek? (c :: rest))

theorem reads_finish : finish.Reads [] () [] := by
  have hpeek : peekToken?.Reads [] none [] :=
    Reads.bind (reads_skipSpaces (by simp)) (reads_peek? [])
  exact hpeek.bind (.pure () [])

/-! ### Strings -/

theorem hexDigit?_hexDigit (n : Nat) : hexDigit? (Quoted.hexDigit n) = some (n % 16) := by
  have hdigit : ∀ d < 16, hexDigit? (Nat.digitChar d) = some d := by decide
  exact hdigit _ (Nat.mod_lt n (by decide))

theorem utf8Size_hexDigit (n : Nat) : (Quoted.hexDigit n).utf8Size = 1 := by
  have hdigit : ∀ d < 16, (Nat.digitChar d).utf8Size = 1 := by decide
  exact hdigit _ (Nat.mod_lt n (by decide))

theorem hexFour_hexDigits {n : Nat} (hn : n < 65536) (more : List Char) :
    hexFour (Quoted.hexDigits n 4 ++ more) = .ok n := by
  have htake : (Quoted.hexDigits n 4 ++ more).take 4 = Quoted.hexDigits n 4 := rfl
  have hbytes : utf8Length (Quoted.hexDigits n 4) = 4 := by
    simp [Quoted.hexDigits, utf8Length, utf8Size_hexDigit]
  have hvalue : ((n / 4096 % 16 * 16 + n / 256 % 16) * 16 + n / 16 % 16) * 16 + n % 16 = n := by
    omega
  simp only [hexFour, htake, hbytes]
  simpa [Quoted.hexDigits, hexDigit?_hexDigit, Nat.div_div_eq_div_mul] using hvalue

-- One more character in front of what was read.
def ReadString.push (c : Char) (s : ReadString) : ReadString := { s with text := c :: s.text }

theorem stringFrom_backslash {cs : List Char} {length : Nat} (h : escape cs = .ok (c, length))
    (bytes : Nat) : stringFrom bytes ('\\' :: cs)
      = .push c <$> stringFrom (bytes + 1 + length) (cs.drop length) := by
  rw [stringFrom, if_neg (by decide), if_pos rfl, h]
  rfl

theorem stringFrom_cons (hquote : c ≠ '"') (hslash : c ≠ '\\') (hcontrol : ¬c.toNat < 0x20)
    (bytes : Nat) (cs : List Char) :
    stringFrom bytes (c :: cs) = .push c <$> stringFrom (bytes + c.utf8Size) cs := by
  rw [stringFrom, if_neg hquote, if_neg hslash, if_neg hcontrol]
  rfl

theorem unicodeEscape_hexDigits {c : Char} (hc : c.toNat < 0x20) (more : List Char) :
    unicodeEscape (Quoted.hexDigits c.toNat 4 ++ more) = .ok (c, 5) := by
  have htrail : isTrailing c.toNat = false := by simp [isTrailing]; omega
  have hlead : isLeading c.toNat = false := by simp [isLeading]; omega
  rw [unicodeEscape, hexFour_hexDigits (by omega)]
  simp only [shifted, Bind.bind, Except.bind, htrail, hlead]
  rw [if_neg (by decide), if_neg (by decide), Char.ofNat_toNat]
  rfl

-- A character is written as it is, or behind a backslash, with digits or with a letter that is read
-- as the character.
theorem escape_cases (c : Char) :
    (c ≠ '"' ∧ c ≠ '\\' ∧ ¬c.toNat < 0x20 ∧ JsonText.escape c = [c])
    ∨ (c.toNat < 0x20 ∧ JsonText.escape c = '\\' :: 'u' :: Quoted.hexDigits c.toNat 4)
    ∨ ∃ d, JsonText.escape c = ['\\', d] ∧ d ≠ 'u' ∧ simpleEscape? d = some c := by
  have hletter {e d : Char} (hc : c = e) (hescape : JsonText.escape e = ['\\', d]) (hd : d ≠ 'u')
      (hread : simpleEscape? d = some e) :
      ∃ d, JsonText.escape c = ['\\', d] ∧ d ≠ 'u' ∧ simpleEscape? d = some c :=
    hc ▸ ⟨d, hescape, hd, hread⟩
  by_cases hquote : c = '"'
  · exact .inr (.inr (hletter hquote rfl (by decide) rfl))
  by_cases hslash : c = '\\'
  · exact .inr (.inr (hletter hslash rfl (by decide) rfl))
  by_cases hbackspace : c = '\x08'
  · exact .inr (.inr (hletter hbackspace rfl (by decide) rfl))
  by_cases hpage : c = '\x0c'
  · exact .inr (.inr (hletter hpage rfl (by decide) rfl))
  by_cases hfeed : c = '\n'
  · exact .inr (.inr (hletter hfeed rfl (by decide) rfl))
  by_cases hreturn : c = '\r'
  · exact .inr (.inr (hletter hreturn rfl (by decide) rfl))
  by_cases htab : c = '\t'
  · exact .inr (.inr (hletter htab rfl (by decide) rfl))
  by_cases hcontrol : c.toNat < 0x20
  · exact .inr (.inl ⟨hcontrol, by simp [JsonText.escape, *]⟩)
  · exact .inl ⟨hquote, hslash, hcontrol, by simp [JsonText.escape, *]⟩

theorem escape_letter {d : Char} (hd : d ≠ 'u') (hread : simpleEscape? d = some c)
    (more : List Char) : escape (d :: more) = .ok (c, 1) := by
  rw [escape, hread]
  exact hd

-- Every character is read as it was before it was escaped.
theorem stringFrom_escape (bytes : Nat) (c : Char) (more : List Char) :
    ∃ next, stringFrom bytes (JsonText.escape c ++ more) = .push c <$> stringFrom next more := by
  obtain ⟨hquote, hslash, hcontrol, heq⟩ | ⟨hcontrol, heq⟩ | ⟨d, heq, hd, hread⟩ := escape_cases c
  · rw [heq]
    exact ⟨_, stringFrom_cons hquote hslash hcontrol bytes more⟩
  · have hescape : escape ('u' :: Quoted.hexDigits c.toNat 4 ++ more) = .ok (c, 5) := by
      exact unicodeEscape_hexDigits hcontrol more
    rw [heq]
    exact ⟨_, stringFrom_backslash hescape bytes⟩
  · rw [heq]
    exact ⟨_, stringFrom_backslash (escape_letter hd hread more) bytes⟩

theorem stringFrom_escaped (cs : List Char) (bytes : Nat) (more : List Char) :
    ∃ length, stringFrom bytes (cs.flatMap JsonText.escape ++ '"' :: more)
      = .ok ⟨cs, more, length⟩ := by
  induction cs generalizing bytes
  case nil => exact ⟨bytes + 1, by rw [List.flatMap_nil, List.nil_append, stringFrom, if_pos rfl]⟩
  case cons c cs ih =>
    rw [List.flatMap_cons, List.append_assoc]
    obtain ⟨next, hnext⟩ := stringFrom_escape bytes c (cs.flatMap JsonText.escape ++ '"' :: more)
    obtain ⟨length, hrest⟩ := ih next
    exact ⟨length, by rw [hnext, hrest]; rfl⟩

theorem reads_string (s : String) (more : List Char) :
    string.Reads ((JsonText.quoted s).toList ++ more) s more := by
  obtain ⟨length, hrest⟩ := stringFrom_escaped s.toList 0 more
  have hquoted : (JsonText.quoted s).toList ++ more
      = '"' :: (s.toList.flatMap JsonText.escape ++ '"' :: more) := by
    simp [JsonText.quoted]
  rw [hquoted]
  refine (reads_skip '"' _).bind (.get_bind fun line column => ?_)
  simp only [hrest]
  exact ⟨line, column + length, by rw [String.ofList_toList]; rfl⟩

/-! ### Numbers -/

theorem le_ofDigitChars (ds : List Char) (n : Nat) : n ≤ Nat.ofDigitChars 10 ds n := by
  rw [Nat.ofDigitChars_eq_ofDigitChars_zero]
  have hpow : 0 < 10 ^ ds.length := Nat.pow_pos (by decide)
  have hmul := Nat.le_mul_of_pos_left n hpow
  omega

theorem absorb_eq {ds : List Char} {n : Nat} (h : Nat.ofDigitChars 10 ds n < wordLimit)
    (count : Nat) : absorb n count ds = (Nat.ofDigitChars 10 ds n, count + ds.length) := by
  induction ds generalizing n count
  case nil => rfl
  case cons d ds ih =>
    rw [Nat.ofDigitChars_cons, Nat.mul_comm] at h ⊢
    rw [absorb, if_pos ((le_ofDigitChars ds _).trans_lt h), ih h, List.length_cons, Nat.add_assoc,
      Nat.add_comm 1]

theorem head?_toDigits {n : Nat} (hn : n ≠ 0) : (Nat.toDigits 10 n).head? ≠ some '0' := by
  induction n using Nat.strong_induction_on with
  | _ n ih =>
    rw [Nat.toDigits_eq_if (by decide)]
    split
    case isTrue hlt =>
      have hdigit : ∀ d < 10, d ≠ 0 → [Nat.digitChar d].head? ≠ some '0' := by decide
      exact hdigit n hlt hn
    case isFalse hge =>
      rw [List.head?_append_of_ne_nil _ Nat.toDigits_ne_nil]
      exact ih (n / 10) (by omega) (by omega)

-- What comes behind a value, if anything does, keeps no number going.
def Ends (more : List Char) : Prop := ∀ c ∈ more.head?, c ∈ [',', ']', '\x7d']

theorem Ends.not_isDigit {more : List Char} (hmore : Ends more) :
    more.head?.any Char.isDigit = false := by
  cases more with
  | nil => rfl
  | cons c cs =>
    have hc := hmore c rfl
    simp only [List.mem_cons, List.not_mem_nil, or_false] at hc
    obtain rfl | rfl | rfl := hc <;> rfl

theorem Ends.goes_on {more : List Char} (hmore : Ends more) :
    more.head? ≠ some '.' ∧ isExponentMark more.head? = false := by
  cases more with
  | nil => exact ⟨by simp, rfl⟩
  | cons c cs =>
    have hc := hmore c rfl
    simp only [List.mem_cons, List.not_mem_nil, or_false] at hc
    obtain rfl | rfl | rfl := hc <;> exact ⟨by simp, rfl⟩

theorem reads_digits {ds more : List Char} (hds : ∀ d ∈ ds, d.isDigit) (hmore : Ends more) :
    digits.Reads (ds ++ more) ds more := by
  have hdigits : (ds ++ more).takeWhile Char.isDigit = ds := by
    refine takeWhile_append_of_stop hds fun c hc => ?_
    have hstop := hmore.not_isDigit
    rwa [Option.mem_def.mp hc] at hstop
  refine .get_bind fun line column => ?_
  simp only [hdigits]
  refine ⟨line, column + ds.length, ?_⟩
  change (Except.ok ds, (⟨(ds ++ more).drop ds.length, line, column + ds.length⟩ : JsonCursor)) = _
  rw [List.drop_left]

theorem reads_number {n : Nat} (hn : n < wordLimit) (negative : Bool) {more : List Char}
    (hmore : Ends more) :
    (number negative).Reads (Nat.toDigits 10 n ++ more) (wholeNumber negative n) more := by
  obtain ⟨c, cs, hdigits⟩ := List.exists_cons_of_ne_nil (Nat.toDigits_ne_nil (n := n) (b := 10))
  have hall : ∀ d ∈ c :: cs, d.isDigit := fun d hd =>
    Decimal.isDigit_of_mem_toDigits (hdigits ▸ hd)
  have habsorb : absorb 0 0 (c :: cs) = (n, (c :: cs).length) := by
    have hvalue : Nat.ofDigitChars 10 (c :: cs) 0 = n := hdigits ▸ Nat.ofDigitChars_ten_toDigits
    rw [absorb_eq (hvalue.symm ▸ hn), hvalue, Nat.zero_add]
  have hc : c.isDigit := hall c List.mem_cons_self
  have hread : Reads (if c = '0' then (do skip; return ['0']) else digits) (c :: cs ++ more)
      (c :: cs) more := by
    split
    case isTrue hzero =>
      have hn : n = 0 := by
        by_contra hn
        exact head?_toDigits hn (by rw [hdigits, hzero]; rfl)
      rw [hn, Nat.toDigits_zero] at hdigits
      rw [← hdigits]
      exact (reads_skip '0' more).bind (.pure _ more)
    case isFalse => exact reads_digits hall hmore
  rw [hdigits]
  refine (reads_peek? _).bind ?_
  simp only [List.cons_append, List.head?_cons, hc]
  rw [if_neg (by decide)]
  rw [← apply_ite fun r : JsonReader (List Char) => r >>= _]
  refine hread.bind ((reads_peek? more).bind ?_)
  rw [hmore.not_isDigit, Bool.and_false, if_neg (by decide), habsorb]
  refine (reads_peek? more).bind ?_
  split
  case h_1 hdot => exact (hmore.goes_on.1 hdot).elim
  case h_2 =>
    rw [hmore.goes_on.2, if_neg (by decide), Nat.sub_self, if_pos rfl]
    exact .pure _ more

end JsonReader
end NoteCell
