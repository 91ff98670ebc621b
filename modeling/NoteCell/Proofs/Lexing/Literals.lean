import NoteCell.Proofs.Lexing.Lossless
import NoteCell.Proofs.Lexing.Strings

/-!
Literals at the head of a source. A literal that is written for a value is the first token of what it
heads, it spans the text that was written, and it holds the value again. Two values share no literal.
-/
namespace NoteCell

open Piece Layout

-- A line of which a token that opens no bracket has been read.
def Layout.State.underway : Layout.State := ⟨[], 0, false, true⟩

-- A text that reads as one token is cut off the source, whatever is behind it.
theorem scan_spelled_append {t : Token} {text rest : String} (htext : t.spelling = text)
    (h : t.Reads rest.toList) :
    scan (text ++ rest)
      = ⟨[], .token t, ⟨0, text.utf8ByteSize⟩⟩ :: scanFrom text.utf8ByteSize rest.toList := by
  obtain ⟨c, cs, hspelling, hc, hfirst⟩ := h
  rw [htext] at hspelling
  have hlead := paddingLength_of_not_padding hc (cs ++ rest.toList)
  have hsource : (text ++ rest).toList = c :: (cs ++ rest.toList) := by
    rw [String.toList_append, hspelling, List.cons_append]
  rw [scan, hsource, scanFrom_cons (by rw [hlead]; rfl), hfirst, hlead, ← utf8Length_toList,
    hspelling]
  simp only [List.take_zero, List.take_left, List.drop_left, utf8Length_nil, Nat.zero_add]

theorem tokenize_spelled_append {t : Token} {text rest : String} (htext : t.spelling = text)
    (h : t.Reads rest.toList)
    (hplace : ∀ span, placeToken .initial [] t span = .ok ([⟨t, span⟩], .underway)) :
    tokenize (text ++ rest)
      = (arrange (text ++ rest).utf8ByteSize .underway (scanFrom text.utf8ByteSize rest.toList)).prepend
          [⟨t, ⟨0, text.utf8ByteSize⟩⟩] := by
  rw [tokenize, scan_spelled_append htext h, arrange]
  simp only [hplace]

/-! ### Strings -/

-- What may stand behind a literal: anything that starts with no quotation mark.
def Quoted.Stops (rest : String) : Prop := ∀ c ∈ rest.toList.head?, c ≠ '\'' ∧ c ≠ '"'

theorem Quoted.reads {v rest : String} (h : Stops rest) : (Token.str v).Reads rest.toList := by
  refine Token.reads_str fun c hc => ?_
  have := h c hc
  simp [Token.runsOn, this.1, this.2]

theorem Quoted.head?_tokenize {v rest : String} (h : Stops rest) :
    (tokenize (text v ++ rest)).tokens.head? = some ⟨.str v, ⟨0, (text v).utf8ByteSize⟩⟩ := by
  have htext : (Token.str v).spelling = text v := rfl
  rw [tokenize_spelled_append htext (reads h) fun _ => rfl]
  rfl

-- A literal tells the string it was written for.
theorem Quoted.text_injective : Function.Injective text := by
  intro v w h
  have hend : Stops "" := nofun
  have hv := head?_tokenize (v := v) hend
  rw [h, head?_tokenize hend] at hv
  injection hv with hv
  injection hv with hv
  injection hv with hv
  exact hv.symm

-- Whatever string is written, and whatever text follows that starts with no quotation mark, the first
-- token is that string and spans its literal; so no other string has the same literal.
theorem string_literals_read_back (v : String) :
    (∀ rest, Quoted.Stops rest → (tokenize (Quoted.text v ++ rest)).tokens.head?
        = some ⟨.str v, ⟨0, (Quoted.text v).utf8ByteSize⟩⟩)
      ∧ ∀ w, Quoted.text w = Quoted.text v → w = v :=
  ⟨fun _ h => Quoted.head?_tokenize h, fun _ h => Quoted.text_injective h⟩

-- Both quotation marks, a backslash, an empty byte and a line break, with a name right behind.
theorem string_literals_read_back_escaped :
    Quoted.text "'\"\\\x00\n" = "'\\'\"\\\\\\x00\\n'" ∧ Quoted.Stops "x"
      ∧ (tokenize ("'\\'\"\\\\\\x00\\n'" ++ "x")).tokens.head?
        = some ⟨.str "'\"\\\x00\n", ⟨0, 13⟩⟩ := by
  have htext : Quoted.text "'\"\\\x00\n" = "'\\'\"\\\\\\x00\\n'" := by decide +kernel
  have hstops : Quoted.Stops "x" := by
    intro c hc
    cases hc
    decide
  have hfirst := (string_literals_read_back "'\"\\\x00\n").1 "x" hstops
  rw [htext] at hfirst
  exact ⟨htext, hstops, hfirst⟩

/-! ### Doubles -/

theorem Double.toBits_ofBits {bits : UInt64} (h : bits.toNat ≤ Decimal.infinityBits) :
    (Float.ofBits bits).toBits = bits := by
  have := toNat_toBits h
  rw [UInt64.ofNat_toNat] at this
  exact UInt64.toNat_inj.mp this

theorem Decimal.spelling_float {x : Float} (h : x.toBits.toNat < infinityBits) :
    (Token.float x).spelling = valueText x := by
  have hfinite : ¬ x.isInf := fun hinf =>
    h.ne ((Double.IsMagnitude.isInf_iff (show Double.IsMagnitude x from h.le)).mp hinf)
  rw [Token.spelling, if_neg hfinite]

-- A finite double whose sign bit is clear, told by its bits, is one token from end to end, and the line
-- that the text makes holds no other.
theorem float_literals_read_back {bits : UInt64} (h : bits.toNat < Decimal.infinityBits) :
    let text := Decimal.valueText (Float.ofBits bits)
    ∃ x : Float, x.toBits = bits
      ∧ tokenize text = ⟨[⟨.float x, ⟨0, text.utf8ByteSize⟩⟩, layoutToken .newline text.utf8ByteSize],
          none⟩ := by
  intro text
  have hbits := Double.toBits_ofBits h.le
  refine ⟨Float.ofBits bits, hbits, ?_⟩
  have hreads : (Token.float (Float.ofBits bits)).Reads "".toList :=
    Token.reads_float (show _ ≤ _ by rw [hbits]; exact h.le) nofun
  have htext : (Token.float (Float.ofBits bits)).spelling = text :=
    Decimal.spelling_float (by rw [hbits]; exact h)
  have hend : scanFrom text.utf8ByteSize "".toList = [] := scanFrom_nil rfl
  have hscan := tokenize_spelled_append htext hreads fun _ => rfl
  rw [String.append_empty, hend] at hscan
  exact hscan

-- The least double above zero, which is written with an exponent.
theorem float_literals_read_back_least : 1 < Decimal.infinityBits
    ∧ ∃ x : Float, x.toBits = 1
      ∧ tokenize "5e-324" = ⟨[⟨.float x, ⟨0, 6⟩⟩, layoutToken .newline 6], none⟩ := by
  have hbits : (1 : UInt64).toNat < Decimal.infinityBits := by decide
  have htext : Decimal.valueText (Float.ofBits 1) = "5e-324" := by decide +kernel
  have hread := float_literals_read_back hbits
  rw [htext] at hread
  exact ⟨hbits, hread⟩

end NoteCell
