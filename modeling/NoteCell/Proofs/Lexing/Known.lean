import NoteCell.Proofs.Reading.Cursor

/-!
Tokens of sources. Whatever a source is, each of its tokens is one of layout or one that a text can
hold, and the brackets that are open at once are no more than there may be.
-/
namespace NoteCell

open Piece

theorem Decimal.bitsOf_le (digits : Nat) (exponent : Int) : bitsOf digits exponent ≤ infinityBits := by
  unfold bitsOf
  dsimp only
  split
  · exact Nat.zero_le _
  · split
    · exact Nat.le_refl _
    · exact Nat.min_le_left _ _

theorem Decimal.isMagnitude_toFloat (digits : Nat) (exponent : Int) :
    Double.IsMagnitude (toFloat digits exponent) := by
  rw [Double.IsMagnitude, toFloat, Double.toNat_toBits (bitsOf_le digits exponent)]
  exact bitsOf_le digits exponent

-- A lexeme that is a token is one that a text can hold.
def Lexeme.Known (l : Lexeme) : Prop := ∀ t, l = .token t → t.Lexable

namespace Lexeme

theorem known_token {t : Token} (h : t.Lexable) : (token t).Known := fun _ ht => token.inj ht ▸ h

theorem known_fault (f : LexFault) (offset : Nat) : (fault f offset).Known := nofun

theorem known_number (text : List Char) : (numberToken text).Known := by
  unfold numberToken
  split
  · exact known_token (Decimal.isMagnitude_toFloat _ _)
  · dsimp only
    split
    case isTrue hsmall =>
      refine known_token ?_
      have hsmall : Decimal.natOfDigits (text.filter (· ≠ '_')) < 2 ^ 63 := hsmall
      rw [Token.Lexable, Int64.toInt_ofNat_of_lt hsmall]
      exact Int.natCast_nonneg _
    case isFalse => exact known_fault _ _

theorem known_string (marks : Nat) (body : List Char) (closed : Bool) :
    (string marks body closed).lexeme.Known := by
  unfold string
  split
  · dsimp only
    split
    · exact known_token trivial
    · exact known_fault _ _
  · exact known_fault _ _

theorem known_name {c : Char} (hc : isNameStart c) (cs : List Char) : (name c cs).lexeme.Known := by
  refine known_token ?_
  unfold nameToken
  split
  · trivial
  · rename_i hword
    refine ⟨⟨c, cs.takeWhile isNameContinue, String.toList_ofList, hc, fun d hd => ?_⟩, hword⟩
    exact List.mem_takeWhile_imp hd

theorem known_first (c : Char) (cs : List Char) : (first c cs).lexeme.Known := by
  unfold first
  split
  · exact nofun
  split
  · unfold quoted
    split <;> exact known_string _ _ _
  split
  · unfold number
    dsimp only
    split
    · exact known_number _
    · exact known_fault _ _
  split
  case isTrue hc => exact known_name hc cs
  split
  · exact known_token trivial
  · exact known_fault _ _

end Lexeme

theorem known_scanFrom (offset : Nat) (text : List Char) :
    ∀ i ∈ scanFrom offset text, i.lexeme.Known := by
  induction offset, text using scanFrom.induct
  case case1 hend =>
    rw [scanFrom_nil hend]
    exact nofun
  case case2 c cs h piece start stop ih =>
    rw [scanFrom_cons h]
    exact List.forall_mem_cons.mpr ⟨Lexeme.known_first c cs, ih⟩

/-! ### Layout -/

theorem Token.after_layout {t : Token} (h : t.isLayout) (b : Nat) : t.after b = b := by
  cases t <;> first | rfl | cases h

theorem OpensWithin.layout {b : Nat} {ls : List Located} {ts : List Token}
    (hls : ∀ t ∈ ls, t.token.isLayout) (h : OpensWithin b ts) :
    OpensWithin b (ls.map (·.token) ++ ts) := by
  induction ls with
  | nil => exact h
  | cons t ls ih =>
    have ht := Token.after_layout (hls t List.mem_cons_self) b
    exact ⟨h.le, by rw [ht]; exact ih fun u hu => hls u (List.mem_cons_of_mem t hu)⟩

namespace Layout

theorem bracketsAfter_eq {b b' offset : Nat} {t : Token} (hb : b ≤ maxBrackets)
    (h : bracketsAfter b t offset = .ok b') : b' = t.after b ∧ b' ≤ maxBrackets := by
  cases t
  case sign s =>
    unfold bracketsAfter at h
    rw [Token.after]
    dsimp only at h
    split at h
    case isTrue hopens =>
      split at h
      · cases h
      · cases h
        rw [if_pos hopens]
        exact ⟨rfl, by omega⟩
    case isFalse hopens =>
      rw [if_neg hopens]
      split at h
      · cases h
        rw [if_pos ‹_›]
        exact ⟨rfl, by omega⟩
      · cases h
        rw [if_neg ‹_›]
        exact ⟨rfl, hb⟩
  all_goals
    cases h
    exact ⟨rfl, hb⟩

theorem isLayout_dedents {count offset : Nat} : ∀ t ∈ dedents count offset, t.token.isLayout := by
  intro t ht
  rw [List.eq_of_mem_replicate ht]
  rfl

theorem isLayout_indentTo {blocks blocks' : List Nat} {width offset : Nat} {layout : List Located}
    (h : indentTo blocks width offset = .ok (layout, blocks')) : ∀ t ∈ layout, t.token.isLayout := by
  unfold indentTo at h
  dsimp only at h
  split at h
  · split at h
    · cases h
    · cases h
      exact fun t ht => List.mem_singleton.mp ht ▸ rfl
  · split at h
    · cases h
      exact isLayout_dedents
    · cases h

theorem isLayout_finish {s : State} {stop : Nat} : ∀ t ∈ finish s stop, t.token.isLayout := by
  intro t ht
  obtain ht | ht := List.mem_append.mp ht
  · split at ht
    · exact List.mem_singleton.mp ht ▸ rfl
    · cases ht
  · exact isLayout_dedents t ht

-- What a token of the source adds to the tokens, and the brackets that are open behind it.
theorem placeToken_eq {s next : State} {lead : List Char} {t : Token} {span : Span}
    {tokens : List Located} (hs : s.brackets ≤ maxBrackets)
    (h : placeToken s lead t span = .ok (tokens, next)) :
    (∃ layout, tokens = layout ++ [⟨t, span⟩] ∧ ∀ u ∈ layout, u.token.isLayout)
      ∧ next.brackets = t.after s.brackets ∧ next.brackets ≤ maxBrackets := by
  have ⟨layout, blocks, starts, hlayout, h⟩ : ∃ (layout : List Located) (blocks : List Nat) (starts : Bool),
      (∀ u ∈ layout, u.token.isLayout) ∧ (do
        let brackets ← bracketsAfter s.brackets t span.start
        .ok (layout ++ [Located.mk t span], State.mk blocks brackets starts true)) = .ok (tokens, next) := by
    unfold placeToken at h
    dsimp only at h
    split at h
    case isTrue =>
      cases hindent : indentTo s.blocks (indentWidth 0 lead) span.start with
      | error e =>
        rw [hindent] at h
        cases h
      | ok before =>
        rw [hindent] at h
        exact ⟨before.1, before.2, _, isLayout_indentTo hindent, h⟩
    case isFalse => exact ⟨[], s.blocks, _, nofun, h⟩
  cases hb : bracketsAfter s.brackets t span.start with
  | error e =>
    rw [hb] at h
    cases h
  | ok b =>
    rw [hb] at h
    cases h
    exact ⟨⟨layout, rfl, hlayout⟩, bracketsAfter_eq hs hb⟩

-- Tokens that a source can have behind so many open brackets.
structure Known (b : Nat) (stream : TokenStream) : Prop where
  known : ∀ t ∈ stream.tokens, t.token.Known
  within : OpensWithin b (stream.tokens.map (·.token))

theorem Known.layout {b : Nat} {ls : List Located} {stream : TokenStream}
    (hls : ∀ t ∈ ls, t.token.isLayout) (h : Known b stream) : Known b (stream.prepend ls) where
  known t ht := (List.mem_append.mp ht).elim (fun ht => .inl (hls t ht)) (h.known t)
  within := by
    rw [TokenStream.prepend, List.map_append]
    exact h.within.layout hls

theorem known_arrange (stop : Nat) {items : List Scanned} (h : ∀ i ∈ items, i.lexeme.Known)
    {s : State} (hs : s.brackets ≤ maxBrackets) : Known s.brackets (arrange stop s items) := by
  induction items generalizing s
  case nil =>
    have hend : Known s.brackets .empty := ⟨nofun, hs⟩
    have := hend.layout (@isLayout_finish s stop)
    simpa [TokenStream.prepend, TokenStream.empty, arrange] using this
  case cons item items ih =>
    have hrest : ∀ i ∈ items, i.lexeme.Known := fun i hi => h i (List.mem_cons_of_mem item hi)
    have hitem := h item List.mem_cons_self
    rw [arrange]
    split
    case h_1 => exact ⟨nofun, hs⟩
    case h_2 =>
      split
      case isTrue =>
        have hafter := ih hrest (s := { s with atLineStart := true, lineHasTokens := false }) hs
        split
        · exact hafter.layout fun t ht => List.mem_singleton.mp ht ▸ rfl
        · exact hafter
      case isFalse => exact ih hrest hs
    case h_3 t ht =>
      split
      case h_1 tokens next hplace =>
        obtain ⟨⟨layout, rfl, hlayout⟩, hnext, hle⟩ := placeToken_eq hs hplace
        have hafter := ih hrest hle
        rw [hnext] at hafter
        have htoken : Known s.brackets ((arrange stop next items).prepend [⟨t, item.span⟩]) :=
          ⟨List.forall_mem_cons.mpr ⟨.inr (hitem t ht), hafter.known⟩, hs, hafter.within⟩
        simpa [TokenStream.prepend] using htoken.layout hlayout
      case h_2 => exact ⟨nofun, hs⟩

end Layout

-- Reading starts before tokens that a source can have.
theorem Cursor.sound_tokenize (source : String) :
    (ofStream (tokenize source)).Sound (tokenize source).error 0 :=
  have h := @Layout.known_arrange source.utf8ByteSize _ (known_scanFrom 0 source.toList) .initial
    (Nat.zero_le _)
  ⟨rfl, h.known, h.within⟩

end NoteCell
