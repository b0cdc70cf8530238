import LazyQuery.Text.Quoted
import LazyQuery.Text.Unquote
import Mathlib.Data.List.Forall2
import Mathlib.Tactic.Lemma
import Mathlib.Tactic.SplitIfs

/-!
# Quoted text can be read back

In a quoted text a quote, a backslash and every control character below the blank are escaped, each by any of the escapes that
stand for it, and all other characters stand for themselves (`Quoted.Quotes`).  Then reading what stands between the quotes
gives the text that was quoted and stops behind the closing quote, whatever follows there (`Unquote.readRest_pieces`), and a
quoted text is on one line: it has no control character below the blank (`Quoted.Quotes.printable`).

This is what a writer of JSON says of its texts (`Quoted.WritesTexts`), and what `quote` does (`Quoted.quotes_encode`).
-/

namespace LazyQuery

open Unquote (hexValue? named? readHex4 readNumbered readEscape readRest isHighSurrogate isLowSurrogate)

namespace Quoted

/-! ### What is written -/

/-- The characters that may not stand for themselves. -/
def MustEscape (c : Char) : Prop :=
  c = '"' ∨ c = '\\' ∨ c.toNat < 0x20

instance (c : Char) : Decidable (MustEscape c) :=
  inferInstanceAs (Decidable (_ ∨ _ ∨ _))

/-- The escapes of a character: a letter that stands for it, or four hexadecimal digits, of either case, that are its
number. -/
inductive Escapes (c : Char) : List Char → Prop
  | named {letter : Char} (hletter : named? letter = some c) : Escapes c ['\\', letter]
  | numbered {w x y z : Char} {i j k l : Nat} (hw : hexValue? w = some i) (hx : hexValue? x = some j)
    (hy : hexValue? y = some k) (hz : hexValue? z = some l) (hvalue : ((i * 16 + j) * 16 + k) * 16 + l = c.toNat) :
    Escapes c ['\\', 'u', w, x, y, z]

/-- The written form of a character. -/
def WrittenAs (c : Char) (piece : List Char) : Prop :=
  if MustEscape c then Escapes c piece else piece = [c]

/-- The characters one after another, between quotes. -/
def Quotes (text written : List Char) : Prop :=
  ∃ pieces, List.Forall₂ WrittenAs text pieces ∧ written = '"' :: (pieces.flatten ++ ['"'])

/-- **What a writer of JSON says of its texts**: each of them can be written, and is quoted. -/
def WritesTexts {ε : Type} (write : String → Except ε String) : Prop :=
  ∀ text, ∃ written, write text = .ok written ∧ Quotes text.toList written.toList

section Writing

variable {c : Char} {piece text written : List Char}

lemma printable_of_hexValue {n : Nat} (h : hexValue? c = some n) : 0x20 ≤ c.toNat := by
  have hall : ∀ n < 0x20, hexValue? (Char.ofNat n) = none := by decide
  by_contra hcontrol
  have hnone := hall c.toNat (by omega)
  rw [Char.ofNat_toNat, h] at hnone
  cases hnone

lemma printable_of_named {letter : Char} (h : named? letter = some c) : 0x20 ≤ letter.toNat := by
  unfold named? at h
  split at h <;> first | decide | cases h

lemma WrittenAs.printable (h : WrittenAs c piece) : ∀ x ∈ piece, 0x20 ≤ x.toNat := by
  unfold WrittenAs at h
  split at h
  · cases h with
    | named hletter => simp [printable_of_named hletter]
    | numbered hw hx hy hz =>
      simp [printable_of_hexValue hw, printable_of_hexValue hx, printable_of_hexValue hy, printable_of_hexValue hz]
  · next hplain =>
    subst h
    simp only [MustEscape, not_or, Nat.not_lt] at hplain
    simpa using hplain.2.2

/-- **A quoted text has no control characters.** -/
theorem Quotes.printable (h : Quotes text written) : ∀ x ∈ written, 0x20 ≤ x.toNat := by
  obtain ⟨pieces, hpieces, rfl⟩ := h
  have hall : ∀ x ∈ pieces.flatten, 0x20 ≤ x.toNat := by
    induction hpieces with
    | nil => simp
    | cons hfirst _ ih => exact List.forall_mem_append.mpr ⟨hfirst.printable, ih⟩
  have hquote : ∀ x ∈ ['"'], 0x20 ≤ x.toNat := List.forall_mem_singleton.mpr (by decide)
  exact List.forall_mem_cons.mpr ⟨by decide, List.forall_mem_append.mpr ⟨hall, hquote⟩⟩

/-- A text in which nothing is escaped stands between the quotes as it is. -/
lemma Quotes.eq_of_plain (h : Quotes text written) (hplain : ∀ c ∈ text, ¬ MustEscape c) :
    written = '"' :: (text ++ ['"']) := by
  obtain ⟨pieces, hpieces, rfl⟩ := h
  have hflatten : pieces.flatten = text := by
    induction hpieces with
    | nil => rfl
    | cons hfirst _ ih =>
      obtain ⟨hc, hrest⟩ := List.forall_mem_cons.mp hplain
      rw [WrittenAs, if_neg hc] at hfirst
      rw [List.flatten_cons, hfirst, ih hrest, List.singleton_append]
  rw [hflatten]

lemma hexValue_hexDigit {n : Nat} (h : n < 16) : hexValue? (hexDigit n) = some n := by
  have hall : ∀ n < 16, hexValue? (hexDigit n) = some n := by decide
  exact hall n h

lemma writtenAs_of_escapes (hc : MustEscape c) (h : Escapes c piece) : WrittenAs c piece := by
  rwa [WrittenAs, if_pos hc]

lemma writtenAs_escape (c : Char) : WrittenAs c (escape c) := by
  have hnamed {n : Nat} {letter : Char} (hn : c.toNat = n) (hcontrol : n < 0x20)
      (hletter : named? letter = some (Char.ofNat n)) : WrittenAs c ['\\', letter] := by
    subst hn
    rw [Char.ofNat_toNat] at hletter
    exact writtenAs_of_escapes (.inr (.inr hcontrol)) (.named hletter)
  unfold escape
  split_ifs with hquote hbackslash hprintable hbackspace htab hnewline hfeed hreturn
  · exact writtenAs_of_escapes (.inl hquote) (.named (congrArg some hquote.symm))
  · exact writtenAs_of_escapes (.inr (.inl hbackslash)) (.named (congrArg some hbackslash.symm))
  · have hplain : ¬ MustEscape c := by simp [MustEscape, hquote, hbackslash, hprintable]
    rw [WrittenAs, if_neg hplain]
  · exact hnamed hbackspace (by decide) rfl
  · exact hnamed htab (by decide) rfl
  · exact hnamed hnewline (by decide) rfl
  · exact hnamed hfeed (by decide) rfl
  · exact hnamed hreturn (by decide) rfl
  · have hcontrol : c.toNat < 0x20 := by omega
    have hzero : hexValue? '0' = some 0 := by decide
    refine writtenAs_of_escapes (.inr (.inr hcontrol)) (.numbered hzero hzero (hexValue_hexDigit (by omega))
      (hexValue_hexDigit (by omega)) (by omega))

/-- **And so does `encode`.** -/
theorem quotes_encode (text : List Char) : Quotes text (encode text) := by
  refine ⟨text.map escape, ?_, by simp [encode, List.flatMap_def]⟩
  exact List.forall₂_map_right_iff.mpr (List.forall₂_same.mpr fun c _ => writtenAs_escape c)

end Writing

end Quoted

namespace Unquote

/-! ### What is read -/

/-- What has been read with one more character in front. -/
def prepend (c : Char) (read : Except TextFault (List Char × List Char)) : Except TextFault (List Char × List Char) :=
  read.map fun (cs, after) => (c :: cs, after)

lemma readRest_plain {c : Char} (hquote : c ≠ '"') (hbackslash : c ≠ '\\') (hprintable : 0x20 ≤ c.toNat)
    (rest : List Char) : readRest (c :: rest) = prepend c (readRest rest) := by
  rw [readRest]
  · rw [if_neg (by omega)]
    cases readRest rest <;> rfl
  · exact hquote
  · exact hbackslash

lemma readRest_backslash {c : Char} {text rest : List Char} {h : rest.length < text.length}
    (hescape : readEscape text = .ok (c, ⟨rest, h⟩)) : readRest ('\\' :: text) = prepend c (readRest rest) := by
  rw [readRest, hescape]
  show (readRest rest >>= fun read => return (c :: read.1, read.2)) = _
  cases readRest rest <;> rfl

lemma readEscape_named {letter c : Char} (hletter : named? letter = some c) (rest : List Char) :
    ∃ h, readEscape (letter :: rest) = .ok (c, ⟨rest, h⟩) := by
  have hu : letter ≠ 'u' := by
    rintro rfl
    cases hletter
  refine ⟨by simp, ?_⟩
  rw [readEscape, hletter]
  exact hu

/-- A character by its number, which is that of no half of a pair. -/
lemma readEscape_numbered {c w x y z : Char} {i j k l : Nat} (hw : hexValue? w = some i) (hx : hexValue? x = some j)
    (hy : hexValue? y = some k) (hz : hexValue? z = some l) (hvalue : ((i * 16 + j) * 16 + k) * 16 + l = c.toNat)
    (hc : c.toNat < 0xD800) (rest : List Char) :
    ∃ h, readEscape ('u' :: w :: x :: y :: z :: rest) = .ok (c, ⟨rest, h⟩) := by
  have hnohigh : isHighSurrogate c.toNat = false := by simp [isHighSurrogate]; omega
  have hnolow : isLowSurrogate c.toNat = false := by simp [isLowSurrogate]; omega
  have hlength : rest.length < ('u' :: w :: x :: y :: z :: rest).length := by
    simp only [List.length_cons]
    omega
  refine ⟨hlength, ?_⟩
  have hread : readHex4 (w :: x :: y :: z :: rest) =
      .ok (c.toNat, ⟨rest, by simp only [List.length_cons]; omega⟩) := by
    simp only [readHex4, hw, hx, hy, hz, hvalue]
  have hnumbered : readNumbered (w :: x :: y :: z :: rest) =
      .ok (c, ⟨rest, by simp only [List.length_cons]; omega⟩) := by
    simp [readNumbered, hread, bind, Except.bind, hnohigh, hnolow]
    rfl
  simp [readEscape, hnumbered, bind, Except.bind]
  rfl

/-- **A written character is read as that character.** -/
theorem readRest_piece {c : Char} {piece : List Char} (h : Quoted.WrittenAs c piece) (rest : List Char) :
    readRest (piece ++ rest) = prepend c (readRest rest) := by
  unfold Quoted.WrittenAs at h
  split at h
  · next hescape =>
    cases h with
    | named hletter =>
      obtain ⟨_, hread⟩ := readEscape_named hletter rest
      exact readRest_backslash hread
    | numbered hw hx hy hz hvalue =>
      have hc : c.toNat < 0xD800 := by
        rcases hescape with rfl | rfl | hcontrol
        · decide
        · decide
        · omega
      obtain ⟨_, hread⟩ := readEscape_numbered hw hx hy hz hvalue hc rest
      exact readRest_backslash hread
  · next hplain =>
    subst h
    simp only [Quoted.MustEscape, not_or, Nat.not_lt] at hplain
    exact readRest_plain hplain.1 hplain.2.1 hplain.2.2 rest

/-- **What is quoted is read back**, up to the closing quote. -/
theorem readRest_pieces {text : List Char} {pieces : List (List Char)}
    (h : List.Forall₂ Quoted.WrittenAs text pieces) (rest : List Char) :
    readRest (pieces.flatten ++ '"' :: rest) = .ok (text, rest) := by
  induction h with
  | nil => rw [List.flatten_nil, List.nil_append, readRest]
  | cons hfirst _ ih =>
    rw [List.flatten_cons, List.append_assoc, readRest_piece hfirst, ih]
    rfl

/-- At least the closing quote is read. -/
lemma length_lt_of_readRest {text cs after : List Char} (h : readRest text = .ok (cs, after)) :
    after.length < text.length := by
  fun_induction readRest text generalizing cs after with
  | case1 => cases h
  | case2 rest =>
    cases h
    exact Nat.lt_succ_self _
  | case3 rest ih =>
    rcases hescape : readEscape rest with e | ⟨c, rest', hlength⟩
    · rw [hescape] at h
      cases h
    · rcases hread : readRest rest' with e | ⟨cs', after'⟩
      · simp [hescape, hread, bind, Except.bind] at h
      · simp only [hescape, hread, bind, Except.bind, pure, Except.pure, Except.ok.injEq, Prod.mk.injEq] at h
        obtain ⟨-, rfl⟩ := h
        have hafter := ih rest' hlength hread
        simp only [List.length_cons]
        omega
  | case4 => cases h
  | case5 c rest _ _ _ ih =>
    rcases hread : readRest rest with e | ⟨cs', after'⟩
    · simp [hread, bind, Except.bind] at h
    · simp only [hread, bind, Except.bind, pure, Except.pure, Except.ok.injEq, Prod.mk.injEq] at h
      obtain ⟨-, rfl⟩ := h
      have hafter := ih hread
      simp only [List.length_cons]
      omega

end Unquote

end LazyQuery
