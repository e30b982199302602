import CppNet.Http.Url
import CppNet.Lib.Escapes

/-!
# The grammars of the encoded strings

Two grammars, neither of them translated from the source. In `percent` a `%` is
followed by two hexadecimal digits; it is what a decoder has to accept.
`canonical` has one text for every byte; it is what an encoder has to produce.

`UrlDecode` decodes the strings of `percent` token by token (`urlDecode_tokens`).
It accepts others, since `FromHex` takes all letters (`urlDecode_grammar_iff`).
`UrlEncode` produces `canonical` texts for ASCII; the sign of a negative `char`
changes the high digit, which makes a canonical text of some other byte or none
at all (`urlEncode_canonical_iff`).
-/

namespace CppNet

open Escapes (Grammar)
open Escapes.Grammar (text Token)

set_option maxRecDepth 8000

/-! ## Digits -/

def isHexDigit (ch : Byte) : Bool :=
  ('0'.toUInt8 ≤ ch ∧ ch ≤ '9'.toUInt8) ∨ ('A'.toUInt8 ≤ ch ∧ ch ≤ 'F'.toUInt8)
    ∨ ('a'.toUInt8 ≤ ch ∧ ch ≤ 'f'.toUInt8)

def isUpperHexDigit (ch : Byte) : Bool :=
  ('0'.toUInt8 ≤ ch ∧ ch ≤ '9'.toUInt8) ∨ ('A'.toUInt8 ≤ ch ∧ ch ≤ 'F'.toUInt8)

/-- The value of a hexadecimal digit. -/
def digitValue (ch : Byte) : Byte :=
  if ch ≤ '9'.toUInt8 then ch - '0'.toUInt8
  else if ch ≤ 'F'.toUInt8 then ch - 'A'.toUInt8 + 10
  else ch - 'a'.toUInt8 + 10

/-- The byte two digits stand for. -/
def byteOf (high low : Byte) : Byte := digitValue high * 16 + digitValue low

theorem fromHex_hexDigit (ch : Byte) (h : isHexDigit ch = true) :
    fromHex ch = .ok (digitValue ch) := by
  revert ch
  refine forall_byte ?_
  decide

theorem isHexDigit_of_upper (ch : Byte) (h : isUpperHexDigit ch = true) :
    isHexDigit ch = true := by
  revert ch
  refine forall_byte ?_
  decide

/-! ## Grammars -/

/-- A `%` with two hexadecimal digits, or any other byte. -/
def percent : Grammar Byte where
  esc := '%'.toUInt8
  plain ch := ch != '%'.toUInt8
  pair high low := isHexDigit high && isHexDigit low
  plain_esc := by decide

/-- What needs no escape: letters, digits and four marks. -/
def isUnreserved (ch : Byte) : Bool :=
  ('0'.toUInt8 ≤ ch ∧ ch ≤ '9'.toUInt8) ∨ ('A'.toUInt8 ≤ ch ∧ ch ≤ 'Z'.toUInt8)
    ∨ ('a'.toUInt8 ≤ ch ∧ ch ≤ 'z'.toUInt8) ∨ ch = '-'.toUInt8 ∨ ch = '_'.toUInt8
    ∨ ch = '.'.toUInt8 ∨ ch = '~'.toUInt8

/-- The byte has no shorter text than an escape. -/
def needsEscape (ch : Byte) : Bool := !isUnreserved ch && ch != ' '.toUInt8

/-- An unreserved byte, a `+` for a space, or a `%` with the upper-case digits of a
byte that needs an escape. -/
def canonical : Grammar Byte where
  esc := '%'.toUInt8
  plain ch := isUnreserved ch || ch == '+'.toUInt8
  pair high low := isUpperHexDigit high && isUpperHexDigit low && needsEscape (byteOf high low)
  plain_esc := by decide

/-- The byte a token stands for. -/
def value {G : Grammar Byte} : G.Token → Byte
  | .plain ch _ => if ch = '+'.toUInt8 then ' '.toUInt8 else ch
  | .escape high low _ => byteOf high low

/-! ## Decoding tokens -/

theorem emits_token {G : Grammar Byte} (hesc : G.esc = '%'.toUInt8)
    (hpair : ∀ {high low}, G.pair high low = true → isHexDigit high = true ∧ isHexDigit low = true)
    (t : G.Token) : Tokens.Emits decodeTokens t.text [value t] := by
  intro rest
  cases t with
  | plain ch h =>
      have hpct : ch ≠ '%'.toUInt8 := hesc ▸ Escapes.Grammar.plain_ne_esc h
      rw [Token.text, List.cons_append, List.nil_append, value]
      by_cases hplus : ch = '+'.toUInt8
      · rw [if_pos hplus, hplus, decodeTokens_plus]
      · rw [if_neg hplus, decodeTokens_plain hplus hpct]
  | escape high low h =>
      obtain ⟨hhigh, hlow⟩ := hpair h
      rw [Token.text, hesc, List.cons_append, List.cons_append, List.cons_append,
        List.nil_append, decodeTokens_escape, fromHex_hexDigit high hhigh,
        fromHex_hexDigit low hlow]
      rfl

theorem percent_pair {high low : Byte} (h : percent.pair high low = true) :
    isHexDigit high = true ∧ isHexDigit low = true :=
  Bool.and_eq_true_iff.mp h

theorem canonical_pair {high low : Byte} (h : canonical.pair high low = true) :
    isUpperHexDigit high = true ∧ isUpperHexDigit low = true
      ∧ needsEscape (byteOf high low) = true := by
  obtain ⟨hdigits, hneeds⟩ := Bool.and_eq_true_iff.mp h
  obtain ⟨hhigh, hlow⟩ := Bool.and_eq_true_iff.mp hdigits
  exact ⟨hhigh, hlow, hneeds⟩

theorem urlDecode_percent (ts : List percent.Token) :
    urlDecode (text ts) = .ok (ts.map value) := by
  rw [urlDecode_eq]
  exact (Tokens.Emits.flatMap_map fun t _ => emits_token rfl percent_pair t).decode rfl

theorem urlDecode_canonical (ts : List canonical.Token) :
    urlDecode (text ts) = .ok (ts.map value) := by
  rw [urlDecode_eq]
  refine (Tokens.Emits.flatMap_map fun t _ => emits_token rfl ?_ t).decode rfl
  intro high low h
  obtain ⟨hhigh, hlow, -⟩ := canonical_pair h
  exact ⟨isHexDigit_of_upper high hhigh, isHexDigit_of_upper low hlow⟩

/-- `UrlDecode` returns on the texts of `percent`, what it returns are the values of
the tokens, and so it decodes the parts of such a text by themselves. -/
theorem urlDecode_tokens (ts us : List percent.Token) :
    urlDecode (text ts) = .ok (ts.map value)
      ∧ urlDecode (text ts ++ text us) = .ok (ts.map value ++ us.map value) := by
  refine ⟨urlDecode_percent ts, ?_⟩
  rw [← Escapes.Grammar.text_append, urlDecode_percent, List.map_append]

/-! ## What the decoder accepts beyond the grammar -/

/-- A letter that `FromHex` takes for a digit. -/
def isForeignDigit (ch : Byte) : Bool := isalnum (promote ch) && !isHexDigit ch

/-- Such a letter stands in the two places behind a `%`. -/
def hasForeignDigit : Bytes → Bool
  | [] => false
  | ch :: s => (ch == '%'.toUInt8 && (s.take 2).any isForeignDigit) || hasForeignDigit s

theorem hasForeignDigit_cons_of_ne {ch : Byte} (h : ch ≠ '%'.toUInt8) (s : Bytes) :
    hasForeignDigit (ch :: s) = hasForeignDigit s := by
  simp [hasForeignDigit, h]

theorem hasForeignDigit_escape {high low : Byte} (hhigh : isalnum (promote high) = true)
    (hlow : isalnum (promote low) = true) (s : Bytes) :
    hasForeignDigit ('%'.toUInt8 :: high :: low :: s)
      = (!(percent.pair high low) || hasForeignDigit s) := by
  rw [hasForeignDigit, hasForeignDigit_cons_of_ne (isalnum_ne_percent hhigh),
    hasForeignDigit_cons_of_ne (isalnum_ne_percent hlow)]
  simp [isForeignDigit, percent, hhigh, hlow]

/-- Of the strings the decoder accepts, the others are not in the grammar. -/
theorem percent_accepts_iff {s : Bytes} (h : escapesOk s = true) :
    percent.Accepts s ↔ hasForeignDigit s = false := by
  match s with
  | [] => exact ⟨fun _ => rfl, fun _ => Escapes.Grammar.accepts_nil⟩
  | ch :: s =>
      by_cases hpct : ch = '%'.toUInt8
      · subst hpct
        match s with
        | [] => cases h
        | [_] => simp [escapesOk, twoAlnum] at h
        | high :: low :: s =>
            rw [escapesOk_escape, Bool.and_eq_true_iff, Bool.and_eq_true_iff] at h
            obtain ⟨⟨hhigh, hlow⟩, hs⟩ := h
            rw [hasForeignDigit_escape hhigh hlow]
            refine (Escapes.Grammar.accepts_escape_iff (G := percent) high low s).trans ?_
            rw [percent_accepts_iff hs, Bool.or_eq_false_iff, Bool.not_eq_false']
      · rw [escapesOk_cons_of_ne hpct] at h
        rw [hasForeignDigit_cons_of_ne hpct, Escapes.Grammar.accepts_cons_iff hpct,
          percent_accepts_iff h]
        exact and_iff_right (bne_iff_ne.mpr hpct)

/-- `UrlDecode` keeps to the grammar exactly on the strings without a foreign digit, and
on those it rejects. -/
theorem urlDecode_grammar_iff (s : Bytes) :
    ((urlDecode s).isOk = true → percent.Accepts s)
      ↔ (hasForeignDigit s = true → escapesOk s = false) := by
  rw [urlDecode_isOk]
  cases h : escapesOk s with
  | false => simp
  | true => simp [percent_accepts_iff h]

/-- `"%GG"` decodes to 16 * 16 + 16, which is the byte 16. -/
theorem urlDecode_gg :
    urlDecode [37, 71, 71] = .ok [16]
      ∧ ¬ ((urlDecode [37, 71, 71]).isOk = true → percent.Accepts [37, 71, 71]) := by
  have hdecode : urlDecode [37, 71, 71] = .ok [16] := by
    rw [urlDecode_eq]
    decide
  refine ⟨hdecode, fun h => ?_⟩
  have haccepts : percent.Accepts [37, 71, 71] := h (by rw [hdecode]; rfl)
  rw [percent_accepts_iff (by decide)] at haccepts
  cases haccepts

/-! ## What the encoder produces -/

/-- The text of the byte is canonical: it is ASCII, or negative with a high digit that,
off by the sign, gives the text of another byte that needs an escape. -/
def encodesCanonically (ch : Byte) : Bool :=
  ch < 128 || (0x90 ≤ ch && needsEscape (ch - 0x90))

theorem encodeChar_plain (ch : Byte) (h : encodeChar ch = [ch]) :
    canonical.plain ch = true ∧ encodesCanonically ch = true := by
  revert ch
  refine forall_byte ?_
  decide

theorem encodeChar_pair (ch : Byte) (h : encodeChar ch = ['%'.toUInt8, highDigit ch, lowDigit ch]) :
    canonical.pair (highDigit ch) (lowDigit ch) = encodesCanonically ch := by
  revert ch
  refine forall_byte ?_
  decide

theorem accepts_encodeChar (ch : Byte) (s : Bytes) :
    canonical.Accepts (encodeChar ch ++ s)
      ↔ encodesCanonically ch = true ∧ canonical.Accepts s := by
  rcases encodeChar_cases ch with ⟨he, -, -, hpct⟩ | ⟨he, rfl⟩ | he
  · obtain ⟨hplain, hcode⟩ := encodeChar_plain ch he
    rw [he, List.cons_append, List.nil_append, Escapes.Grammar.accepts_cons_iff hpct]
    exact and_congr_left' (iff_of_true hplain hcode)
  · rw [he, List.cons_append, List.nil_append, Escapes.Grammar.accepts_cons_iff (by decide)]
    exact and_congr_left' (iff_of_true rfl rfl)
  · rw [he, List.cons_append, List.cons_append, List.cons_append, List.nil_append,
      ← encodeChar_pair ch he]
    exact Escapes.Grammar.accepts_escape_iff (G := canonical) _ _ s

theorem accepts_urlEncode (s : Bytes) :
    canonical.Accepts (urlEncode s) ↔ ∀ ch ∈ s, encodesCanonically ch = true := by
  rw [urlEncode_eq_flatMap]
  induction s with
  | nil => exact ⟨fun _ => by simp, fun _ => Escapes.Grammar.accepts_nil⟩
  | cons ch s ih => rw [List.flatMap_cons, accepts_encodeChar, ih, List.forall_mem_cons]

/-! ## Encoding what was decoded -/

/-- The token stands for an ASCII character. -/
def isAscii : canonical.Token → Bool
  | .plain .. => true
  | .escape high .. => high < '8'.toUInt8

def upperHexDigits : Bytes := [48, 49, 50, 51, 52, 53, 54, 55, 56, 57, 65, 66, 67, 68, 69, 70]

theorem mem_upperHexDigits (ch : Byte) (h : isUpperHexDigit ch = true) : ch ∈ upperHexDigits := by
  revert ch
  refine forall_byte ?_
  decide

theorem encodeChar_value_plain (ch : Byte) (h : canonical.plain ch = true) :
    encodeChar (if ch = '+'.toUInt8 then ' '.toUInt8 else ch) = [ch] := by
  revert ch
  refine forall_byte ?_
  decide

/-- Of the bytes that need an escape, the encoder returns the ASCII ones to the digits
they came from, and gives the others another high digit. -/
theorem encodeChar_byteOf {high low : Byte} (h : canonical.pair high low = true) :
    if high < '8'.toUInt8 then encodeChar (byteOf high low) = ['%'.toUInt8, high, low]
    else ∃ high' low', encodeChar (byteOf high low) = ['%'.toUInt8, high', low']
      ∧ high' ≠ high := by
  have hdigits : ∀ high ∈ upperHexDigits, ∀ low ∈ upperHexDigits,
      needsEscape (byteOf high low) = true →
        encodeChar (byteOf high low)
            = ['%'.toUInt8, highDigit (byteOf high low), lowDigit (byteOf high low)]
          ∧ (lowDigit (byteOf high low) = low)
          ∧ (highDigit (byteOf high low) = high ↔ high < '8'.toUInt8) := by
    decide
  obtain ⟨hhigh, hlow, hneeds⟩ := canonical_pair h
  obtain ⟨hcode, hl, hh⟩ := hdigits high (mem_upperHexDigits high hhigh) low
    (mem_upperHexDigits low hlow) hneeds
  split
  · rename_i hascii
    rw [hcode, hl, hh.mpr hascii]
  · rename_i hnegative
    exact ⟨_, _, hcode, fun heq => hnegative (hh.mp heq)⟩

theorem encodeChar_value_append_iff (t : canonical.Token) (a b : Bytes) :
    encodeChar (value t) ++ a = t.text ++ b ↔ isAscii t = true ∧ a = b := by
  cases t with
  | plain ch h =>
      rw [value, encodeChar_value_plain ch h, Token.text, List.append_cancel_left_eq]
      exact (and_iff_right rfl).symm
  | escape high low h =>
      have hcode := encodeChar_byteOf h
      rw [value, Token.text, isAscii, decide_eq_true_eq]
      split at hcode
      · rename_i hascii
        rw [hcode, show canonical.esc = '%'.toUInt8 from rfl, List.append_cancel_left_eq]
        exact (and_iff_right hascii).symm
      · rename_i hnegative
        obtain ⟨high', low', hcode, hne⟩ := hcode
        rw [hcode]
        refine iff_of_false (fun heq => hne ?_) fun h => hnegative h.1
        exact (List.cons.inj (List.cons.inj heq).2).1

theorem urlEncode_values_iff (ts : List canonical.Token) :
    urlEncode (ts.map value) = text ts ↔ ∀ t ∈ ts, isAscii t = true := by
  rw [urlEncode_eq_flatMap]
  induction ts with
  | nil => simp
  | cons t ts ih =>
      rw [List.map_cons, List.flatMap_cons, Escapes.Grammar.text_cons,
        encodeChar_value_append_iff, ih, List.forall_mem_cons]

/-- `UrlEncode` gives a canonical text exactly for the strings whose bytes have one, and a
canonical text decodes, to a string that is encoded as this text exactly if all its
tokens stand for ASCII characters. -/
theorem urlEncode_canonical_iff (s : Bytes) (ts : List canonical.Token) :
    (canonical.Accepts (urlEncode s) ↔ ∀ ch ∈ s, encodesCanonically ch = true)
      ∧ ∃ t, urlDecode (text ts) = .ok t
        ∧ (urlEncode t = text ts ↔ ∀ token ∈ ts, isAscii token = true) :=
  ⟨accepts_urlEncode s, ts.map value, urlDecode_canonical ts, urlEncode_values_iff ts⟩

/-- The byte `0xC3` is encoded as `%33`, the text of a digit, and `%C3` comes back as
that too. -/
theorem urlEncode_c3 :
    ¬ canonical.Accepts (urlEncode [0xC3])
      ∧ canonical.Accepts [37, 67, 51] ∧ urlDecode [37, 67, 51] = .ok [0xC3]
      ∧ urlEncode [0xC3] = [37, 51, 51] := by
  refine ⟨?_, ⟨[.escape 67 51 rfl], rfl⟩, ?_, by decide⟩
  · rw [accepts_urlEncode]
    decide
  · rw [urlDecode_eq]
    decide

end CppNet
