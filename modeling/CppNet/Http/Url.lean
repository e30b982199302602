import CppNet.Cxx
import CppNet.Lib.Tokens

/-!
# URL encoding and decoding

`ToHex`, `FromHex`, `UrlEncode` and `UrlDecode` of `http_connection.cpp`.

`UrlDecode` is a loop over an index; `urlDecode_eq` turns it into a recursion
over the string (`decodeTokens`), about which everything else is proved. A
decoder of that shape either reads one token and goes on, or stops at a
failing assert, so what it accepts is a local property of the string
(`escapesOk`: behind every `%` stand two letters or digits). What comes back of
an encoded string is known byte by byte (`urlDecode_urlEncode_eq`), and the
seven-bit bytes are those that come back as they were.
-/

namespace CppNet

-- the properties of single characters are evaluated for all 256
set_option maxRecDepth 8000

/-! ## The source functions -/

/-- `ToHex`; the sums are narrowed back to `unsigned char`. -/
def toHex (num : Byte) : Byte :=
  if num > 9 then num + 55 else num + 48

/-- `FromHex`. It takes every letter, not only `A` to `F`. -/
def fromHex (ch : Byte) : Except Fault Byte :=
  if 'A'.toUInt8 ≤ ch ∧ ch ≤ 'Z'.toUInt8 then .ok (ch - 'A'.toUInt8 + 10)
  else if 'a'.toUInt8 ≤ ch ∧ ch ≤ 'z'.toUInt8 then .ok (ch - 'a'.toUInt8 + 10)
  else if '0'.toUInt8 ≤ ch ∧ ch ≤ '9'.toUInt8 then .ok (ch - '0'.toUInt8)
  else .error .assertHex

/-- `ToHex(ch >> 4)`. The shift of a negative `ch` shifts the sign in. -/
def highDigit (ch : Byte) : Byte := toHex (toUChar ((promote ch).sshiftRight 4))

/-- `ToHex(ch & 0x0F)`. -/
def lowDigit (ch : Byte) : Byte := toHex (toUChar (promote ch &&& 0x0F#32))

/-- One round of the loop of `UrlEncode`: what is appended for `ch`. -/
def encodeChar (ch : Byte) : Bytes :=
  if isalnum (promote ch) ∨ ch = '-'.toUInt8 ∨ ch = '_'.toUInt8 ∨ ch = '.'.toUInt8
      ∨ ch = '~'.toUInt8 then
    [ch]
  else if ch = ' '.toUInt8 then
    ['+'.toUInt8]
  else
    ['%'.toUInt8, highDigit ch, lowDigit ch]

/-- `UrlEncode`. -/
def urlEncode (str : Bytes) : Bytes :=
  str.foldl (fun strTemp ch => strTemp ++ encodeChar ch) []

/-- The loop of `UrlDecode` from index `i` on. -/
def urlDecodeLoop (str : Bytes) (i : Nat) (strTemp : Bytes) : Except Fault Bytes :=
  if i < str.length then do
    let ch ← charAt str i
    if ch = '+'.toUInt8 then
      urlDecodeLoop str (i + 1) (strTemp ++ [' '.toUInt8])
    else if ch = '%'.toUInt8 then
      if i + 2 < str.length then do
        let high ← fromHex (← charAt str (i + 1))
        let low ← fromHex (← charAt str (i + 2))
        urlDecodeLoop str (i + 3) (strTemp ++ [high * 16 + low])
      else .error .assertLength
    else
      urlDecodeLoop str (i + 1) (strTemp ++ [ch])
  else .ok strTemp
termination_by str.length - i

/-- `UrlDecode`. -/
def urlDecode (str : Bytes) : Except Fault Bytes := urlDecodeLoop str 0 []

/-! ## The decoder as a recursion over the string -/

/-- What `UrlDecode` does to the rest of the string. -/
def decodeTokens : Bytes → Except Fault Bytes
  | [] => .ok []
  | ch :: s =>
      if ch = '+'.toUInt8 then (decodeTokens s).map ([' '.toUInt8] ++ ·)
      else if ch = '%'.toUInt8 then
        match s with
        | h :: l :: s' => do
            let high ← fromHex h
            let low ← fromHex l
            (decodeTokens s').map ([high * 16 + low] ++ ·)
        | _ => .error .assertLength
      else (decodeTokens s).map ([ch] ++ ·)

theorem decodeTokens_plus (s : Bytes) :
    decodeTokens ('+'.toUInt8 :: s) = (decodeTokens s).map ([' '.toUInt8] ++ ·) := by
  rw [decodeTokens.eq_def]
  rfl

theorem decodeTokens_escape (h l : Byte) (s : Bytes) :
    decodeTokens ('%'.toUInt8 :: h :: l :: s) =
      (do
        let high ← fromHex h
        let low ← fromHex l
        (decodeTokens s).map ([high * 16 + low] ++ ·)) := by
  rw [decodeTokens.eq_def]
  rfl

theorem decodeTokens_short {s : Bytes} (hs : s.length < 2) :
    decodeTokens ('%'.toUInt8 :: s) = .error .assertLength := by
  match s, hs with
  | [], _ => rfl
  | [_], _ => rfl

theorem decodeTokens_plain {ch : Byte} (hplus : ch ≠ '+'.toUInt8)
    (hpct : ch ≠ '%'.toUInt8) (s : Bytes) :
    decodeTokens (ch :: s) = (decodeTokens s).map ([ch] ++ ·) := by
  rw [decodeTokens.eq_def]
  simp only [hplus, hpct, if_false]

theorem charAt_of_lt {str : Bytes} {i : Nat} (h : i < str.length) :
    charAt str i = .ok str[i] := by
  simp [charAt, h]

theorem map_append_append (r : Except Fault Bytes) (a b : Bytes) :
    r.map ((a ++ b) ++ ·) = (r.map (b ++ ·)).map (a ++ ·) := by
  cases r <;> simp [Except.map]

theorem urlDecodeLoop_eq (str : Bytes) (i : Nat) (strTemp : Bytes) :
    urlDecodeLoop str i strTemp = (decodeTokens (str.drop i)).map (strTemp ++ ·) := by
  rw [urlDecodeLoop]
  by_cases hi : i < str.length
  · rw [if_pos hi, List.drop_eq_getElem_cons hi, charAt_of_lt hi]
    simp only [bind, Except.bind]
    by_cases hplus : str[i] = '+'.toUInt8
    · rw [if_pos hplus, hplus, decodeTokens_plus, urlDecodeLoop_eq str (i + 1),
        map_append_append]
    · rw [if_neg hplus]
      by_cases hpct : str[i] = '%'.toUInt8
      · rw [if_pos hpct, hpct]
        -- the assert holds exactly when two more bytes follow
        by_cases hlen : i + 2 < str.length
        · rw [if_pos hlen, charAt_of_lt (show i + 1 < str.length by omega),
            charAt_of_lt hlen,
            List.drop_eq_getElem_cons (show i + 1 < str.length by omega),
            List.drop_eq_getElem_cons hlen, decodeTokens_escape]
          simp only [bind, Except.bind]
          cases fromHex str[i + 1] with
          | error f => rfl
          | ok high =>
              cases fromHex str[i + 2] with
              | error f => rfl
              | ok low =>
                  simp only
                  rw [urlDecodeLoop_eq str (i + 3), map_append_append]
        · rw [if_neg hlen, decodeTokens_short (by rw [List.length_drop]; omega)]
          rfl
      · rw [if_neg hpct, decodeTokens_plain hplus hpct, urlDecodeLoop_eq str (i + 1),
          map_append_append]
  · rw [if_neg hi, List.drop_eq_nil_of_le (by omega)]
    simp [decodeTokens, Except.map]
termination_by str.length - i

theorem urlDecode_eq (str : Bytes) : urlDecode str = decodeTokens str := by
  rw [urlDecode, urlDecodeLoop_eq, List.drop_zero]
  cases decodeTokens str <;> rfl

/-! ## What the decoder accepts -/

/-- The string goes on with two letters or digits. -/
def twoAlnum : Bytes → Bool
  | h :: l :: _ => isalnum (promote h) && isalnum (promote l)
  | _ => false

/-- Behind every `%` stand two letters or digits. -/
def escapesOk : Bytes → Bool
  | [] => true
  | ch :: s => (ch != '%'.toUInt8 || twoAlnum s) && escapesOk s

theorem escapesOk_cons_of_ne {ch : Byte} (h : ch ≠ '%'.toUInt8) (s : Bytes) :
    escapesOk (ch :: s) = escapesOk s := by
  simp [escapesOk, h]

theorem isalnum_ne_percent {ch : Byte} (h : isalnum (promote ch) = true) :
    ch ≠ '%'.toUInt8 := by
  rintro rfl
  revert h
  decide

theorem escapesOk_escape (h l : Byte) (s : Bytes) :
    escapesOk ('%'.toUInt8 :: h :: l :: s) =
      (isalnum (promote h) && isalnum (promote l) && escapesOk s) := by
  by_cases hh : isalnum (promote h) = true
  · by_cases hl : isalnum (promote l) = true
    · rw [escapesOk, escapesOk_cons_of_ne (isalnum_ne_percent hh),
        escapesOk_cons_of_ne (isalnum_ne_percent hl)]
      simp [twoAlnum, hh, hl]
    · simp [escapesOk, twoAlnum, hl]
  · simp [escapesOk, twoAlnum, hh]

/-- A byte that cannot stand in an escape cuts the condition in two. -/
theorem escapesOk_append_cons {sep : Byte} (hsep : isalnum (promote sep) = false)
    (hpct : sep ≠ '%'.toUInt8) (a b : Bytes) :
    escapesOk (a ++ sep :: b) = (escapesOk a && escapesOk b) := by
  have htwo : ∀ a : Bytes, twoAlnum (a ++ sep :: b) = twoAlnum a := fun a =>
    match a with
    | [] => by cases b <;> simp [twoAlnum, hsep]
    | [x] => by simp [twoAlnum, hsep]
    | x :: y :: a => rfl
  induction a with
  | nil => simp [escapesOk, hpct]
  | cons ch a ih =>
      rw [List.cons_append, escapesOk, ih, htwo, escapesOk, Bool.and_assoc]

/-- The three ranges of `FromHex` are the letters and the digits. -/
theorem fromHex_isOk (ch : Byte) :
    (fromHex ch).isOk = isalnum (promote ch) := by
  revert ch
  refine forall_byte ?_
  decide

theorem fromHex_error {ch : Byte} {f : Fault} (h : fromHex ch = .error f) :
    f.IsAssert := by
  unfold fromHex at h
  split at h
  · cases h
  · split at h
    · cases h
    · split at h
      · cases h
      · obtain rfl := Except.error.inj h
        trivial

theorem decodeTokens_isOk (s : Bytes) : (decodeTokens s).isOk = escapesOk s := by
  match s with
  | [] => rfl
  | ch :: s =>
      by_cases hplus : ch = '+'.toUInt8
      · subst hplus
        rw [decodeTokens_plus, escapesOk_cons_of_ne (by decide), ← decodeTokens_isOk s]
        cases decodeTokens s <;> rfl
      · by_cases hpct : ch = '%'.toUInt8
        · subst hpct
          match s with
          | [] => rfl
          | [_] => rfl
          | h :: l :: s =>
              rw [decodeTokens_escape, escapesOk_escape, ← fromHex_isOk, ← fromHex_isOk,
                ← decodeTokens_isOk s]
              cases fromHex h with
              | error f => rfl
              | ok high =>
                  cases fromHex l with
                  | error f => rfl
                  | ok low => cases decodeTokens s <;> rfl
        · rw [decodeTokens_plain hplus hpct, escapesOk_cons_of_ne hpct,
            ← decodeTokens_isOk s]
          cases decodeTokens s <;> rfl

theorem decodeTokens_error {s : Bytes} {f : Fault} (h : decodeTokens s = .error f) :
    f.IsAssert := by
  match s with
  | [] => cases h
  | ch :: s =>
      by_cases hplus : ch = '+'.toUInt8
      · subst hplus
        rw [decodeTokens_plus] at h
        exact decodeTokens_error (map_eq_error.mp h)
      · by_cases hpct : ch = '%'.toUInt8
        · subst hpct
          match s with
          | [] => obtain rfl := Except.error.inj h; trivial
          | [_] => obtain rfl := Except.error.inj h; trivial
          | hi :: lo :: s =>
              rw [decodeTokens_escape] at h
              rcases bind_eq_error.mp h with hhigh | ⟨high, -, h⟩
              · exact fromHex_error hhigh
              · rcases bind_eq_error.mp h with hlow | ⟨low, -, h⟩
                · exact fromHex_error hlow
                · exact decodeTokens_error (map_eq_error.mp h)
        · rw [decodeTokens_plain hplus hpct] at h
          exact decodeTokens_error (map_eq_error.mp h)

/-- `UrlDecode` returns exactly on the strings whose escapes are complete. -/
theorem urlDecode_isOk (s : Bytes) : (urlDecode s).isOk = escapesOk s := by
  rw [urlDecode_eq, decodeTokens_isOk]

/-- Nothing but an assert stops `UrlDecode`: it reads no index out of range. -/
theorem urlDecode_error {s : Bytes} {f : Fault} (h : urlDecode s = .error f) :
    f.IsAssert := by
  rw [urlDecode_eq] at h
  exact decodeTokens_error h

/-! ## Decoding what was encoded -/

theorem urlEncode_eq_flatMap (str : Bytes) : urlEncode str = str.flatMap encodeChar := by
  have h : ∀ (str acc : Bytes), str.foldl (fun strTemp ch => strTemp ++ encodeChar ch) acc
      = acc ++ str.flatMap encodeChar := by
    intro str
    induction str with
    | nil => simp
    | cons ch str ih => simp [ih]
  exact (h str []).trans (List.nil_append _)

/-- The escape of the byte has a high digit that `FromHex` does not know. -/
def unreadable (ch : Byte) : Bool := 0x80 ≤ ch ∧ ch < 0x90

/-- What the code of the byte is read as: its sign takes 9 off the high digit. -/
def readBack (ch : Byte) : Byte := if ch < 0x80 then ch else ch - 0x90

theorem unreadable_ge {ch : Byte} (h : unreadable ch = true) : 128 ≤ ch := by
  simp only [unreadable, decide_eq_true_eq] at h
  exact h.1

/-- The bytes that are read back as they were are the seven-bit ones. -/
theorem readBack_eq_iff (ch : Byte) : readBack ch = ch ↔ ch < 128 := by
  revert ch
  refine forall_byte ?_
  decide

theorem map_readBack {s : Bytes} (h : ∀ ch ∈ s, ch < 128) :
    s.any unreadable = false ∧ s.map readBack = s := by
  constructor
  · exact List.any_eq_false.mpr fun ch hch hbad => UInt8.not_lt.mpr (unreadable_ge hbad) (h ch hch)
  · refine (List.map_congr_left fun ch hch => ?_).trans (List.map_id s)
    exact (readBack_eq_iff ch).mpr (h ch hch)

/-- The encoder's three branches, and what the decoder needs to know of each. -/
theorem encodeChar_cases (ch : Byte) :
    (encodeChar ch = [ch] ∧ readBack ch = ch ∧ ch ≠ '+'.toUInt8 ∧ ch ≠ '%'.toUInt8)
      ∨ (encodeChar ch = ['+'.toUInt8] ∧ ch = ' '.toUInt8)
      ∨ encodeChar ch = ['%'.toUInt8, highDigit ch, lowDigit ch] := by
  revert ch
  refine forall_byte ?_
  decide

theorem encodeChar_negative (ch : Byte) (h : 128 ≤ ch) :
    encodeChar ch = ['%'.toUInt8, highDigit ch, lowDigit ch] := by
  revert ch
  refine forall_byte ?_
  decide

theorem fromHex_lowDigit (ch : Byte) : fromHex (lowDigit ch) = .ok (ch % 16) := by
  revert ch
  refine forall_byte ?_
  decide

theorem fromHex_highDigit (ch : Byte) :
    fromHex (highDigit ch)
      = if unreadable ch then .error .assertHex else .ok (readBack ch / 16) := by
  revert ch
  refine forall_byte ?_
  decide

theorem readBack_mod (ch : Byte) : readBack ch / 16 * 16 + ch % 16 = readBack ch := by
  revert ch
  refine forall_byte ?_
  decide

theorem stops_encodeChar {ch : Byte} (h : unreadable ch = true) :
    Tokens.Stops decodeTokens (encodeChar ch) .assertHex := by
  intro rest
  rw [encodeChar_negative ch (unreadable_ge h), List.cons_append, List.cons_append,
    List.cons_append, List.nil_append, decodeTokens_escape, fromHex_highDigit, if_pos h]
  rfl

theorem emits_encodeChar {ch : Byte} (h : unreadable ch = false) :
    Tokens.Emits decodeTokens (encodeChar ch) [readBack ch] := by
  intro rest
  rcases encodeChar_cases ch with ⟨he, hback, hplus, hpct⟩ | ⟨he, rfl⟩ | he
  · rw [he, hback, List.cons_append, List.nil_append, decodeTokens_plain hplus hpct]
  · rw [he, List.cons_append, List.nil_append, decodeTokens_plus]
    rfl
  · rw [he, List.cons_append, List.cons_append, List.cons_append, List.nil_append,
      decodeTokens_escape, fromHex_highDigit, h, fromHex_lowDigit]
    simp only [Bool.false_eq_true, if_false, bind, Except.bind, readBack_mod]

/-- `UrlDecode` of what `UrlEncode` has made of any string. -/
theorem urlDecode_urlEncode_eq (s : Bytes) :
    urlDecode (urlEncode s)
      = if s.any unreadable then .error .assertHex else .ok (s.map readBack) := by
  rw [urlDecode_eq, urlEncode_eq_flatMap]
  exact Tokens.decode_flatMap_eq (fun _ h => emits_encodeChar h) (fun _ h => stops_encodeChar h)
    rfl s

/-! ## The round trip -/

/-- **Round trip.** `UrlDecode` undoes `UrlEncode` exactly on the strings
without a negative `char`. -/
theorem urlDecode_urlEncode_iff (s : Bytes) :
    urlDecode (urlEncode s) = .ok s ↔ ∀ ch ∈ s, ch < 128 := by
  rw [urlDecode_urlEncode_eq]
  constructor
  · intro h
    split at h
    · cases h
    · have hmap : s.map readBack = s.map id := (Except.ok.inj h).trans (List.map_id s).symm
      intro ch hch
      exact (readBack_eq_iff ch).mp (List.map_inj_left.mp hmap ch hch)
  · intro h
    obtain ⟨hreadable, hmap⟩ := map_readBack h
    rw [hreadable, hmap]
    rfl

/-- The byte `0xC3`, which begins the UTF-8 form of most accented letters,
is encoded as `%33` and comes back as the digit 3. -/
theorem urlDecode_urlEncode_c3 :
    urlDecode (urlEncode [0xC3]) = .ok [0x33]
      ∧ ¬ ∀ s, urlDecode (urlEncode s) = .ok s := by
  have h : urlDecode (urlEncode [0xC3]) = .ok [0x33] := by
    rw [urlDecode_eq]
    decide
  refine ⟨h, fun hall => ?_⟩
  have := h.symm.trans (hall [0xC3])
  revert this
  decide

end CppNet
