import Mathlib.Algebra.Group.Int.Defs
import Mathlib.Algebra.Group.Nat.Defs

/-!
# The C++ the sources are written in

What the translated functions use of the language and its library on the
x86-64 target: `char` is a signed byte, `int` has 32 bits and `size_t` 64,
narrowing conversions are modulo the width of the target type. A `char` or
`unsigned char` is kept as its byte, and signedness shows where the value is
promoted to `int`.
-/

namespace CppNet

abbrev Byte := UInt8

/-- A `std::string`, or the contents of a `char` array. -/
abbrev Bytes := List Byte

/-- How a call can fail to return. -/
inductive Fault
  /-- `assert(i + 2 < length)` in `UrlDecode`: the process aborts. -/
  | assertLength
  /-- `assert(0)` in `FromHex`: the process aborts. -/
  | assertHex
  /-- `str[i]` with `i` not below the size: undefined. -/
  | outOfRange
  /-- An exception leaves the call. -/
  | exception
deriving Repr, DecidableEq

/-- A failing `assert`. -/
def Fault.IsAssert : Fault → Prop
  | .assertLength | .assertHex => True
  | .outOfRange | .exception => False

instance : DecidablePred Fault.IsAssert := fun f => by
  cases f <;> simp only [Fault.IsAssert] <;> infer_instance

/-- The call ends in a failing `assert`. -/
def AssertFails {α : Type*} (r : Except Fault α) : Prop :=
  ∃ f, f.IsAssert ∧ r = .error f

/-- Where only asserts can fail, a call that does not return fails one. -/
theorem assertFails_iff {α : Type*} {r : Except Fault α}
    (h : ∀ f, r = .error f → f.IsAssert) : AssertFails r ↔ r.isOk = false := by
  cases r with
  | error f => exact ⟨fun _ => rfl, fun _ => ⟨f, h f rfl, rfl⟩⟩
  | ok a =>
      constructor
      · rintro ⟨f, -, hr⟩
        cases hr
      · intro hr
        cases hr

theorem isOk_iff {ε α : Type*} {r : Except ε α} : r.isOk = true ↔ ∃ a, r = .ok a := by
  cases r <;> simp [Except.isOk, Except.toBool]

theorem bind_eq_error {ε α β : Type} {x : Except ε α} {f : α → Except ε β} {e : ε} :
    (x >>= f) = .error e ↔ x = .error e ∨ ∃ a, x = .ok a ∧ f a = .error e := by
  cases x <;> simp [bind, Except.bind]

theorem map_eq_error {ε α β : Type} {x : Except ε α} {f : α → β} {e : ε} :
    x.map f = .error e ↔ x = .error e := by
  cases x <;> simp [Except.map]

theorem mapError_eq_error {ε δ α : Type} {x : Except ε α} {f : ε → δ} {e : δ} :
    x.mapError f = .error e ↔ ∃ e', x = .error e' ∧ f e' = e := by
  cases x with
  | ok a =>
      constructor
      · intro h
        cases h
      · rintro ⟨e', h, -⟩
        cases h
  | error e' =>
      constructor
      · intro h
        exact ⟨e', rfl, Except.error.inj h⟩
      · rintro ⟨e'', h, rfl⟩
        rw [Except.error.inj h]
        rfl

theorem toOption_eq_some {ε α : Type} {r : Except ε α} {a : α} (h : r.toOption = some a) :
    r = .ok a := by
  cases r with
  | error e => cases h
  | ok b => exact congrArg Except.ok (Option.some.inj h)

theorem map_eq_ok {ε α β : Type} {x : Except ε α} {f : α → β} {b : β} :
    x.map f = .ok b ↔ ∃ a, x = .ok a ∧ f a = b := by
  cases x <;> simp [Except.map]

/-! ## Integers -/

/-- Integral promotion of a `char`: sign extension to `int`. -/
def promote (ch : Byte) : BitVec 32 := ch.toBitVec.signExtend 32

/-- Conversion of an `int` to `unsigned char`. -/
def toUChar (n : BitVec 32) : Byte := ⟨n.setWidth 8⟩

/-- `isalnum` of the C locale; a negative argument is no letter or digit. -/
def isalnum (c : BitVec 32) : Bool :=
  (48#32 ≤ c ∧ c ≤ 57#32) ∨ (65#32 ≤ c ∧ c ≤ 90#32) ∨ (97#32 ≤ c ∧ c ≤ 122#32)

/-- Conversion to `int`. -/
def toInt (n : Int) : Int := n.bmod (2 ^ 32)

/-- Conversion to `size_t`. -/
def toSize (n : Int) : Nat := (n % 2 ^ 64).toNat

theorem toInt_of_lt {n : Nat} (h : n < 2 ^ 31) : toInt n = n := by
  rw [toInt, Int.bmod_def]
  split <;> omega

theorem toSize_natCast {n : Nat} (h : n < 2 ^ 64) : toSize n = n := by
  rw [toSize]
  omega

/-- A length that fits `int` survives the way through it. -/
theorem toSize_toInt {n : Nat} (h : n < 2 ^ 31) : toSize (toInt n) = n := by
  rw [toInt_of_lt h, toSize_natCast (by omega)]

/-- A sum of two `int`s. One that does not fit overflows, which is undefined. -/
def addInt (a b : Int) : Option Int :=
  if -2 ^ 31 ≤ a + b ∧ a + b < 2 ^ 31 then some (a + b) else none

theorem addInt_of_lt (a b : Nat) (h : a + b < 2 ^ 31) :
    addInt a b = some ((a + b : Nat) : Int) := by
  rw [addInt, if_pos (by omega), Int.natCast_add]

theorem addInt_overflow (a b : Nat) (h : 2 ^ 31 ≤ a + b) : addInt a b = none :=
  if_neg (by omega)

/-! ## Characters -/

/-- A property of all 256 bytes can be evaluated. -/
theorem forall_byte {p : Byte → Prop} (h : ∀ i : Fin 256, p (UInt8.ofFin i)) (b : Byte) :
    p b := h b.toFin

/-- An element of a string, read by index. -/
def charAt (str : Bytes) (i : Nat) : Except Fault Byte :=
  match str[i]? with
  | some ch => .ok ch
  | none => .error .outOfRange

/-! ## Arrays

`none` is an access outside the array, which is undefined. -/

/-- The bytes of an `int` in memory, the lowest first. -/
def representation (n : Int) : Bytes :=
  [UInt8.ofNat (toSize n % 256), UInt8.ofNat (toSize n / 256 % 256),
    UInt8.ofNat (toSize n / 65536 % 256), UInt8.ofNat (toSize n / 16777216 % 256)]

/-- `new char[size]`, which throws if the size is negative. The array holds what is in
`memory`. -/
def newChars (memory : Nat → Byte) (size : Int) : Option Bytes :=
  if 0 ≤ size then some ((List.range size.toNat).map memory) else none

/-- `memcpy(array + offset, src, count)`. -/
def memcpy (array : Bytes) (offset : Nat) (src : Bytes) (count : Nat) : Option Bytes :=
  if count ≤ src.length ∧ offset + count ≤ array.length then
    some (array.take offset ++ src.take count ++ array.drop (offset + count))
  else none

/-- `array[i] = ch`. -/
def store (array : Bytes) (i : Nat) (ch : Byte) : Option Bytes :=
  if i < array.length then some (array.set i ch) else none

theorem memcpy_append (front : Bytes) {old src : Bytes} {count : Nat}
    (hsrc : count ≤ src.length) (hold : count ≤ old.length) :
    memcpy (front ++ old) front.length src count
      = some (front ++ src.take count ++ old.drop count) := by
  have hinside : front.length + count ≤ (front ++ old).length := by
    rw [List.length_append]
    omega
  rw [memcpy, if_pos ⟨hsrc, hinside⟩, List.take_left, List.drop_length_add_append]

theorem memcpy_short {src : Bytes} {count : Nat} (h : src.length < count) (array : Bytes)
    (offset : Nat) : memcpy array offset src count = none :=
  if_neg fun hok => absurd hok.1 (by omega)

theorem store_last (front : Bytes) (old ch : Byte) :
    store (front ++ [old]) front.length ch = some (front ++ [ch]) := by
  rw [store, if_pos (by simp), List.set_append_right _ _ (Nat.le_refl _), Nat.sub_self]
  rfl

/-! ## C strings -/

/-- The characters in front of the first NUL, read one after the other. An array
without a NUL is read past its end. -/
def cString : Bytes → Except Fault Bytes
  | [] => .error .outOfRange
  | ch :: rest => if ch = 0 then .ok [] else (cString rest).map (ch :: ·)

/-- An array with a NUL in it is read up to the first one. -/
theorem cString_of_mem {str : Bytes} (h : 0 ∈ str) :
    cString str = .ok (str.takeWhile (· ≠ 0)) := by
  induction str with
  | nil => cases h
  | cons ch str ih =>
      rw [cString]
      by_cases hch : ch = 0
      · rw [if_pos hch, List.takeWhile_cons_of_neg (by simp [hch])]
      · rw [if_neg hch, ih ((List.mem_cons.mp h).resolve_left (Ne.symm hch)),
          List.takeWhile_cons_of_pos (by simp [hch])]
        rfl

theorem cString_isOk (str : Bytes) : (cString str).isOk = true ↔ 0 ∈ str := by
  induction str with
  | nil => simp [cString, Except.isOk, Except.toBool]
  | cons ch str ih =>
      rw [cString, List.mem_cons]
      by_cases hch : ch = 0
      · rw [if_pos hch]
        exact iff_of_true rfl (.inl hch.symm)
      · rw [if_neg hch, isOk_iff]
        rw [isOk_iff] at ih
        simp only [map_eq_ok, Ne.symm hch, false_or, ← ih]
        exact ⟨fun ⟨_, s, hs, _⟩ => ⟨s, hs⟩, fun ⟨s, hs⟩ => ⟨_, s, hs, rfl⟩⟩

end CppNet
