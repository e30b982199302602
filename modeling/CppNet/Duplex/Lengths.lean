import CppNet.Duplex.Framing

/-!
# The length of a sticky-packet node

`MsgNode(char*, int)` of `04_sticky_packs` uses its length three times: for the
size of the array, for the two bytes of the header, and for the bytes behind
them. Here the constructor is followed through its memory, with the `int` sums
and the copies it makes. It reaches its end for every length whose sums fit an
`int`, and leaves the node `make` stands for (`construct_eq_some_iff`). The
header is the narrowest of the three: the uses agree up to 65535
(`lengths_agree_iff`).
-/

namespace CppNet.Duplex

open StickyPacks (MsgNode header headLength)

namespace StickyPacks

/-- The constructor behind its `new`: header, message and a NUL at the end. -/
def MsgNode.fill (data msg : Bytes) (maxLen totalLen : Int) : Option Bytes := do
  let data ← memcpy data 0 (representation maxLen) (toSize headLength)
  let data ← memcpy data (toSize headLength) msg (toSize maxLen)
  store data (toSize totalLen) 0

/-- `MsgNode(char* msg, int max_len)` over an array that holds what is in `memory`.
`none` is undefined behaviour, or a `new` that throws. -/
def MsgNode.construct (memory : Nat → Byte) (msg : Bytes) (maxLen : Int) (unknown : Int) :
    Option MsgNode := do
  let totalLen ← addInt maxLen headLength
  let size ← addInt totalLen 1
  let data ← newChars memory size
  let data ← fill data msg maxLen totalLen
  return { totalLen, maxLen := unknown, data }

/-- The three uses of the length agree: the array is as long as the length asks for, the
header is read back as the length, and as many bytes of the message follow it. -/
structure MsgNode.Agrees (node : MsgNode) (msg : Bytes) (maxLen : Int) : Prop where
  totalLen : node.totalLen = headLength + maxLen
  allocated : node.data.length = node.totalLen + 1
  header : littleEndian (node.data.take 2) = maxLen
  body : (node.data.take (toSize node.totalLen)).drop 2 = msg.take (toSize maxLen)
  bodyLength : ((node.data.take (toSize node.totalLen)).drop 2).length = maxLen

end StickyPacks

/-! ## The constructor -/

theorem front_length {msg : Bytes} {n : Nat} (hmsg : n ≤ msg.length) (maxLen : Int) :
    (header maxLen ++ msg.take n).length = n + 2 := by
  rw [length_header_append, List.length_take, Nat.min_eq_left hmsg]

/-- The copies fill the array from its beginning to its end. -/
theorem fill_eq {data msg : Bytes} {n : Nat} (hn : n + 2 < 2 ^ 31) (hdata : data.length = n + 3)
    (hmsg : n ≤ msg.length) :
    MsgNode.fill data msg n (n + 2 : Nat) = some (header n ++ msg.take n ++ [0]) := by
  have hheader : memcpy data 0 (representation n) (toSize headLength)
      = some (header n ++ data.drop 2) :=
    memcpy_append [] (Nat.le_add_left 2 2) (show 2 ≤ data.length by omega)
  have hbody : memcpy (header n ++ data.drop 2) (toSize headLength) msg n
      = some (header n ++ msg.take n ++ (data.drop 2).drop n) :=
    memcpy_append (header n) hmsg (by rw [List.length_drop]; omega)
  obtain ⟨last, hlast⟩ : ∃ last, (data.drop 2).drop n = [last] := by
    rw [← List.length_eq_one_iff, List.length_drop, List.length_drop]
    omega
  have hstore : store (header n ++ msg.take n ++ [last]) (n + 2) 0
      = some (header n ++ msg.take n ++ [0]) := by
    rw [← front_length hmsg n]
    exact store_last _ last 0
  rw [MsgNode.fill, toSize_natCast (by omega), toSize_natCast (by omega)]
  simp only [hheader, hbody, hlast, hstore, Option.bind_eq_bind, Option.bind_some]

/-- The second copy reads past the end of a shorter message. -/
theorem fill_short {msg : Bytes} {n : Nat} (hn : n < 2 ^ 31) (hmsg : msg.length < n)
    (data : Bytes) (totalLen : Int) : MsgNode.fill data msg n totalLen = none := by
  rw [MsgNode.fill, toSize_natCast (by omega)]
  simp only [memcpy_short hmsg, Option.bind_eq_bind, Option.bind_none, Option.bind_fun_none]

/-- Below the overflow the constructor gets as far as the copies. -/
theorem construct_of_lt {n : Nat} (hint : n + 3 < 2 ^ 31) (memory : Nat → Byte) (msg : Bytes)
    (unknown : Int) :
    ∃ data, data.length = n + 3 ∧ MsgNode.construct memory msg n unknown
      = (MsgNode.fill data msg n (n + 2 : Nat)).map fun data =>
          { totalLen := (n + 2 : Nat), maxLen := unknown, data } := by
  refine ⟨(List.range (n + 3)).map memory, by simp, ?_⟩
  have htotal : addInt n headLength = some ((n + 2 : Nat) : Int) := addInt_of_lt n 2 (by omega)
  have hsize : addInt ((n + 2 : Nat) : Int) 1 = some ((n + 3 : Nat) : Int) :=
    addInt_of_lt (n + 2) 1 (by omega)
  have hnew : newChars memory ((n + 3 : Nat) : Int) = some ((List.range (n + 3)).map memory) :=
    if_pos (Int.natCast_nonneg _)
  rw [MsgNode.construct, htotal, Option.bind_eq_bind, Option.bind_some, hsize,
    Option.bind_eq_bind, Option.bind_some, hnew, Option.bind_some]
  exact Option.map_eq_bind.symm

/-- Too long a length makes one of the sums overflow. -/
theorem construct_overflow {n : Nat} (h : 2 ^ 31 ≤ n + 3) (memory : Nat → Byte) (msg : Bytes)
    (unknown : Int) : MsgNode.construct memory msg n unknown = none := by
  unfold MsgNode.construct
  by_cases htotal : 2 ^ 31 ≤ n + 2
  · have hnone : addInt n headLength = none := addInt_overflow n 2 htotal
    rw [hnone]
    rfl
  · have hsome : addInt n headLength = some ((n + 2 : Nat) : Int) :=
      addInt_of_lt n 2 (by omega)
    have hnone : addInt ((n + 2 : Nat) : Int) 1 = none := addInt_overflow (n + 2) 1 h
    rw [hsome, Option.bind_eq_bind, Option.bind_some, hnone]
    rfl

/-- The constructor is defined for the lengths whose sums fit an `int`, over messages at
least as long, and leaves what `make` says whatever its array held before. -/
theorem construct_eq_some_iff {memory : Nat → Byte} {msg : Bytes} {n : Nat} {unknown : Int}
    {node : MsgNode} :
    MsgNode.construct memory msg n unknown = some node ↔
      n + 3 < 2 ^ 31 ∧ n ≤ msg.length ∧ node = MsgNode.make msg n unknown := by
  by_cases hint : n + 3 < 2 ^ 31
  · obtain ⟨data, hdata, hconstruct⟩ := construct_of_lt hint memory msg unknown
    rw [hconstruct]
    by_cases hmsg : n ≤ msg.length
    · rw [fill_eq (by omega) hdata hmsg, Option.map_some, make_eq (by omega), Option.some_inj]
      exact ⟨fun h => ⟨hint, hmsg, h.symm⟩, fun h => h.2.2.symm⟩
    · rw [fill_short (by omega) (by omega)]
      exact iff_of_false (by simp) fun h => hmsg h.2.1
  · rw [construct_overflow (by omega)]
    exact iff_of_false (by simp) fun h => hint h.1

/-- `Send` puts the node of the constructor at the end of its queue. -/
theorem send_queues {s : CSession MsgNode} {ptr : Ptr MsgNode} {memory : Nat → Byte} {n : Nat}
    {unknown : Int} {node : MsgNode}
    (h : MsgNode.construct memory (s.mem ptr) n unknown = some node) :
    (s.send ptr n unknown).sendQueue = s.sendQueue ++ [node] := by
  obtain ⟨-, -, rfl⟩ := construct_eq_some_iff.mp h
  unfold CSession.send
  dsimp only
  split
  · rfl
  · rfl

/-! ## Agreement -/

/-- The array is always of the right length; the header is the one use that can differ. -/
theorem make_agrees_iff {msg : Bytes} {n : Nat} (hint : n + 3 < 2 ^ 31) (hmsg : n ≤ msg.length)
    (unknown : Int) : (MsgNode.make msg n unknown).Agrees msg n ↔ n ≤ 65535 := by
  have hlength : (msg.take n).length = n := by
    rw [List.length_take, Nat.min_eq_left hmsg]
  have hbody : ((header n ++ msg.take n ++ [0]).take (n + 2)).drop 2 = msg.take n := by
    rw [List.take_left' (front_length hmsg n)]
    rfl
  have hread : littleEndian ((header n ++ msg.take n ++ [0]).take 2) = n % 65536 := by
    show littleEndian (header n) = _
    rw [littleEndian_header, toSize_natCast (by omega)]
  rw [make_eq (by omega)]
  constructor
  · intro h
    have hheader := h.header
    rw [hread] at hheader
    omega
  · intro h
    refine ⟨Int.add_comm n 2, ?_, ?_, ?_, ?_⟩
    · rw [List.length_append, front_length hmsg n]
      rfl
    · rw [hread]
      omega
    · rw [toSize_natCast (by omega), toSize_natCast (by omega), hbody]
    · rw [toSize_natCast (by omega), hbody, hlength]

/-- The messages a receiver can cut out of a stream are those whose node agrees with
their length. -/
theorem framable_iff_agrees {msg : Bytes} (h : msg.length + 3 < 2 ^ 31) (unknown : Int) :
    Framable msg ↔ (MsgNode.make msg msg.length unknown).Agrees msg msg.length :=
  (make_agrees_iff h (Nat.le_refl _) unknown).symm

/-- The constructor reaches its end, and its node agrees with the length. -/
def LengthsAgree (memory : Nat → Byte) (msg : Bytes) (maxLen unknown : Int) : Prop :=
  ∃ node, MsgNode.construct memory msg maxLen unknown = some node ∧ node.Agrees msg maxLen

theorem not_lengthsAgree {n : Nat} (h : 65535 < n) (memory : Nat → Byte) (msg : Bytes)
    (unknown : Int) : ¬ LengthsAgree memory msg n unknown := by
  rintro ⟨node, hconstruct, hagrees⟩
  obtain ⟨hint, hmsg, rfl⟩ := construct_eq_some_iff.mp hconstruct
  have hle := (make_agrees_iff hint hmsg unknown).mp hagrees
  omega

/-- For a message at least as long as the length, the three uses of the length agree
exactly up to 65535. -/
theorem lengths_agree_iff (memory : Nat → Byte) {msg : Bytes} {maxLen : Int}
    (hnonneg : 0 ≤ maxLen) (hmsg : maxLen ≤ msg.length) (unknown : Int) :
    LengthsAgree memory msg maxLen unknown ↔ maxLen ≤ 65535 := by
  obtain ⟨n, rfl⟩ := Int.eq_ofNat_of_zero_le hnonneg
  have hmsg' : n ≤ msg.length := by omega
  constructor
  · intro h
    by_contra hlt
    exact not_lengthsAgree (by omega) memory msg unknown h
  · intro h
    have hint : n + 3 < 2 ^ 31 := by omega
    exact ⟨_, construct_eq_some_iff.mpr ⟨hint, hmsg', rfl⟩,
      (make_agrees_iff hint hmsg' unknown).mpr (by omega)⟩

/-- Three bytes out of five. -/
theorem lengths_agree_abc : LengthsAgree (fun _ => 255) [65, 66, 67, 68, 69] 3 0 :=
  (lengths_agree_iff _ (by decide) (by decide) 0).mpr (by decide)

/-- The header of 65536 bytes says that none follow. -/
theorem lengths_differ : ¬ LengthsAgree (fun _ => 0) (List.replicate 65536 65) 65536 0 :=
  not_lengthsAgree (n := 65536) (by decide) _ _ 0

end CppNet.Duplex
