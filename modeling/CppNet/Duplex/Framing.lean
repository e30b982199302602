import CppNet.Duplex.Frames
import CppNet.Lib.Tokens

/-!
# Frames on a stream

What a receiver can make of the frames `MsgNode` builds for messages of up to
65535 bytes. The two bytes of the header hold such a length (`littleEndian_header`),
and the length tells where the frame ends, so no frame is the beginning of another
(`prefixFree_frame`). A stream of frames can therefore be cut in one way only
(`frames_uniquely_decodable`).
-/

namespace CppNet.Duplex

open StickyPacks (header)

/-- The frames of the messages, one after the other. -/
def stream (msgs : List Bytes) : Bytes := msgs.flatMap frame

/-- The length of the message fits the header. -/
def Framable (msg : Bytes) : Prop := msg.length ≤ 65535

/-! ## The header -/

/-- Bytes read as an unsigned integer, the lowest first. -/
def littleEndian (bytes : Bytes) : Nat := bytes.foldr (fun b n => b.toNat + 256 * n) 0

/-- A header holds the lower 16 bits of the length. -/
theorem littleEndian_header (n : Int) : littleEndian (header n) = toSize n % 65536 := by
  simp only [littleEndian, header, List.foldr_cons, List.foldr_nil, UInt8.toNat_ofNat']
  omega

theorem Framable.littleEndian_header {msg : Bytes} (h : Framable msg) :
    littleEndian (header msg.length) = msg.length := by
  have hle : msg.length ≤ 65535 := h
  rw [Duplex.littleEndian_header, toSize_natCast (by omega), Nat.mod_eq_of_lt (by omega)]

/-! ## Frames -/

theorem Framable.frame_eq {msg : Bytes} (h : Framable msg) :
    frame msg = header msg.length ++ msg := by
  have hle : msg.length ≤ 65535 := h
  exact Duplex.frame_eq (by omega)

/-- The header is followed by as many bytes as it says. -/
theorem prefixFree_frame : Tokens.PrefixFree frame Framable where
  ne_nil := by
    intro msg h hnil
    rw [h.frame_eq] at hnil
    cases hnil
  eq_of_prefix := by
    intro a b ha hb hab
    rw [ha.frame_eq, hb.frame_eq] at hab
    have hheader : header a.length = header b.length := by
      have hle : header a.length <+: header b.length ++ b := (List.prefix_append _ _).trans hab
      have hpre : header a.length <+: header b.length :=
        List.prefix_of_prefix_length_le hle (List.prefix_append _ _) (Nat.le_refl 2)
      exact hpre.eq_of_length rfl
    have hlength : a.length = b.length := by
      rw [← ha.littleEndian_header, ← hb.littleEndian_header, hheader]
    rw [hheader, List.prefix_append_right_inj] at hab
    exact hab.eq_of_length hlength

/-- Streams of frames are cut in one way only: where one begins another, its messages
begin the other's; equal streams have equal messages; and a stream that ends inside a
frame is not the stream of any messages. -/
theorem frames_uniquely_decodable {ms ns : List Bytes} (hms : ∀ msg ∈ ms, Framable msg)
    (hns : ∀ msg ∈ ns, Framable msg) :
    (stream ms <+: stream ns → ms <+: ns)
      ∧ (stream ms = stream ns → ms = ns)
      ∧ ∀ before msg after k, ns = before ++ msg :: after → 0 < k → k < (frame msg).length →
        stream ms ≠ stream before ++ (frame msg).take k := by
  refine ⟨prefixFree_frame.of_flatMap hms hns, prefixFree_frame.inj_flatMap hms hns, ?_⟩
  rintro before msg after k rfl hpos hk
  rw [List.forall_mem_append, List.forall_mem_cons] at hns
  exact prefixFree_frame.flatMap_ne_cut hms hns.1 hns.2.1 hpos hk

/-- The second message looks like a frame of its own. -/
theorem frames_uniquely_decodable_nested :
    stream [[65]] <+: stream [[65], [1, 0, 65]] ∧ [[65]] <+: ([[65], [1, 0, 65]] : List Bytes) := by
  have hpre : stream [[65]] <+: stream [[65], [1, 0, 65]] := by decide
  have hms : ∀ msg ∈ ([[65]] : List Bytes), Framable msg := by simp [Framable]
  have hns : ∀ msg ∈ ([[65], [1, 0, 65]] : List Bytes), Framable msg := by simp [Framable]
  exact ⟨hpre, (frames_uniquely_decodable hms hns).1 hpre⟩

end CppNet.Duplex
