import Ambry.Lib.File

/-!
# Reading on from the descriptor

A file read up to `pre` with `rest` still ahead. Every read of what lies ahead
moves it over to what was read.
-/

namespace Ambry

open Foundation

namespace File

structure At (f : File) (pre rest : Bytes) : Prop where
  bytes : f.bytes = pre ++ rest
  pos : f.pos = pre.length

variable {f : File} {pre post : Bytes}

theorem At.read (mid : Bytes) (h : f.At pre (mid ++ post)) :
    ∃ f', f.read mid.length = (mid, f') ∧ f'.At (pre ++ mid) post := by
  have hgot : window f.bytes f.pos mid.length = mid := by
    rw [h.bytes, h.pos, ← List.append_assoc]
    exact window_middle pre mid post
  refine ⟨(f.read mid.length).2, Prod.ext hgot rfl, ?_, ?_⟩
  · rw [List.append_assoc]
    exact h.bytes
  · rw [List.length_append, ← h.pos]
    exact congrArg (fun got => f.pos + got.length) hgot

/-- A read takes what is there. -/
theorem At.readSome (h : f.At pre post) (n : Nat) :
    ∃ f', f.read n = (post.take n, f') ∧ f'.At (pre ++ post.take n) (post.drop n) := by
  have hgot : window f.bytes f.pos n = post.take n := by
    rw [window, h.bytes, h.pos, List.drop_left]
  refine ⟨(f.read n).2, Prod.ext hgot rfl, ?_, ?_⟩
  · rw [List.append_assoc, List.take_append_drop]
    exact h.bytes
  · rw [List.length_append, ← h.pos]
    exact congrArg (fun got => f.pos + got.length) hgot

theorem At.skip (mid : Bytes) (h : f.At pre (mid ++ post)) : (f.lseekCur mid.length).At (pre ++ mid) post := by
  rw [lseekCur, if_pos (by omega)]
  refine ⟨?_, ?_⟩
  · rw [List.append_assoc]
    exact h.bytes
  · rw [List.length_append, ← h.pos]
    exact Int.toNat_natCast _

theorem At.size (h : f.At pre post) : f.size = (pre ++ post).length := congrArg List.length h.bytes

theorem At.currOffset_eq (h : f.At pre post) (hsize : pre.length < 2 ^ 31) :
    currOffset f = pre.length := by
  rw [Ambry.currOffset_eq (h.pos ▸ hsize), h.pos]

theorem At.readByte {b : UInt8} (h : f.At pre (b :: post)) (indet : UInt8) :
    ∃ f', readByte indet f = (b, f') ∧ f'.At (pre ++ [b]) post := by
  obtain ⟨f', hread, hat⟩ := h.read [b]
  refine ⟨f', ?_, hat⟩
  rw [List.length_singleton] at hread
  rw [Ambry.readByte, hread]
  rfl

/-- A scalar is read as it was meant, if the byte order of the file is known. -/
theorem At.readN [Machine] {o : ByteOrder} {T : Type} [Scalar T] {x : T}
    (h : f.At pre (image o x ++ post)) :
    ∃ f', readN T f (@machineEndian ⟨o⟩) = (x, f') ∧ f'.At (pre ++ image o x) post := by
  obtain ⟨f', hread, hat⟩ := h.read (image o x)
  refine ⟨f', ?_, hat⟩
  rw [image_length] at hread
  simp only [Ambry.readN, hread, image_length, Nat.sub_self, List.replicate_zero, List.append_nil,
    ne_eq, machineEndian_eq_iff]
  by_cases horder : Machine.order = o
  · rw [if_neg (not_not_intro horder), horder, ofImage_image]
  · rw [if_pos horder, image_reverse (Ne.symm horder), ofImage_image]

/-- A scalar that is cut short is filled with zero bytes. -/
theorem At.readNSome [Machine] {T : Type} [Scalar T] (h : f.At pre post) :
    ∃ f', Ambry.readN T f machineEndian = (ofImage Machine.order (post.take (Scalar.width T) ++
        List.replicate (Scalar.width T - (post.take (Scalar.width T)).length) 0), f') ∧
      f'.At (pre ++ post.take (Scalar.width T)) (post.drop (Scalar.width T)) := by
  obtain ⟨f', hread, hat⟩ := h.readSome (Scalar.width T)
  refine ⟨f', ?_, hat⟩
  simp only [Ambry.readN, hread, ne_eq, not_true_eq_false, if_false]

end File

end Ambry
