import Mathlib.Tactic.Ring
import Mathlib.Tactic.Common

/-!
# Byte images of fixed-width scalars

A scalar of `w` bytes is a number below `256 ^ w`; its image lists its bytes in
memory order, which depends on the byte order of the machine. Reading an image
back in the order it was written recovers the scalar.
-/

namespace Foundation

abbrev Bytes := List UInt8

instance lawfulBEqBytes : LawfulBEq Bytes := inferInstance

def leBytes : Nat → Nat → Bytes
  | 0, _ => []
  | w + 1, n => UInt8.ofNat n :: leBytes w (n / 256)

def leValue : Bytes → Nat
  | [] => 0
  | b :: bs => b.toNat + 256 * leValue bs

@[simp] theorem leBytes_length (w n : Nat) : (leBytes w n).length = w := by
  induction w generalizing n with
  | zero => rfl
  | succ w ih => simp [leBytes, ih]

theorem leValue_leBytes (w n : Nat) : leValue (leBytes w n) = n % 256 ^ w := by
  induction w generalizing n with
  | zero => simp [leBytes, leValue, Nat.mod_one]
  | succ w ih =>
    simp only [leBytes, leValue, ih, UInt8.toNat_ofNat', Nat.pow_succ' (n := w)]
    exact Nat.mod_mul.symm

theorem leValue_lt (bs : Bytes) : leValue bs < 256 ^ bs.length := by
  induction bs with
  | nil => exact Nat.one_pos
  | cons b bs ih =>
    have hb := b.toNat_lt
    rw [leValue, List.length_cons, Nat.pow_succ]
    omega

theorem leBytes_leValue (bs : Bytes) : leBytes bs.length (leValue bs) = bs := by
  induction bs with
  | nil => rfl
  | cons b bs ih =>
    have hb := b.toNat_lt
    have hdiv : (b.toNat + 256 * leValue bs) / 256 = leValue bs := by omega
    have hbyte : UInt8.ofNat (b.toNat + 256 * leValue bs) = b := by
      apply UInt8.toNat_inj.mp
      rw [UInt8.toNat_ofNat']
      omega
    rw [List.length_cons, leBytes, leValue, hdiv, ih, hbyte]

inductive ByteOrder
  | big | little
  deriving DecidableEq, Repr

def ByteOrder.opposite : ByteOrder → ByteOrder
  | .little => .big
  | .big => .little

theorem ByteOrder.ne_opposite (o : ByteOrder) : o ≠ o.opposite := by
  cases o
  · rintro ⟨⟩
  · rintro ⟨⟩

/-- Memory order of little-endian bytes; an involution, so it also undoes itself. -/
def ByteOrder.arrange : ByteOrder → Bytes → Bytes
  | .little, bs => bs
  | .big, bs => bs.reverse

@[simp] theorem ByteOrder.arrange_arrange (o : ByteOrder) (bs : Bytes) :
    o.arrange (o.arrange bs) = bs := by
  cases o <;> simp [arrange]

@[simp] theorem ByteOrder.arrange_length (o : ByteOrder) (bs : Bytes) :
    (o.arrange bs).length = bs.length := by
  cases o <;> simp [arrange]

class Scalar (α : Type) where
  width : Nat
  toNat : α → Nat
  ofNat : Nat → α
  toNat_lt : ∀ x, toNat x < 256 ^ width
  ofNat_toNat : ∀ x, ofNat (toNat x) = x

/-- Every number below the bound is the number of a scalar. -/
class Scalar.Full (α : Type) [Scalar α] : Prop where
  toNat_ofNat : ∀ n, n < 256 ^ Scalar.width α → Scalar.toNat (Scalar.ofNat n : α) = n

instance : Scalar UInt8 where
  width := 1
  toNat := UInt8.toNat
  ofNat := UInt8.ofNat
  toNat_lt := UInt8.toNat_lt
  ofNat_toNat _ := UInt8.ofNat_toNat

instance : Scalar UInt16 where
  width := 2
  toNat := UInt16.toNat
  ofNat := UInt16.ofNat
  toNat_lt := UInt16.toNat_lt
  ofNat_toNat _ := UInt16.ofNat_toNat

instance : Scalar UInt32 where
  width := 4
  toNat := UInt32.toNat
  ofNat := UInt32.ofNat
  toNat_lt := UInt32.toNat_lt
  ofNat_toNat _ := UInt32.ofNat_toNat

instance : Scalar UInt64 where
  width := 8
  toNat := UInt64.toNat
  ofNat := UInt64.ofNat
  toNat_lt := UInt64.toNat_lt
  ofNat_toNat _ := UInt64.ofNat_toNat

instance : Scalar.Full UInt16 where
  toNat_ofNat _ := UInt16.toNat_ofNat_of_lt

instance : Scalar.Full UInt32 where
  toNat_ofNat _ := UInt32.toNat_ofNat_of_lt

instance : Scalar.Full UInt64 where
  toNat_ofNat _ := UInt64.toNat_ofNat_of_lt

-- A signed integer has the image of the unsigned integer with its two's-complement bits.

instance : Scalar Int8 where
  width := 1
  toNat x := x.toUInt8.toNat
  ofNat n := (UInt8.ofNat n).toInt8
  toNat_lt x := x.toUInt8.toNat_lt
  ofNat_toNat x := by simp

instance : Scalar Int16 where
  width := 2
  toNat x := x.toUInt16.toNat
  ofNat n := (UInt16.ofNat n).toInt16
  toNat_lt x := x.toUInt16.toNat_lt
  ofNat_toNat x := by simp

instance : Scalar Int32 where
  width := 4
  toNat x := x.toUInt32.toNat
  ofNat n := (UInt32.ofNat n).toInt32
  toNat_lt x := x.toUInt32.toNat_lt
  ofNat_toNat x := by simp

instance : Scalar Int64 where
  width := 8
  toNat x := x.toUInt64.toNat
  ofNat n := (UInt64.ofNat n).toInt64
  toNat_lt x := x.toUInt64.toNat_lt
  ofNat_toNat x := by simp

section
variable {α : Type} [Scalar α]

def image (o : ByteOrder) (x : α) : Bytes := o.arrange (leBytes (Scalar.width α) (Scalar.toNat x))

def ofImage (o : ByteOrder) (bs : Bytes) : α := Scalar.ofNat (leValue (o.arrange bs))

@[simp] theorem image_length (o : ByteOrder) (x : α) : (image o x).length = Scalar.width α := by
  simp [image]

@[simp] theorem ofImage_image (o : ByteOrder) (x : α) : (ofImage o (image o x) : α) = x := by
  rw [ofImage, image, ByteOrder.arrange_arrange, leValue_leBytes,
    Nat.mod_eq_of_lt (Scalar.toNat_lt x), Scalar.ofNat_toNat]

theorem image_ofImage [Scalar.Full α] (o : ByteOrder) {bs : Bytes} (h : bs.length = Scalar.width α) :
    image o (ofImage o bs : α) = bs := by
  have hlen : (o.arrange bs).length = Scalar.width α := by rw [ByteOrder.arrange_length, h]
  rw [image, ofImage, Scalar.Full.toNat_ofNat _ (hlen ▸ leValue_lt _), ← hlen, leBytes_leValue,
    ByteOrder.arrange_arrange]

/-- The image is the same in both byte orders. -/
def Symmetric (x : α) : Prop := image .little x = image .big x

instance (x : α) : Decidable (Symmetric x) := inferInstanceAs (Decidable (_ = _))

theorem Symmetric.image_eq {x : α} (h : Symmetric x) (o o' : ByteOrder) : image o x = image o' x := by
  cases o <;> cases o'
  · rfl
  · exact h.symm
  · exact h
  · rfl

theorem image_reverse {o o' : ByteOrder} (h : o ≠ o') (x : α) : (image o x).reverse = image o' x := by
  cases o <;> cases o' <;> first | exact absurd rfl h | simp [image, ByteOrder.arrange]

theorem image_opposite (o : ByteOrder) (x : α) : image o.opposite x = (image o x).reverse :=
  (image_reverse o.ne_opposite x).symm

end

end Foundation
