import Mathlib.Data.List.Basic
import Mathlib.Tactic.Common

/-!
# Overwriting a stretch of a list

`splice pad xs off ys` writes `ys` over `xs` from position `off` on. The list
grows where `ys` reaches past its end, and a gap before `off` is filled with
`pad`, as a write past the end of a sparse file fills it with zeros.
`window xs off n` is the stretch of `n` positions that starts at `off`.
-/

namespace Foundation

variable {α : Type*}

def splice (pad : α) (xs : List α) (off : Nat) : List α → List α
  | [] => xs
  | y :: ys => xs.take off ++ List.replicate (off - xs.length) pad ++ (y :: ys) ++
      xs.drop (off + (ys.length + 1))

def window (xs : List α) (off n : Nat) : List α := (xs.drop off).take n

theorem splice_eq {pad : α} {xs : List α} {off : Nat} (h : off ≤ xs.length) (ys : List α) :
    splice pad xs off ys = xs.take off ++ ys ++ xs.drop (off + ys.length) := by
  cases ys with
  | nil => simp [splice]
  | cons y ys => simp [splice, Nat.sub_eq_zero_of_le h]

theorem splice_length {pad : α} {xs : List α} {off : Nat} (h : off ≤ xs.length) (ys : List α) :
    (splice pad xs off ys).length = max xs.length (off + ys.length) := by
  rw [splice_eq h]
  simp only [List.length_append, List.length_take, List.length_drop]
  omega

theorem length_le_splice (pad : α) (xs : List α) (off : Nat) (ys : List α) :
    xs.length ≤ (splice pad xs off ys).length := by
  cases ys with
  | nil => exact Nat.le_refl _
  | cons y ys =>
    simp only [splice, List.length_append, List.length_take, List.length_replicate,
      List.length_cons, List.length_drop]
    omega

/-- What is written makes the list at least as long as it reaches. -/
theorem stop_le_splice (pad : α) (xs : List α) (off : Nat) {ys : List α} (h : ys ≠ []) :
    off + ys.length ≤ (splice pad xs off ys).length := by
  cases ys with
  | nil => exact absurd rfl h
  | cons y ys =>
    simp only [splice, List.length_append, List.length_take, List.length_replicate,
      List.length_cons, List.length_drop]
    omega

theorem splice_end (pad : α) (xs ys : List α) : splice pad xs xs.length ys = xs ++ ys := by
  rw [splice_eq (Nat.le_refl _)]
  simp

theorem splice_middle (pad : α) (pre old new post : List α) (h : old.length = new.length) :
    splice pad (pre ++ old ++ post) pre.length new = pre ++ new ++ post := by
  rw [splice_eq (by simp)]
  simp [← h, List.drop_append]

theorem getElem?_splice {pad : α} {xs : List α} {off : Nat} (h : off ≤ xs.length)
    (ys : List α) (i : Nat) :
    (splice pad xs off ys)[i]? =
      if off ≤ i ∧ i < off + ys.length then ys[i - off]? else xs[i]? := by
  rw [splice_eq h, List.append_assoc]
  rcases Nat.lt_or_ge i off with hi | hi
  · rw [List.getElem?_append_left (by simp; omega), List.getElem?_take_of_lt hi,
      if_neg (by omega)]
  · rw [List.getElem?_append_right (by simp; omega)]
    have htake : (xs.take off).length = off := by simp [h]
    rcases Nat.lt_or_ge i (off + ys.length) with hj | hj
    · rw [List.getElem?_append_left (by omega), htake, if_pos ⟨hi, hj⟩]
    · rw [List.getElem?_append_right (by omega), htake, List.getElem?_drop, if_neg (by omega)]
      congr 1
      omega

theorem getElem?_window (xs : List α) (off n i : Nat) :
    (window xs off n)[i]? = if i < n then xs[off + i]? else none := by
  rw [window, List.getElem?_take]
  split
  · rw [List.getElem?_drop]
  · rfl

theorem window_eq_iff {xs ys : List α} {off n : Nat} : window xs off n = window ys off n ↔
    ∀ i, off ≤ i → i < off + n → xs[i]? = ys[i]? := by
  constructor
  · intro h i hlow hhigh
    have hi := congrArg (fun zs => zs[i - off]?) h
    simp only [getElem?_window, if_pos (show i - off < n by omega), Nat.add_sub_of_le hlow] at hi
    exact hi
  · intro h
    apply List.ext_getElem?
    intro i
    rw [getElem?_window, getElem?_window]
    split
    · exact h (off + i) (Nat.le_add_right _ _) (by omega)
    · rfl

theorem window_length {xs : List α} {off n : Nat} (h : off + n ≤ xs.length) :
    (window xs off n).length = n := by
  simp only [window, List.length_take, List.length_drop]
  omega

theorem window_splice_self {pad : α} {xs : List α} {off : Nat} (h : off ≤ xs.length)
    (ys : List α) : window (splice pad xs off ys) off ys.length = ys := by
  apply List.ext_getElem?
  intro i
  rw [getElem?_window, getElem?_splice h]
  split
  · rename_i hi
    rw [if_pos (by omega)]
    congr 1
    omega
  · rename_i hi
    exact (List.getElem?_eq_none (by omega)).symm

theorem window_splice_apart {pad : α} {xs ys : List α} {off o n : Nat} (h : off ≤ xs.length)
    (hapart : min (o + n) (off + ys.length) ≤ max o off) :
    window (splice pad xs off ys) o n = window xs o n := by
  apply List.ext_getElem?
  intro i
  rw [getElem?_window, getElem?_window, getElem?_splice h]
  split
  · rw [if_neg (by omega)]
  · rfl

theorem window_middle (pre mid post : List α) :
    window (pre ++ mid ++ post) pre.length mid.length = mid := by
  simp [window]

end Foundation
