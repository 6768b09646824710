import Mathlib.Data.List.Basic
import Mathlib.Tactic.Common

/-!
# Texts in one buffer

Texts laid out one after the other, with a terminator behind each. What is read
back, up to one terminator after the other, are the texts themselves exactly when
none of them contains a terminator.
-/

namespace Foundation

variable {α : Type*}

def terminateAll (z : α) (texts : List (List α)) : List α := texts.flatMap fun text => text ++ [z]

@[simp] theorem terminateAll_nil (z : α) : terminateAll z [] = [] := rfl

@[simp] theorem terminateAll_cons (z : α) (text : List α) (texts : List (List α)) :
    terminateAll z (text :: texts) = text ++ z :: terminateAll z texts := by
  rw [terminateAll, List.flatMap_cons, List.append_assoc]
  rfl

variable [DecidableEq α] {z : α}

theorem not_mem_of_mem_splitOn {xs text : List α} (h : text ∈ xs.splitOn z) : z ∉ text := by
  induction xs generalizing text with
  | nil =>
    rw [List.splitOn_nil, List.mem_singleton] at h
    rw [h]
    exact List.not_mem_nil
  | cons x xs ih =>
    rw [List.splitOn_cons_eq_if_modifyHead] at h
    split at h
    · obtain rfl | h := List.mem_cons.mp h
      · exact List.not_mem_nil
      · exact ih h
    · rename_i hx
      obtain ⟨first, others, hsplit⟩ := List.exists_cons_of_ne_nil (List.splitOn_ne_nil z xs)
      rw [hsplit, List.modifyHead_cons] at h
      obtain rfl | h := List.mem_cons.mp h
      · rw [List.mem_cons, not_or]
        exact ⟨fun heq => hx (by rw [heq, beq_self_eq_true]), ih (by rw [hsplit]; simp)⟩
      · exact ih (by rw [hsplit]; exact List.mem_cons_of_mem _ h)

/-- Every piece is followed by a terminator, if one is put behind the last. -/
theorem terminateAll_splitOn (z : α) (xs : List α) : terminateAll z (xs.splitOn z) = xs ++ [z] := by
  induction xs with
  | nil => rfl
  | cons x xs ih =>
    rw [List.splitOn_cons_eq_if_modifyHead]
    split
    · rename_i hx
      rw [terminateAll_cons, ih, List.nil_append, ← eq_of_beq hx]
      rfl
    · obtain ⟨first, others, hsplit⟩ := List.exists_cons_of_ne_nil (List.splitOn_ne_nil z xs)
      rw [hsplit, terminateAll_cons] at ih
      rw [hsplit, List.modifyHead_cons, terminateAll_cons, List.cons_append, ih]
      rfl

theorem splitOn_terminateAll {texts : List (List α)} (h : ∀ text ∈ texts, z ∉ text) :
    (terminateAll z texts).splitOn z = texts ++ [[]] := by
  induction texts with
  | nil => rfl
  | cons text texts ih =>
    obtain ⟨htext, htexts⟩ := List.forall_mem_cons.mp h
    rw [terminateAll_cons, List.splitOn_append_cons_self_of_not_mem htext, ih htexts]
    rfl

/-- There are as many pieces as texts, and one more, whatever is in the texts. -/
theorem length_lt_splitOn (z : α) (texts : List (List α)) :
    texts.length < ((terminateAll z texts).splitOn z).length := by
  induction texts with
  | nil => exact Nat.one_pos
  | cons text texts ih =>
    have hpos := List.length_pos_iff.mpr (List.splitOn_ne_nil z text)
    rw [terminateAll_cons, List.splitOn_append_cons_self, List.length_append, List.length_cons]
    omega

end Foundation
