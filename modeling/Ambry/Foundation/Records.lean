import Ambry.Foundation.Splice

/-!
# Records one after another

A file is a header followed by records, each encoded on its own. `placed` pairs
the records with the positions at which they begin. Overwriting a stretch inside
one record by as many symbols changes that record and moves no other.
-/

namespace Foundation

variable {α β : Type*} (enc : α → List β)

def placed : Nat → List α → List (Nat × α)
  | _, [] => []
  | start, r :: rs => (start, r) :: placed (start + (enc r).length) rs

variable {enc}

theorem placed_append (start : Nat) (rs ts : List α) :
    placed enc start (rs ++ ts) =
      placed enc start rs ++ placed enc (start + (rs.flatMap enc).length) ts := by
  induction rs generalizing start with
  | nil => rfl
  | cons r rs ih =>
    rw [List.cons_append, placed, placed, ih, List.flatMap_cons, List.length_append, Nat.add_assoc]
    rfl

theorem placed_middle (start : Nat) (pre post : List α) (r : α) :
    placed enc start (pre ++ r :: post) =
      placed enc start pre ++ (start + (pre.flatMap enc).length, r) ::
        placed enc (start + (pre.flatMap enc).length + (enc r).length) post := by
  rw [placed_append, placed]

theorem mem_placed {start p : Nat} {r : α} {rs : List α} :
    (p, r) ∈ placed enc start rs ↔
      ∃ pre post, rs = pre ++ r :: post ∧ p = start + (pre.flatMap enc).length := by
  constructor
  · intro h
    induction rs generalizing start with
    | nil => cases h
    | cons t rs ih =>
      rw [placed] at h
      obtain h | h := List.mem_cons.mp h
      · obtain ⟨rfl, rfl⟩ := Prod.mk.inj h
        exact ⟨[], rs, rfl, rfl⟩
      · obtain ⟨pre, post, rfl, rfl⟩ := ih h
        refine ⟨t :: pre, post, rfl, ?_⟩
        rw [List.flatMap_cons, List.length_append, Nat.add_assoc]
  · rintro ⟨pre, post, rfl, rfl⟩
    rw [placed_middle]
    exact List.mem_append_right _ List.mem_cons_self

theorem flatMap_middle (pre post : List α) (r : α) :
    (pre ++ r :: post).flatMap enc = pre.flatMap enc ++ (enc r ++ post.flatMap enc) := by
  rw [List.flatMap_append, List.flatMap_cons]

theorem splice_record {pad : β} {header front old new back : List β} {pre post : List α} {r r' : α}
    (hr : enc r = front ++ old ++ back) (hr' : enc r' = front ++ new ++ back)
    (hlen : old.length = new.length) :
    splice pad (header ++ (pre ++ r :: post).flatMap enc)
        (header.length + (pre.flatMap enc).length + front.length) new =
      header ++ (pre ++ r' :: post).flatMap enc := by
  have h := splice_middle pad (header ++ pre.flatMap enc ++ front) old new
    (back ++ post.flatMap enc) hlen
  simp only [List.length_append] at h
  simp only [flatMap_middle, hr, hr', List.append_assoc] at h ⊢
  exact h

theorem splice_whole_record {pad : β} {header : List β} {pre post : List α} {r r' : α}
    (hlen : (enc r).length = (enc r').length) :
    splice pad (header ++ (pre ++ r :: post).flatMap enc) (header.length + (pre.flatMap enc).length)
        (enc r') = header ++ (pre ++ r' :: post).flatMap enc := by
  have hr : ∀ t : α, enc t = [] ++ enc t ++ [] := fun t => by simp
  exact splice_record (hr r) (hr r') hlen

variable (enc) in
/-- The records that are whole in the first `n` symbols. -/
def whole : Nat → List α → List α
  | _, [] => []
  | n, r :: rs => if (enc r).length ≤ n then r :: whole (n - (enc r).length) rs else []

variable (enc) in
/-- The record that is cut after `n` symbols, with the number of its symbols before the cut. -/
def torn : Nat → List α → Option (α × Nat)
  | _, [] => none
  | n, r :: rs =>
    if (enc r).length ≤ n then torn (n - (enc r).length) rs else if n = 0 then none else some (r, n)

theorem take_flatMap (n : Nat) (rs : List α) : (rs.flatMap enc).take n =
    (whole enc n rs).flatMap enc ++ (torn enc n rs).elim [] fun t => (enc t.1).take t.2 := by
  induction rs generalizing n with
  | nil => exact List.take_nil
  | cons r rs ih =>
    rw [List.flatMap_cons, whole, torn]
    split
    case isTrue hle =>
      rw [List.take_append, List.take_of_length_le hle, ih, List.flatMap_cons, List.append_assoc]
    case isFalse hlt =>
      rw [List.take_append_of_le_length (by omega)]
      split
      case isTrue hzero =>
        rw [hzero]
        exact List.take_zero
      case isFalse => rfl

theorem whole_isPrefix (n : Nat) (rs : List α) : whole enc n rs <+: rs := by
  induction rs generalizing n with
  | nil => exact List.prefix_refl []
  | cons r rs ih =>
    rw [whole]
    split
    · exact List.cons_prefix_cons.mpr ⟨rfl, ih _⟩
    · exact List.nil_prefix

theorem torn_eq_some {n k : Nat} {r : α} {rs : List α} (h : torn enc n rs = some (r, k)) :
    r ∈ rs ∧ 0 < k ∧ k < (enc r).length := by
  induction rs generalizing n with
  | nil => cases h
  | cons t rs ih =>
    rw [torn] at h
    split at h
    · obtain ⟨hmem, hcut⟩ := ih h
      exact ⟨List.mem_cons_of_mem t hmem, hcut⟩
    split at h
    · cases h
    · cases h
      exact ⟨List.mem_cons_self, by omega, by omega⟩

theorem length_le_flatMap {n : Nat} (hpos : ∀ r : α, n ≤ (enc r).length) (rs : List α) :
    n * rs.length ≤ (rs.flatMap enc).length := by
  induction rs with
  | nil => exact Nat.le_refl _
  | cons r rs ih =>
    have hr := hpos r
    rw [List.flatMap_cons, List.length_append, List.length_cons, Nat.mul_succ]
    omega

end Foundation
