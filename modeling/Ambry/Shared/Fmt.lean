import Mathlib.Data.List.TakeWhile
import Ambry.Foundation.Scalar
import Ambry.Foundation.Terminated

/-!
# `shared/fmt.hpp`: formatted text

The arguments are strings here, which `string_of` copies. They are laid out in
one buffer with a zero byte behind each, and every placeholder takes the bytes up
to the next zero byte. `none` stands for undefined behaviour: a byte outside a
string or a view.
-/

namespace Ambry

open Foundation

def openBrace : UInt8 := 123

def closeBrace : UInt8 := 125

namespace Fmt

/-- A `std::string_view`, with the memory behind it. -/
structure View where
  bytes : Bytes
  behind : Bytes

def literal (text : Bytes) : View := ⟨text, [0]⟩

/-- The string that is made of the pointer `fmt.data()`. -/
def ofData (fmt : View) : Option Bytes :=
  let memory := fmt.bytes ++ fmt.behind
  if 0 ∈ memory then some (memory.takeWhile fun c => c ≠ 0) else none

/-- `buffer[offset]`; a zero byte stands behind the last byte of a string. -/
def charAt (buffer : Bytes) (offset : Nat) : Option UInt8 := (buffer ++ [0])[offset]?

/-- The loop that appends an argument; a turn takes a byte of the buffer. -/
def appendLoop (buffer : Bytes) : (turns offset : Nat) → (output : Bytes) → Option (Bytes × Nat)
  | 0, _, _ => none
  | turns + 1, offset, output => do
    let c ← charAt buffer offset
    if c = 0 then return (output, offset + 1)
    else appendLoop buffer turns (offset + 1) (output ++ [c])

/-- The loop that looks for the closing brace. -/
def skipLoop (fmt : Bytes) : (turns i : Nat) → Nat
  | 0, i => i
  | turns + 1, i =>
    if i < fmt.length ∧ fmt[i]? ≠ some closeBrace then skipLoop fmt turns (i + 1) else i

/-- The loop of `format`; every turn takes a byte of the template at least. -/
def formatLoop (fmt buffer : Bytes) : (turns i offset : Nat) → (output : Bytes) → Option Bytes
  | 0, _, _, _ => none
  | turns + 1, i, offset, output =>
    if i < fmt.length then do
      let c ← fmt[i]?
      if c = openBrace then
        let i := i + 1
        let c ← fmt[i]?
        if c = openBrace then formatLoop fmt buffer turns (i + 1) offset (output ++ [c])
        else
          let (output, offset) ← appendLoop buffer (buffer.length + 1) offset output
          let i := skipLoop fmt (fmt.length - i) i
          formatLoop fmt buffer turns (i + 1) offset output
      else formatLoop fmt buffer turns (i + 1) offset (output ++ [c])
    else some output

def format (fmt : View) (a : List Bytes) : Option Bytes :=
  if a = [] then ofData fmt
  else formatLoop fmt.bytes (terminateAll 0 a) (fmt.bytes.length + 1) 0 0 []

/-- A placeholder, and the text behind it. -/
def slot (text : Bytes) : Bytes := openBrace :: closeBrace :: text

/-- A text with placeholders and no other braces; `rest` is what stands behind each placeholder. -/
structure Template where
  first : Bytes
  rest : List Bytes
  plain : ∀ text ∈ first :: rest, openBrace ∉ text ∧ closeBrace ∉ text

namespace Template

def bytes (t : Template) : Bytes := t.first ++ t.rest.flatMap slot

/-- The text with its placeholders replaced by the arguments. -/
def fill (t : Template) (args : List Bytes) : Bytes :=
  t.first ++ (List.zipWith (fun arg text => arg ++ text) args t.rest).flatten

end Template

variable {fmt buffer before pre text after post : Bytes}

theorem getElem?_middle (pre : Bytes) (c : UInt8) (post : Bytes) :
    (pre ++ c :: post)[pre.length]? = some c := by
  rw [List.getElem?_append_right (Nat.le_refl _), Nat.sub_self]
  rfl

theorem length_lt_middle (pre : Bytes) (c : UInt8) (post : Bytes) :
    pre.length < (pre ++ c :: post).length := by
  rw [List.length_append, List.length_cons]
  omega

theorem charAt_append {c : UInt8} (h : buffer ++ [0] = before ++ c :: after) :
    charAt buffer before.length = some c := by
  rw [charAt, h, getElem?_middle]

/-- What is appended ends with the next zero byte. -/
theorem appendLoop_text (h : buffer ++ [0] = before ++ (text ++ 0 :: after)) (hzero : 0 ∉ text)
    {turns : Nat} (hturns : text.length < turns) (output : Bytes) :
    appendLoop buffer turns before.length output =
      some (output ++ text, before.length + (text.length + 1)) := by
  induction text generalizing before turns output with
  | nil =>
    obtain ⟨turns, rfl⟩ := Nat.exists_eq_succ_of_ne_zero (Nat.ne_zero_of_lt hturns)
    rw [appendLoop, charAt_append h, List.append_nil]
    rfl
  | cons c text ih =>
    obtain ⟨turns, rfl⟩ := Nat.exists_eq_succ_of_ne_zero (Nat.ne_zero_of_lt hturns)
    obtain ⟨hc, hzero⟩ := not_or.mp (List.mem_cons.not.mp hzero)
    rw [List.length_cons] at hturns
    have hrest : buffer ++ [0] = before ++ [c] ++ (text ++ 0 :: after) := by
      rw [h, List.append_assoc]
      rfl
    have hnext := ih hrest hzero (Nat.lt_of_succ_lt_succ hturns) (output ++ [c])
    rw [List.length_append, List.append_assoc] at hnext
    rw [appendLoop, charAt_append h]
    simp only [Option.bind_eq_bind, Option.bind_some, if_neg (Ne.symm hc)]
    have hstop : before.length + ((c :: text).length + 1) = before.length + 1 + (text.length + 1) := by
      rw [List.length_cons]
      omega
    rw [hstop]
    exact hnext

/-- A text without an opening brace is copied. -/
theorem formatLoop_text (hplain : openBrace ∉ text) (buffer pre post : Bytes) (turns offset : Nat)
    (output : Bytes) :
    formatLoop (pre ++ (text ++ post)) buffer (text.length + turns) pre.length offset output =
      formatLoop (pre ++ (text ++ post)) buffer turns (pre.length + text.length) offset
        (output ++ text) := by
  induction text generalizing pre output with
  | nil => rw [List.append_nil, List.length_nil, Nat.zero_add, Nat.add_zero]
  | cons c text ih =>
    obtain ⟨hc, hplain⟩ := not_or.mp (List.mem_cons.not.mp hplain)
    have hnext := ih hplain (pre ++ [c]) (output ++ [c])
    simp only [List.length_append, List.append_assoc, List.length_singleton,
      List.singleton_append] at hnext
    rw [List.length_cons, Nat.add_right_comm, List.cons_append, formatLoop,
      if_pos (length_lt_middle _ _ _), getElem?_middle]
    simp only [Option.bind_eq_bind, Option.bind_some, if_neg (Ne.symm hc)]
    rw [hnext, Nat.add_comm text.length 1, ← Nat.add_assoc]

theorem skipLoop_closing (pre post : Bytes) (turns : Nat) :
    skipLoop (pre ++ closeBrace :: post) turns pre.length = pre.length := by
  cases turns with
  | zero => rfl
  | succ turns => rw [skipLoop, getElem?_middle, if_neg (fun h => h.2 rfl)]

theorem formatLoop_placeholder (pre post : Bytes) (turns offset : Nat) (output : Bytes) :
    formatLoop (pre ++ openBrace :: closeBrace :: post) buffer (turns + 1) pre.length offset
        output =
      (appendLoop buffer (buffer.length + 1) offset output).bind fun r =>
        formatLoop (pre ++ openBrace :: closeBrace :: post) buffer turns (pre.length + 2) r.2
          r.1 := by
  have hshift : pre ++ openBrace :: closeBrace :: post =
      (pre ++ [openBrace]) ++ closeBrace :: post := by simp
  have hclose : (pre ++ openBrace :: closeBrace :: post)[pre.length + 1]? = some closeBrace := by
    rw [hshift]
    have hmiddle := getElem?_middle (pre ++ [openBrace]) closeBrace post
    rw [List.length_append] at hmiddle
    exact hmiddle
  have hskip : ∀ turns, skipLoop (pre ++ openBrace :: closeBrace :: post) turns (pre.length + 1) =
      pre.length + 1 := by
    intro turns
    rw [hshift]
    have hclosing := skipLoop_closing (pre ++ [openBrace]) post turns
    rw [List.length_append] at hclosing
    exact hclosing
  have hne : closeBrace ≠ openBrace := by decide
  rw [formatLoop, if_pos (length_lt_middle _ _ _), getElem?_middle]
  simp only [Option.bind_eq_bind, Option.bind_some, if_true, hclose, if_neg hne, hskip]

/-- Every placeholder takes the next piece of the buffer. -/
theorem formatLoop_rest {rest pieces : List Bytes} (hplain : ∀ text ∈ rest, openBrace ∉ text)
    (hzero : ∀ piece ∈ pieces, 0 ∉ piece) (hle : rest.length ≤ pieces.length)
    (hbuffer : buffer ++ [0] = before ++ terminateAll 0 pieces) {turns : Nat}
    (hturns : (rest.flatMap slot).length < turns) (pre output : Bytes) :
    formatLoop (pre ++ rest.flatMap slot) buffer turns pre.length before.length output =
      some (output ++ (List.zipWith (fun piece text => piece ++ text) pieces rest).flatten) := by
  induction rest generalizing pieces before turns pre output with
  | nil =>
    obtain ⟨turns, rfl⟩ := Nat.exists_eq_succ_of_ne_zero (Nat.ne_zero_of_lt hturns)
    rw [List.flatMap_nil, List.append_nil, formatLoop, if_neg (Nat.lt_irrefl _), List.zipWith_nil_right,
      List.flatten_nil, List.append_nil]
  | cons text rest ih =>
    obtain ⟨piece, pieces, rfl⟩ :=
      List.exists_cons_of_length_pos (Nat.lt_of_lt_of_le (Nat.succ_pos rest.length) hle)
    obtain ⟨htext, hplain⟩ := List.forall_mem_cons.mp hplain
    obtain ⟨hpiece, hzero⟩ := List.forall_mem_cons.mp hzero
    rw [terminateAll_cons] at hbuffer
    rw [List.flatMap_cons, slot, List.cons_append, List.cons_append, List.length_cons,
      List.length_cons, List.length_append] at hturns
    have hroom : piece.length < buffer.length + 1 := by
      have hlength := congrArg List.length hbuffer
      simp only [List.length_append, List.length_cons, List.length_nil] at hlength
      omega
    have hfmt : pre ++ (text :: rest).flatMap slot =
        pre ++ openBrace :: closeBrace :: (text ++ rest.flatMap slot) := rfl
    have hshift : pre ++ openBrace :: closeBrace :: (text ++ rest.flatMap slot) =
        (pre ++ [openBrace, closeBrace]) ++ (text ++ rest.flatMap slot) := by simp
    obtain ⟨turns, rfl⟩ : ∃ k, turns = text.length + k + 1 := ⟨turns - 1 - text.length, by omega⟩
    have hcopied := formatLoop_text htext buffer (pre ++ [openBrace, closeBrace])
      (rest.flatMap slot) turns (before.length + (piece.length + 1)) (output ++ piece)
    have hpieces : buffer ++ [0] = before ++ piece ++ [0] ++ terminateAll 0 pieces := by
      rw [hbuffer]
      simp
    have hlater := ih hplain hzero (Nat.le_of_succ_le_succ hle) hpieces
      (by omega : (rest.flatMap slot).length < turns) (pre ++ [openBrace, closeBrace] ++ text)
      (output ++ piece ++ text)
    simp only [List.length_append, List.append_assoc, List.length_cons, List.length_nil,
      Nat.add_assoc] at hcopied hlater
    rw [hfmt, formatLoop_placeholder, appendLoop_text hbuffer hpiece hroom]
    simp only [Option.bind_some, hshift, List.append_assoc]
    rw [hcopied, hlater]
    simp

namespace Template

variable {t : Template} {behind : Bytes} {args : List Bytes}

theorem format_pieces (hargs : args ≠ [])
    (hle : t.rest.length ≤ ((terminateAll 0 args).splitOn 0).length) (behind : Bytes) :
    format ⟨t.bytes, behind⟩ args = some (t.fill ((terminateAll 0 args).splitOn 0)) := by
  have hplain := fun text htext => (t.plain text htext).1
  obtain ⟨hfirst, hrest⟩ := List.forall_mem_cons.mp hplain
  obtain ⟨turns, hturns⟩ : ∃ k, t.bytes.length + 1 = t.first.length + k ∧
      (t.rest.flatMap slot).length < k := by
    refine ⟨(t.rest.flatMap slot).length + 1, ?_, Nat.lt_succ_self _⟩
    rw [bytes, List.length_append, Nat.add_assoc]
  rw [format, if_neg hargs, hturns.1, bytes]
  have hcopied := formatLoop_text hfirst (terminateAll 0 args) [] (t.rest.flatMap slot) turns 0 []
  have hpieces : terminateAll 0 args ++ [0] =
      [] ++ terminateAll 0 ((terminateAll 0 args).splitOn 0) := (terminateAll_splitOn 0 _).symm
  have hlater := formatLoop_rest hrest (fun piece hpiece => not_mem_of_mem_splitOn hpiece) hle hpieces
    hturns.2 t.first t.first
  simp only [List.nil_append, List.length_nil, Nat.zero_add] at hcopied hlater
  rw [hcopied, hlater, fill]

theorem count_zipWith {xs rest : List Bytes} (hle : rest.length ≤ xs.length) (c : UInt8) :
    (List.zipWith (fun x text => x ++ text) xs rest).flatten.count c =
      (xs.take rest.length).flatten.count c + rest.flatten.count c := by
  induction rest generalizing xs with
  | nil => simp
  | cons text rest ih =>
    obtain ⟨x, xs, rfl⟩ :=
      List.exists_cons_of_length_pos (Nat.lt_of_lt_of_le (Nat.succ_pos rest.length) hle)
    simp only [List.zipWith_cons_cons, List.flatten_cons, List.count_append, List.length_cons,
      List.take_succ_cons, ih (Nat.le_of_succ_le_succ hle)]
    omega

/-- The zero bytes of the arguments are nowhere in the result. -/
theorem fill_eq_iff (hlen : args.length = t.rest.length) :
    t.fill ((terminateAll 0 args).splitOn 0) = t.fill args ↔ ∀ arg ∈ args, 0 ∉ arg := by
  constructor
  · intro h arg harg hzero
    have hle : t.rest.length ≤ ((terminateAll 0 args).splitOn 0).length := by
      rw [← hlen]
      exact (length_lt_splitOn 0 args).le
    have hcount := congrArg (List.count 0) h
    rw [fill, fill, List.count_append, List.count_append, count_zipWith hle,
      count_zipWith hlen.ge, ← hlen, List.take_length] at hcount
    have hnone : (((terminateAll 0 args).splitOn 0).take args.length).flatten.count 0 = 0 := by
      rw [List.count_eq_zero]
      intro hmem
      obtain ⟨piece, hpiece, hmem⟩ := List.mem_flatten.mp hmem
      exact not_mem_of_mem_splitOn (List.mem_of_mem_take hpiece) hmem
    have hsome : 0 < args.flatten.count 0 :=
      List.count_pos_iff.mpr (List.mem_flatten.mpr ⟨arg, harg, hzero⟩)
    omega
  · intro h
    have happend : List.zipWith (fun x text => x ++ text) (args ++ [[]]) (t.rest ++ []) =
        List.zipWith (fun x text => x ++ text) args t.rest ++ [] := List.zipWith_append hlen
    rw [List.append_nil, List.append_nil] at happend
    rw [splitOn_terminateAll h, fill, fill, happend]

theorem mem_fill {xs : List Bytes} {c : UInt8} (h : c ∈ t.fill xs) :
    (∃ text ∈ t.first :: t.rest, c ∈ text) ∨ ∃ x ∈ xs, c ∈ x := by
  obtain hfirst | hrest := List.mem_append.mp h
  · exact .inl ⟨t.first, List.mem_cons_self, hfirst⟩
  · obtain ⟨part, hpart, hc⟩ := List.mem_flatten.mp hrest
    obtain ⟨i, hpart⟩ := List.mem_iff_getElem?.mp hpart
    obtain ⟨x, text, hx, htext, rfl⟩ := List.getElem?_zipWith_eq_some.mp hpart
    obtain hc | hc := List.mem_append.mp hc
    · exact .inr ⟨x, List.mem_of_getElem? hx, hc⟩
    · exact .inl ⟨text, List.mem_cons_of_mem _ (List.mem_of_getElem? htext), hc⟩

theorem takeWhile_text (h : 0 ∉ text) (behind : Bytes) :
    (text ++ behind).takeWhile (fun c => c ≠ 0) = text ++ behind.takeWhile fun c => c ≠ 0 := by
  apply List.takeWhile_append_of_pos
  intro c hc
  apply decide_eq_true
  rintro rfl
  exact h hc

theorem ofData_eq_iff (text behind : Bytes) :
    ofData ⟨text, behind⟩ = some text ↔ 0 ∉ text ∧ behind.head? = some 0 := by
  rw [ofData]
  dsimp only
  constructor
  · intro h
    split at h
    · rename_i hzero
      have htake := Option.some.inj h
      have htext : 0 ∉ text := by
        rw [← htake]
        intro hmem
        simpa using List.mem_takeWhile_imp hmem
      rw [takeWhile_text htext, List.append_right_eq_self] at htake
      refine ⟨htext, ?_⟩
      cases behind with
      | nil => exact absurd hzero (by rwa [List.append_nil])
      | cons c behind => simpa using htake
    · cases h
  · rintro ⟨htext, hbehind⟩
    obtain ⟨behind, rfl⟩ := List.head?_eq_some_iff.mp hbehind
    rw [if_pos (by simp), takeWhile_text htext]
    simp

/-- The template comes back filled with the arguments exactly where no text that is read up to a
zero byte contains one. -/
theorem format_eq_fill_iff (hlen : args.length = t.rest.length) :
    format ⟨t.bytes, behind⟩ args = some (t.fill args) ↔
      (args = [] → 0 ∉ t.first ∧ behind.head? = some 0) ∧ ∀ arg ∈ args, 0 ∉ arg := by
  rcases eq_or_ne args [] with rfl | hargs
  · have hrest : t.rest = [] := List.length_eq_zero_iff.mp hlen.symm
    have hbytes : t.bytes = t.first := by rw [bytes, hrest, List.flatMap_nil, List.append_nil]
    have hfill : t.fill [] = t.first := by
      rw [fill, List.zipWith_nil_left, List.flatten_nil, List.append_nil]
    rw [format, if_pos rfl, hbytes, hfill, ofData_eq_iff]
    simp
  · rw [format_pieces hargs (hlen ▸ (length_lt_splitOn 0 args).le), Option.some_inj,
      fill_eq_iff hlen]
    simp [hargs]

end Template

end Fmt

end Ambry
