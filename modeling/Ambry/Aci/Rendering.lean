import Ambry.Aci.Parser

/-!
# Commands written out

How a list of commands may be written: words bare or between quotes, words of a
command separated by spaces and tabs, commands by single newlines. Parsing such
a text gives the commands back.
-/

namespace Ambry.Aci

open Foundation

/-- The bytes that may be written as an escape, behind the letters of their escapes. -/
def escapes : List (UInt8 × UInt8) :=
  [(34, quote), (92, backslash), (110, newline), (114, carriageReturn), (116, tab),
    (98, backspace), (97, bell)]

theorem escape_of_mem {e c : UInt8} (h : (e, c) ∈ escapes) : escape e = c := by
  simp only [escapes, List.mem_cons, Prod.mk.injEq, List.not_mem_nil, or_false] at h
  obtain ⟨rfl, rfl⟩ | ⟨rfl, rfl⟩ | ⟨rfl, rfl⟩ | ⟨rfl, rfl⟩ | ⟨rfl, rfl⟩ | ⟨rfl, rfl⟩ | ⟨rfl, rfl⟩ := h
  all_goals rfl

/-- The text between the quotes for the bytes of a word. -/
inductive Quoted : Bytes → Bytes → Prop
  | nil : Quoted [] []
  | plain {c : UInt8} {s t : Bytes} (hquote : c ≠ quote) (hbackslash : c ≠ backslash)
      (h : Quoted s t) : Quoted (c :: s) (c :: t)
  | escaped {e c : UInt8} {s t : Bytes} (hmem : (e, c) ∈ escapes) (h : Quoted s t) :
      Quoted (c :: s) (backslash :: e :: t)

inductive Word : Bytes → Bytes → Prop
  | bare {c : UInt8} {s : Bytes} (hquote : c ≠ quote) (hplain : ∀ b ∈ c :: s, unimportant b = false) :
      Word (c :: s) (c :: s)
  | quoted {s t : Bytes} (h : Quoted s t) : Word s (quote :: (t ++ [quote]))

def Separator (sep : Bytes) : Prop := sep ≠ [] ∧ ∀ c ∈ sep, c = space ∨ c = tab

inductive Arguments : List Bytes → Bytes → Prop
  | nil : Arguments [] []
  | cons {sep s t u : Bytes} {args : List Bytes} (hsep : Separator sep) (hs : Word s t)
      (h : Arguments args u) : Arguments (s :: args) (sep ++ (t ++ u))

inductive Command : Cmd → Bytes → Prop
  | mk {s t u : Bytes} {args : List Bytes} (hs : Word s t) (h : Arguments args u) :
      Command ⟨s, args⟩ (t ++ u)

inductive Lines : List Cmd → Bytes → Prop
  | last {c : Cmd} {t : Bytes} (h : Command c t) : Lines [c] t
  | cons {c : Cmd} {t u : Bytes} {cmds : List Cmd} (h : Command c t) (hrest : Lines cmds u) :
      Lines (c :: cmds) (t ++ newline :: u)

inductive Renders : List Cmd → Bytes → Prop
  | none : Renders [] []
  | lines {cmds : List Cmd} {t : Bytes} (h : Lines cmds t) : Renders cmds t

namespace ParserCtx

/-- The position between what has been read and what is ahead. -/
def between (pre rest : Bytes) : ParserCtx := ⟨pre ++ rest, pre.length⟩

theorem atEnd_between (pre rest : Bytes) : (between pre rest).atEnd = rest.isEmpty := by
  cases rest <;> simp [atEnd, between]

theorem getD_between (pre : Bytes) (c : UInt8) (rest : Bytes) :
    (between pre (c :: rest)).str.getD (between pre (c :: rest)).pos 0 = c := by
  simp [between, List.getD_eq_getElem?_getD]

theorem peek_between (pre : Bytes) (c : UInt8) (rest : Bytes) :
    (between pre (c :: rest)).peek = c := by
  rw [peek, atEnd_between, List.isEmpty_cons, if_neg Bool.false_ne_true, getD_between]

theorem isUnimportant_between (pre : Bytes) (c : UInt8) (rest : Bytes) :
    (between pre (c :: rest)).isUnimportant = unimportant c := by
  rw [isUnimportant, getD_between]

theorem advance_between (pre : Bytes) (c : UInt8) (rest : Bytes) :
    (between pre (c :: rest)).advance = between (pre ++ [c]) rest := by
  simp [advance, between]

theorem remaining_between (pre rest : Bytes) :
    (between pre rest).str.length - (between pre rest).pos = rest.length := by
  simp [between]

/-- What a loop over the bytes with a property stops at. -/
def StopsAt (p : UInt8 → Bool) (rest : Bytes) : Prop := ∀ c tail, rest = c :: tail → p c = false

theorem advanceLoop_between {fn : ParserCtx → Bool} {p : UInt8 → Bool}
    (hfn : ∀ pre c rest, fn (between pre (c :: rest)) = p c) {mid rest : Bytes}
    (hmid : ∀ c ∈ mid, p c) (hrest : StopsAt p rest) (pre : Bytes) (turns : Nat) :
    advanceLoop fn (mid.length + turns) (between pre (mid ++ rest)) = between (pre ++ mid) rest := by
  induction mid generalizing pre with
  | nil =>
    rw [List.append_nil, List.nil_append, List.length_nil, Nat.zero_add]
    cases turns with
    | zero => rfl
    | succ turns =>
      rw [advanceLoop, atEnd_between]
      cases rest with
      | nil => rfl
      | cons c tail => rw [hfn, hrest c tail rfl, Bool.and_false, if_neg Bool.false_ne_true]
  | cons c mid ih =>
    have hcount : (c :: mid).length + turns = mid.length + turns + 1 := by
      rw [List.length_cons]
      omega
    rw [hcount, advanceLoop, atEnd_between, List.cons_append, hfn, hmid c List.mem_cons_self,
      List.isEmpty_cons, Bool.not_false, Bool.and_true, if_pos rfl, advance_between,
      ih fun b hb => hmid b (List.mem_cons_of_mem c hb), List.append_assoc]
    rfl

theorem advanceIf_between {fn : ParserCtx → Bool} {p : UInt8 → Bool}
    (hfn : ∀ pre c rest, fn (between pre (c :: rest)) = p c) {mid rest : Bytes}
    (hmid : ∀ c ∈ mid, p c) (hrest : StopsAt p rest) (pre : Bytes) :
    advanceIf fn (between pre (mid ++ rest)) = (rest.isEmpty, between (pre ++ mid) rest) := by
  rw [advanceIf, remaining_between, List.length_append, advanceLoop_between hfn hmid hrest,
    atEnd_between]

end ParserCtx

open ParserCtx

theorem quotedLoop_between {s t : Bytes} (h : Quoted s t) (pre rest : Bytes) (turns : Nat)
    (buff : Bytes) :
    quotedLoop (t.length + 1 + turns) (between pre (t ++ quote :: rest)) buff =
      (buff ++ s, between (pre ++ t) (quote :: rest)) := by
  induction h generalizing pre turns buff with
  | nil =>
    rw [List.length_nil, List.nil_append, List.append_nil, List.append_nil, Nat.zero_add,
      Nat.add_comm, quotedLoop, peek_between]
    simp
  | @plain c s t hquote hbackslash h ih =>
    have hcount : (c :: t).length + 1 + turns = t.length + 1 + turns + 1 := by
      rw [List.length_cons]
      omega
    rw [hcount, quotedLoop, List.cons_append, atEnd_between, peek_between, advance_between,
      List.isEmpty_cons]
    simp only [ne_eq, hquote, hbackslash, not_false_eq_true, decide_true, Bool.not_false,
      Bool.and_true, if_true, false_and, if_false]
    rw [ih, List.append_assoc, List.append_assoc]
    rfl
  | @escaped e c s t hmem h ih =>
    have hcount : (backslash :: e :: t).length + 1 + turns = t.length + 1 + (turns + 1) + 1 := by
      rw [List.length_cons, List.length_cons]
      omega
    -- the closing quote is still ahead, so the letter is not the last byte
    have hahead : (between pre (backslash :: (e :: (t ++ quote :: rest)))).pos + 2 <
        (between pre (backslash :: (e :: (t ++ quote :: rest)))).str.length := by
      simp only [between, List.length_append, List.length_cons]
      omega
    have hnotQuote : backslash ≠ quote := by decide
    rw [hcount, quotedLoop, List.cons_append, List.cons_append, atEnd_between, List.isEmpty_cons]
    simp only [peek_between, advance_between, ne_eq, hnotQuote, not_false_eq_true, decide_true, Bool.not_false, Bool.and_true,
      if_true, hahead, and_self]
    rw [ih, escape_of_mem hmem, List.append_assoc, List.append_assoc, List.append_assoc]
    rfl

theorem parseQuoted_between {s t : Bytes} (h : Quoted s t) (pre rest : Bytes) :
    parseQuoted (between pre (quote :: (t ++ quote :: rest))) =
      (s, between (pre ++ quote :: (t ++ [quote])) rest) := by
  have hcount : (t ++ quote :: rest).length = t.length + 1 + rest.length := by
    rw [List.length_append, List.length_cons]
    omega
  rw [parseQuoted, advance_between, remaining_between, hcount, quotedLoop_between h,
    List.nil_append]
  simp only [advance_between, List.append_assoc, List.cons_append, List.nil_append]

theorem advanceWord_between {s rest : Bytes} (hplain : ∀ b ∈ s, unimportant b = false)
    (hrest : ∀ c tail, rest = c :: tail → unimportant c) (pre : Bytes) :
    advanceIf (fun ctx => !ctx.isUnimportant) (between pre (s ++ rest)) =
      (rest.isEmpty, between (pre ++ s) rest) := by
  apply advanceIf_between (p := fun b => !unimportant b)
  · intro pre c rest
    rw [isUnimportant_between]
  · intro b hb
    simp only [hplain b hb, Bool.not_false]
  · intro c tail heq
    simp only [hrest c tail heq, Bool.not_true]

theorem Word.start {s t : Bytes} (h : Word s t) :
    ∃ c tail, t = c :: tail ∧ unimportant c = false := by
  cases h with
  | bare hquote hplain => exact ⟨_, _, rfl, hplain _ List.mem_cons_self⟩
  | quoted h => exact ⟨quote, _, rfl, rfl⟩

theorem parseArg_between {s t : Bytes} (h : Word s t) {blanks rest : Bytes}
    (hblanks : ∀ c ∈ blanks, unimportant c) (hrest : ∀ c tail, rest = c :: tail → unimportant c)
    (pre : Bytes) :
    parseArg (between pre (blanks ++ (t ++ rest))) =
      (some s, between (pre ++ blanks ++ t) rest) := by
  have hstop : StopsAt unimportant (t ++ rest) := by
    intro c tail heq
    obtain ⟨d, more, rfl, hd⟩ := h.start
    obtain ⟨rfl, _⟩ := List.cons.inj heq
    exact hd
  have hskip := advanceIf_between isUnimportant_between hblanks hstop pre
  rw [parseArg, hskip]
  cases h with
  | @bare c s hquote hplain =>
    have hnewline : c ≠ newline := by
      rintro rfl
      exact absurd (hplain newline List.mem_cons_self) (by decide)
    have hword := advanceWord_between hplain hrest (pre ++ blanks)
    have hwindow : window (pre ++ blanks ++ (c :: s) ++ rest) (pre ++ blanks).length (c :: s).length =
        c :: s := window_middle _ _ _
    have hlen : (between (pre ++ blanks ++ (c :: s)) rest).pos - (pre ++ blanks).length =
        (c :: s).length := by
      simp only [between, List.length_append]
      omega
    rw [List.cons_append] at hword
    simp only [hword, List.cons_append, List.isEmpty_cons, peek_between, hnewline, hquote,
      Bool.false_or, decide_false, Bool.false_eq_true, if_false]
    exact congrArg (some · , _) (hlen ▸ hwindow)
  | @quoted s t h =>
    have hnewline : quote ≠ newline := by decide
    have hquoted := parseQuoted_between h (pre ++ blanks) rest
    simp only [List.cons_append, List.append_assoc, List.nil_append, List.isEmpty_cons,
      peek_between, hnewline, Bool.false_or, decide_false, Bool.false_eq_true, if_false,
      if_true] at hquoted ⊢
    rw [hquoted]

theorem Separator.unimportant {sep : Bytes} (h : Separator sep) {c : UInt8} (hc : c ∈ sep) :
    unimportant c := by
  obtain rfl | rfl := h.2 c hc
  · rfl
  · rfl

/-- Behind the arguments the line ends. -/
def LineEnd (rest : Bytes) : Prop := rest = [] ∨ ∃ tail, rest = newline :: tail

theorem LineEnd.unimportant {rest : Bytes} (h : LineEnd rest) {c : UInt8} {tail : Bytes}
    (heq : rest = c :: tail) : unimportant c := by
  obtain rfl | ⟨_, rfl⟩ := h
  · cases heq
  · obtain ⟨rfl, _⟩ := List.cons.inj heq
    rfl

theorem Arguments.unimportant {args : List Bytes} {u rest : Bytes} (h : Arguments args u)
    (hrest : LineEnd rest) : ∀ c tail, u ++ rest = c :: tail → unimportant c := by
  intro c tail heq
  cases h with
  | nil => exact hrest.unimportant heq
  | @cons sep s t u args hsep hs h =>
    obtain ⟨d, more, rfl⟩ := List.exists_cons_of_ne_nil hsep.1
    obtain ⟨rfl, _⟩ := List.cons.inj heq
    exact hsep.unimportant List.mem_cons_self

theorem Arguments.length_le {args : List Bytes} {u : Bytes} (h : Arguments args u) :
    args.length ≤ u.length := by
  induction h with
  | nil => exact Nat.le_refl _
  | @cons sep s t u args hsep hs h ih =>
    have hpos := List.length_pos_of_ne_nil hsep.1
    rw [List.length_cons, List.length_append, List.length_append]
    omega

theorem parseArgs_between {args : List Bytes} {u rest : Bytes} (h : Arguments args u)
    (hrest : LineEnd rest) (pre : Bytes) (turns : Nat) (out : List Bytes) :
    parseArgs (args.length + 1 + turns) (between pre (u ++ rest)) out =
      some (out ++ args, between (pre ++ u) rest) := by
  induction h generalizing pre turns out with
  | nil =>
    rw [List.length_nil, List.append_nil, List.append_nil, Nat.zero_add, Nat.add_comm, parseArgs,
      atEnd_between]
    obtain rfl | ⟨tail, rfl⟩ := hrest
    · rfl
    · rw [List.nil_append, peek_between]
      rfl
  | @cons sep s t u args hsep hs h ih =>
    obtain ⟨c, more, rfl⟩ := List.exists_cons_of_ne_nil hsep.1
    have hnewline : c ≠ newline := by
      obtain rfl | rfl := hsep.2 c List.mem_cons_self
      · decide
      · decide
    have harg := parseArg_between hs (fun b hb => hsep.unimportant hb) (h.unimportant hrest) pre
    have hcount : (s :: args).length + 1 + turns = args.length + 1 + turns + 1 := by
      rw [List.length_cons]
      omega
    rw [hcount, parseArgs, atEnd_between, List.append_assoc, List.append_assoc, harg,
      List.cons_append, peek_between]
    simp only [List.isEmpty_cons, Bool.not_false, ne_eq, hnewline, not_false_eq_true, decide_true,
      Bool.and_self, if_true]
    rw [ih, List.append_assoc, List.append_assoc, List.append_assoc]
    rfl

theorem Command.length_pos {c : Cmd} {t : Bytes} (h : Command c t) : 0 < t.length := by
  cases h with
  | mk hs h =>
    obtain ⟨c, tail, rfl, _⟩ := hs.start
    rw [List.cons_append, List.length_cons]
    omega

theorem Lines.length_le {cmds : List Cmd} {t : Bytes} (h : Lines cmds t) :
    cmds.length ≤ t.length := by
  induction h with
  | last h => exact h.length_pos
  | cons h hrest ih =>
    have hpos := h.length_pos
    rw [List.length_cons, List.length_append, List.length_cons]
    omega

/-- One turn of the outer loop takes the newline of the line before, and one command. -/
theorem parseLoop_command {c : Cmd} {t rest : Bytes} (h : Command c t) (hrest : LineEnd rest)
    {blanks : Bytes} (hblanks : ∀ b ∈ blanks, unimportant b) (pre : Bytes) (turns : Nat)
    (out : List Cmd) :
    parseLoop (turns + 1) (between pre (blanks ++ (t ++ rest))) out =
      parseLoop turns (between (pre ++ blanks ++ t) rest) (out ++ [c]) := by
  cases h with
  | @mk s t u args hs h =>
    have harg := parseArg_between hs hblanks (h.unimportant hrest) pre
    have hnonempty : (blanks ++ (t ++ (u ++ rest))).isEmpty = false := by
      obtain ⟨d, more, rfl, _⟩ := hs.start
      cases blanks <;> rfl
    have hturns : (between (pre ++ blanks ++ t) (u ++ rest)).str.length + 1 = args.length + 1 +
        ((between (pre ++ blanks ++ t) (u ++ rest)).str.length - args.length) := by
      have hle := h.length_le
      simp only [between, List.length_append]
      omega
    rw [parseLoop, atEnd_between, List.append_assoc, hnonempty, harg, if_neg Bool.false_ne_true]
    dsimp only
    rw [hturns, parseArgs_between h hrest]
    simp only [Option.bind_eq_bind, Option.bind_some, List.nil_append, List.append_assoc]

theorem parseLoop_lines {cmds : List Cmd} {t : Bytes} (h : Lines cmds t) {blanks : Bytes}
    (hblanks : ∀ b ∈ blanks, unimportant b) (pre : Bytes) (turns : Nat) (out : List Cmd) :
    parseLoop (cmds.length + 1 + turns) (between pre (blanks ++ t)) out = some (out ++ cmds) := by
  induction h generalizing blanks pre turns out with
  | @last c t h =>
    have hcount : [c].length + 1 + turns = turns + 1 + 1 := by
      rw [List.length_singleton]
      omega
    have hturn := parseLoop_command h (.inl rfl) hblanks pre (turns + 1) out
    rw [List.append_nil] at hturn
    rw [hcount, hturn, parseLoop, atEnd_between]
    rfl
  | @cons c t u cmds h hrest ih =>
    have hcount : (c :: cmds).length + 1 + turns = cmds.length + 1 + turns + 1 := by
      rw [List.length_cons]
      omega
    have hnewline : ∀ b ∈ [newline], unimportant b := List.forall_mem_singleton.mpr (by decide)
    rw [hcount, parseLoop_command h (.inr ⟨u, rfl⟩) hblanks, ← List.singleton_append, ih hnewline,
      List.append_assoc]
    rfl

/-- Parsing a rendering gives the commands that were rendered. -/
theorem parse_renders {cmds : List Cmd} {source : Bytes} (h : Renders cmds source) :
    parse source = some cmds := by
  cases h with
  | none => rfl
  | lines h =>
    have hcount : source.length + 1 = cmds.length + 1 + (source.length - cmds.length) := by
      have hle := h.length_le
      omega
    have hblanks : ∀ b ∈ ([] : Bytes), unimportant b := fun _ hb => absurd hb List.not_mem_nil
    rw [parse, hcount]
    exact parseLoop_lines h hblanks [] _ []

/-- A line `s "k\n" "" a"` and a line `"g" "\\ "`, the newline of the first as its escape. -/
theorem parse_renders_quoted :
    parse [115, space, quote, 107, backslash, 110, quote, tab, space, quote, quote, space, 97, quote,
        newline, quote, 103, quote, tab, quote, backslash, backslash, space, quote] =
      some [⟨[115], [[107, newline], [], [97, quote]]⟩, ⟨[103], [[backslash, space]]⟩] := by
  have hkey : Word [107, newline] [quote, 107, backslash, 110, quote] :=
    .quoted (.plain (by decide) (by decide) (@Quoted.escaped 110 _ _ _ (by decide) .nil))
  have hbare : Word [97, quote] [97, quote] := .bare (by decide) (by decide +kernel)
  have hslash : Word [backslash, space] [quote, backslash, backslash, space, quote] :=
    .quoted (@Quoted.escaped 92 _ _ _ (by decide) (.plain (by decide) (by decide) .nil))
  have hspace : Separator [space] := by
    constructor
    · decide +kernel
    · decide +kernel
  have hblanks : Separator [tab, space] := by
    constructor
    · decide +kernel
    · decide +kernel
  have htab : Separator [tab] := by
    constructor
    · decide +kernel
    · decide +kernel
  have hset : Command ⟨[115], [[107, newline], [], [97, quote]]⟩ _ :=
    .mk (.bare (by decide) (by decide +kernel))
      (.cons hspace hkey (.cons hblanks (.quoted .nil) (.cons hspace hbare .nil)))
  have hget : Command ⟨[103], [[backslash, space]]⟩ _ :=
    .mk (.quoted (.plain (by decide) (by decide) .nil)) (.cons htab hslash .nil)
  exact parse_renders (.lines (.cons hset (.last hget)))

end Ambry.Aci
