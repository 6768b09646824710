import Ambry.Aci.Parser

/-!
# The parser stays in its string

The scanners once more, with every use of the string looked at: a character that
is read, the position where a word is cut out, the room that is reserved for a
quoted word. A loop that has no turns left is a breach too.
-/

namespace Ambry.Aci

open Foundation

inductive Breach
  | access | start | reserve | endless
  deriving DecidableEq, Repr

abbrev Checked (α : Type) := Except Breach α

namespace Checked

/-- `str[pos]`. -/
def charAt (ctx : ParserCtx) : Checked UInt8 :=
  match ctx.str[ctx.pos]? with
  | some c => .ok c
  | none => .error .access

def isUnimportant (ctx : ParserCtx) : Checked Bool := do
  let c ← charAt ctx
  return unimportant c

def peek (ctx : ParserCtx) : Checked UInt8 := if ctx.atEnd then .ok 0 else charAt ctx

def advanceLoop (fn : ParserCtx → Checked Bool) : (turns : Nat) → ParserCtx → Checked ParserCtx
  | 0, _ => .error .endless
  | turns + 1, ctx =>
    if ctx.atEnd then .ok ctx
    else do
      if ← fn ctx then advanceLoop fn turns ctx.advance
      else return ctx

def advanceIf (fn : ParserCtx → Checked Bool) (ctx : ParserCtx) : Checked (Bool × ParserCtx) := do
  let ctx ← advanceLoop fn (ctx.str.length - ctx.pos + 1) ctx
  return (ctx.atEnd, ctx)

def quotedLoop : (turns : Nat) → ParserCtx → (buff : Bytes) → Checked (Bytes × ParserCtx)
  | 0, _, _ => .error .endless
  | turns + 1, ctx, buff =>
    if ctx.atEnd then .ok (buff, ctx)
    else do
      if (← peek ctx) = quote then return (buff, ctx)
      else
        let c ← peek ctx
        if c = backslash ∧ ctx.pos + 2 < ctx.str.length then
          let ctx := ctx.advance
          let c ← peek ctx
          quotedLoop turns ctx.advance (buff ++ [escape c])
        else quotedLoop turns ctx.advance (buff ++ [c])

/-- `buff.reserve(ctx.str.size() - ctx.pos)`. -/
def reserve (ctx : ParserCtx) : Checked Unit :=
  if ctx.pos ≤ ctx.str.length then .ok () else .error .reserve

def parseQuoted (ctx : ParserCtx) : Checked (Bytes × ParserCtx) := do
  let ctx := ctx.advance
  reserve ctx
  let (buff, ctx) ← quotedLoop (ctx.str.length - ctx.pos + 1) ctx []
  return (buff, ctx.advance)

def substr (str : Bytes) (start n : Nat) : Checked Bytes :=
  if start ≤ str.length then .ok (window str start n) else .error .start

def parseArg (ctx : ParserCtx) : Checked (Option Bytes × ParserCtx) := do
  let (atEnd, ctx) ← advanceIf isUnimportant ctx
  if atEnd then return (none, ctx)
  else if (← peek ctx) = newline then return (none, ctx)
  else if (← peek ctx) = quote then
    let (buff, ctx) ← parseQuoted ctx
    return (some buff, ctx)
  else
    let start := ctx.pos
    let (_, ctx) ← advanceIf (fun ctx => (! ·) <$> isUnimportant ctx) ctx
    let word ← substr ctx.str start (ctx.pos - start)
    return (some word, ctx)

def parseArgs : (turns : Nat) → ParserCtx → (args : List Bytes) → Checked (List Bytes × ParserCtx)
  | 0, _, _ => .error .endless
  | turns + 1, ctx, args =>
    if ctx.atEnd then .ok (args, ctx)
    else do
      if (← peek ctx) = newline then return (args, ctx)
      else
        match ← parseArg ctx with
        | (none, ctx) => return (args, ctx)
        | (some arg, ctx) => parseArgs turns ctx (args ++ [arg])

def parseLoop : (turns : Nat) → ParserCtx → (output : List Cmd) → Checked (List Cmd)
  | 0, _, _ => .error .endless
  | turns + 1, ctx, output =>
    if ctx.atEnd then .ok output
    else do
      match ← parseArg ctx with
      | (none, _) => return []
      | (some cmd, ctx) =>
        let (args, ctx) ← parseArgs (ctx.str.length + 1) ctx []
        parseLoop turns ctx (output ++ [{ cmd, args }])

def parse (source : Bytes) : Checked (List Cmd) :=
  parseLoop (source.length + 1) { str := source } []

end Checked

namespace Checked

variable {ctx : ParserCtx}

theorem charAt_eq (h : ctx.atEnd = false) : charAt ctx = .ok (ctx.str.getD ctx.pos 0) := by
  rw [charAt, List.getD_eq_getElem?_getD, List.getElem?_eq_getElem (ParserCtx.pos_lt h)]
  rfl

theorem isUnimportant_eq (h : ctx.atEnd = false) : isUnimportant ctx = .ok ctx.isUnimportant := by
  rw [isUnimportant, charAt_eq h]
  rfl

theorem peek_eq (ctx : ParserCtx) : peek ctx = .ok ctx.peek := by
  rw [peek, ParserCtx.peek]
  split
  · rfl
  · rename_i hend
    exact charAt_eq (Bool.eq_false_of_not_eq_true hend)

/-- The checked loop needs one turn more, in which it sees that it is over. -/
theorem advanceLoop_eq {fn : ParserCtx → Checked Bool} {test : ParserCtx → Bool}
    (hfn : ∀ ctx : ParserCtx, ctx.atEnd = false → fn ctx = .ok (test ctx)) {turns : Nat}
    (hturns : ctx.str.length ≤ ctx.pos + turns) :
    advanceLoop fn (turns + 1) ctx = .ok (ParserCtx.advanceLoop test turns ctx) := by
  induction turns generalizing ctx with
  | zero => rw [advanceLoop, if_pos (ParserCtx.atEnd_eq_true.mpr hturns), ParserCtx.advanceLoop]
  | succ turns ih =>
    rw [advanceLoop, ParserCtx.advanceLoop]
    cases hend : ctx.atEnd with
    | true => rfl
    | false =>
      rw [if_neg Bool.false_ne_true, hfn ctx hend]
      cases htest : test ctx with
      | true => exact ih (by simp only [ParserCtx.advance]; omega)
      | false => rfl

theorem advanceIf_eq {fn : ParserCtx → Checked Bool} {test : ParserCtx → Bool}
    (hfn : ∀ ctx : ParserCtx, ctx.atEnd = false → fn ctx = .ok (test ctx)) (ctx : ParserCtx) :
    advanceIf fn ctx = .ok (ctx.advanceIf test) := by
  have hturns : ctx.str.length ≤ ctx.pos + (ctx.str.length - ctx.pos) := by omega
  rw [advanceIf, advanceLoop_eq hfn hturns, ParserCtx.advanceIf]
  rfl

theorem quotedLoop_eq {turns : Nat} (hturns : ctx.str.length ≤ ctx.pos + turns) (buff : Bytes) :
    quotedLoop (turns + 1) ctx buff = .ok (Aci.quotedLoop turns ctx buff) := by
  induction turns generalizing ctx buff with
  | zero => rw [quotedLoop, if_pos (ParserCtx.atEnd_eq_true.mpr hturns), Aci.quotedLoop]
  | succ turns ih =>
    rw [quotedLoop, Aci.quotedLoop]
    cases hend : ctx.atEnd with
    | true => rfl
    | false =>
      simp only [Bool.false_eq_true, if_false, peek_eq, bind, Except.bind, Bool.not_false,
        Bool.true_and]
      by_cases hquote : ctx.peek = quote
      · simp only [hquote, if_true, ne_eq, not_true_eq_false, decide_false, Bool.false_eq_true,
          if_false]
        rfl
      · simp only [hquote, if_false, ne_eq, not_false_eq_true, decide_true, if_true]
        split
        · exact ih (by simp only [ParserCtx.advance]; omega) _
        · exact ih (by simp only [ParserCtx.advance]; omega) _

theorem parseQuoted_eq (h : ctx.atEnd = false) : parseQuoted ctx = .ok (Aci.parseQuoted ctx) := by
  have hroom : reserve ctx.advance = .ok () := if_pos (ParserCtx.pos_lt h)
  have hturns : ctx.advance.str.length ≤
      ctx.advance.pos + (ctx.advance.str.length - ctx.advance.pos) := by omega
  rw [parseQuoted, Aci.parseQuoted]
  simp only [hroom, quotedLoop_eq hturns, bind, Except.bind]
  rfl

theorem parseArg_eq (ctx : ParserCtx) : parseArg ctx = .ok (Aci.parseArg ctx) := by
  rw [parseArg, Aci.parseArg, advanceIf_eq fun _ => isUnimportant_eq]
  obtain ⟨ctx₁, hskip⟩ : ∃ ctx₁, ctx.advanceIf ParserCtx.isUnimportant = (ctx₁.atEnd, ctx₁) :=
    ⟨_, rfl⟩
  simp only [hskip, bind, Except.bind]
  cases hend : ctx₁.atEnd with
  | true => rfl
  | false =>
    simp only [Bool.false_eq_true, if_false, peek_eq, Bool.false_or, decide_eq_true_eq]
    by_cases hnewline : ctx₁.peek = newline
    · rw [if_pos hnewline, if_pos hnewline]
      rfl
    by_cases hquote : ctx₁.peek = quote
    · rw [if_neg hnewline, if_neg hnewline, if_pos hquote, if_pos hquote, parseQuoted_eq hend]
      rfl
    · have hnot : ∀ ctx : ParserCtx, ctx.atEnd = false →
          (! ·) <$> isUnimportant ctx = .ok (!ctx.isUnimportant) := by
        intro ctx hend
        rw [isUnimportant_eq hend]
        rfl
      rw [if_neg hnewline, if_neg hnewline, if_neg hquote, if_neg hquote, advanceIf_eq hnot]
      have hstr : (ctx₁.advanceIf fun ctx => !ctx.isUnimportant).2.str = ctx₁.str :=
        (scans_advanceLoop _ _ ctx₁).str_eq
      simp only [substr, hstr, if_pos (ParserCtx.pos_lt hend).le]
      rfl

theorem parseArgs_eq {turns : Nat} {args : List Bytes} {result : List Bytes × ParserCtx}
    (h : Aci.parseArgs turns ctx args = some result) : parseArgs turns ctx args = .ok result := by
  induction turns generalizing ctx args with
  | zero => cases h
  | succ turns ih =>
    rw [Aci.parseArgs] at h
    rw [parseArgs]
    cases hend : ctx.atEnd with
    | true =>
      rw [hend] at h
      cases h
      rfl
    | false =>
      simp only [hend, Bool.not_false, Bool.true_and, decide_eq_true_eq, ne_eq] at h
      simp only [Bool.false_eq_true, if_false, peek_eq, parseArg_eq, bind, Except.bind]
      by_cases hnewline : ctx.peek = newline
      · rw [if_neg (not_not_intro hnewline)] at h
        cases h
        rw [if_pos hnewline]
        rfl
      · rw [if_pos hnewline] at h
        rw [if_neg hnewline]
        cases harg : Aci.parseArg ctx with
        | mk arg ctx' =>
        rw [harg] at h
        cases arg with
        | none =>
          cases h
          rfl
        | some arg => exact ih h

theorem parseLoop_eq {turns : Nat} {output result : List Cmd}
    (h : Aci.parseLoop turns ctx output = some result) : parseLoop turns ctx output = .ok result := by
  induction turns generalizing ctx output with
  | zero => cases h
  | succ turns ih =>
    rw [Aci.parseLoop] at h
    rw [parseLoop]
    cases hend : ctx.atEnd with
    | true =>
      rw [hend] at h
      cases h
      rfl
    | false =>
      simp only [hend, Bool.false_eq_true, if_false] at h
      simp only [Bool.false_eq_true, if_false, parseArg_eq, bind, Except.bind]
      cases harg : Aci.parseArg ctx with
      | mk arg ctx' =>
      rw [harg] at h
      cases arg with
      | none =>
        cases h
        rfl
      | some arg =>
        obtain ⟨⟨args, ctx''⟩, hargs, h⟩ := Option.bind_eq_some_iff.mp h
        simp only [parseArgs_eq hargs]
        exact ih h

end Checked

/-- Whatever the source, the parser ends and makes no use of the string outside it, and a word
takes a byte at least. -/
theorem parse_bounded (source : Bytes) :
    (∃ cmds, parse source = some cmds ∧ Checked.parse source = .ok cmds) ∧
      ∀ ctx word ctx', Checked.parseArg ctx = .ok (some word, ctx') → ctx.pos < ctx'.pos := by
  constructor
  · obtain ⟨cmds, hparse⟩ := Option.isSome_iff_exists.mp (parse_isSome source)
    exact ⟨cmds, hparse, Checked.parseLoop_eq hparse⟩
  · intro ctx word ctx' h
    rw [Checked.parseArg_eq, Except.ok.injEq] at h
    exact (parseArg_cases h).2 rfl

end Ambry.Aci
