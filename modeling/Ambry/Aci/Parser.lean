import Ambry.Aci.Types
import Ambry.Foundation.Splice

/-!
# `aci/aci.cpp`: commands as text

A source is scanned by functions that share one position. A loop over the bytes
that are left takes at least one of them at every turn, so their number bounds
the turns.
-/

namespace Ambry.Aci

open Foundation

def bell : UInt8 := 7

def backspace : UInt8 := 8

def tab : UInt8 := 9

def newline : UInt8 := 10

def carriageReturn : UInt8 := 13

def space : UInt8 := 32

def quote : UInt8 := 34

def backslash : UInt8 := 92

def unimportant (c : UInt8) : Bool := c = space || c = tab || c = carriageReturn || c = newline

structure ParserCtx where
  str : Bytes
  pos : Nat := 0

namespace ParserCtx

def atEnd (ctx : ParserCtx) : Bool := ctx.str.length ≤ ctx.pos

/-- `str[pos]`, which is looked at only where `at_end` is false. -/
def isUnimportant (ctx : ParserCtx) : Bool := unimportant (ctx.str.getD ctx.pos 0)

def advance (ctx : ParserCtx) : ParserCtx := { ctx with pos := ctx.pos + 1 }

def advanceLoop (fn : ParserCtx → Bool) : (turns : Nat) → ParserCtx → ParserCtx
  | 0, ctx => ctx
  | turns + 1, ctx => if !ctx.atEnd && fn ctx then advanceLoop fn turns ctx.advance else ctx

def advanceIf (fn : ParserCtx → Bool) (ctx : ParserCtx) : Bool × ParserCtx :=
  let ctx := advanceLoop fn (ctx.str.length - ctx.pos) ctx
  (ctx.atEnd, ctx)

def peek (ctx : ParserCtx) : UInt8 := if ctx.atEnd then 0 else ctx.str.getD ctx.pos 0

end ParserCtx

/-- The letters are `n`, `r`, `t`, `b` and `a`; any other byte stands for itself. -/
def escape (c : UInt8) : UInt8 :=
  match c with
  | 34 => quote
  | 110 => newline
  | 114 => carriageReturn
  | 116 => tab
  | 98 => backspace
  | 97 => bell
  | 92 => backslash
  | c => c

def quotedLoop : (turns : Nat) → ParserCtx → (buff : Bytes) → Bytes × ParserCtx
  | 0, ctx, buff => (buff, ctx)
  | turns + 1, ctx, buff =>
    if !ctx.atEnd && ctx.peek ≠ quote then
      let c := ctx.peek
      if c = backslash ∧ ctx.pos + 2 < ctx.str.length then
        let ctx := ctx.advance
        quotedLoop turns ctx.advance (buff ++ [escape ctx.peek])
      else quotedLoop turns ctx.advance (buff ++ [c])
    else (buff, ctx)

def parseQuoted (ctx : ParserCtx) : Bytes × ParserCtx :=
  let ctx := ctx.advance
  let (buff, ctx) := quotedLoop (ctx.str.length - ctx.pos) ctx []
  (buff, ctx.advance)

def parseArg (ctx : ParserCtx) : Option Bytes × ParserCtx :=
  let (atEnd, ctx) := ctx.advanceIf ParserCtx.isUnimportant
  if atEnd || ctx.peek = newline then (none, ctx)
  else if ctx.peek = quote then
    let (buff, ctx) := parseQuoted ctx
    (some buff, ctx)
  else
    let start := ctx.pos
    let (_, ctx) := ctx.advanceIf fun ctx => !ctx.isUnimportant
    (some (window ctx.str start (ctx.pos - start)), ctx)

/-- The inner loop of `parse`, over the arguments of one command. -/
def parseArgs : (turns : Nat) → ParserCtx → (args : List Bytes) → Option (List Bytes × ParserCtx)
  | 0, _, _ => none
  | turns + 1, ctx, args =>
    if !ctx.atEnd && ctx.peek ≠ newline then
      match parseArg ctx with
      | (none, ctx) => some (args, ctx)
      | (some arg, ctx) => parseArgs turns ctx (args ++ [arg])
    else some (args, ctx)

def parseLoop : (turns : Nat) → ParserCtx → (output : List Cmd) → Option (List Cmd)
  | 0, _, _ => none
  | turns + 1, ctx, output =>
    if ctx.atEnd then some output
    else
      match parseArg ctx with
      | (none, _) => some []
      | (some cmd, ctx) => do
        let (args, ctx) ← parseArgs (ctx.str.length + 1) ctx []
        parseLoop turns ctx (output ++ [{ cmd, args }])

def parse (source : Bytes) : Option (List Cmd) := parseLoop (source.length + 1) { str := source } []

/-- The scanners read on in the same string. -/
structure Scans (ctx ctx' : ParserCtx) : Prop where
  str_eq : ctx'.str = ctx.str
  pos_le : ctx.pos ≤ ctx'.pos

theorem Scans.refl (ctx : ParserCtx) : Scans ctx ctx := ⟨rfl, Nat.le_refl _⟩

theorem Scans.trans {ctx ctx' ctx'' : ParserCtx} (h : Scans ctx ctx') (h' : Scans ctx' ctx'') :
    Scans ctx ctx'' := ⟨h'.str_eq.trans h.str_eq, h.pos_le.trans h'.pos_le⟩

theorem scans_advance (ctx : ParserCtx) : Scans ctx ctx.advance := ⟨rfl, Nat.le_succ _⟩

theorem scans_advanceLoop (fn : ParserCtx → Bool) (turns : Nat) (ctx : ParserCtx) :
    Scans ctx (ParserCtx.advanceLoop fn turns ctx) := by
  induction turns generalizing ctx with
  | zero => exact .refl ctx
  | succ turns ih =>
    rw [ParserCtx.advanceLoop]
    split
    · exact (scans_advance ctx).trans (ih ctx.advance)
    · exact .refl ctx

theorem ParserCtx.atEnd_eq_true {ctx : ParserCtx} : ctx.atEnd = true ↔ ctx.str.length ≤ ctx.pos := by
  simp [atEnd]

theorem ParserCtx.pos_lt {ctx : ParserCtx} (h : ctx.atEnd = false) : ctx.pos < ctx.str.length := by
  rw [← Nat.not_le, ← atEnd_eq_true, h]
  exact Bool.false_ne_true

/-- The loop goes on as long as it can. -/
theorem advanceLoop_stops (fn : ParserCtx → Bool) {turns : Nat} {ctx : ParserCtx}
    (hturns : ctx.str.length ≤ ctx.pos + turns) :
    (ParserCtx.advanceLoop fn turns ctx).atEnd = true ∨
      fn (ParserCtx.advanceLoop fn turns ctx) = false := by
  induction turns generalizing ctx with
  | zero => exact .inl (ParserCtx.atEnd_eq_true.mpr hturns)
  | succ turns ih =>
    rw [ParserCtx.advanceLoop]
    split
    · exact ih (by simp only [ParserCtx.advance]; omega)
    · rename_i hstop
      simpa [or_iff_not_imp_left] using hstop

theorem scans_quotedLoop (turns : Nat) (ctx : ParserCtx) (buff : Bytes) :
    Scans ctx (quotedLoop turns ctx buff).2 := by
  induction turns generalizing ctx buff with
  | zero => exact .refl ctx
  | succ turns ih =>
    rw [quotedLoop]
    split
    · dsimp only
      split
      · exact (scans_advance ctx).trans ((scans_advance _).trans (ih _ _))
      · exact (scans_advance ctx).trans (ih _ _)
    · exact .refl ctx

theorem scans_parseQuoted (ctx : ParserCtx) :
    Scans ctx (parseQuoted ctx).2 ∧ ctx.pos < (parseQuoted ctx).2.pos := by
  have hloop := scans_quotedLoop (ctx.advance.str.length - ctx.advance.pos) ctx.advance []
  have hall := (scans_advance ctx).trans (hloop.trans (scans_advance _))
  exact ⟨hall, Nat.lt_succ_of_le ((scans_advance ctx).trans hloop).pos_le⟩

/-- A word takes a byte at least. -/
theorem parseArg_cases {ctx ctx' : ParserCtx} {arg : Option Bytes}
    (h : parseArg ctx = (arg, ctx')) : Scans ctx ctx' ∧ (arg.isSome → ctx.pos < ctx'.pos) := by
  rw [parseArg, ParserCtx.advanceIf] at h
  have hskip := scans_advanceLoop ParserCtx.isUnimportant (ctx.str.length - ctx.pos) ctx
  have hstop := advanceLoop_stops ParserCtx.isUnimportant
    (show ctx.str.length ≤ ctx.pos + (ctx.str.length - ctx.pos) by omega)
  generalize ParserCtx.advanceLoop ParserCtx.isUnimportant (ctx.str.length - ctx.pos) ctx = ctx₁
    at h hskip hstop
  dsimp only at h
  split at h
  · cases h
    exact ⟨hskip, fun hsome => by cases hsome⟩
  · rename_i hinside
    have hnotEnd : ctx₁.atEnd = false := by
      cases hend : ctx₁.atEnd with
      | false => rfl
      | true => exact absurd (by rw [hend]; rfl) hinside
    have hword : ctx₁.isUnimportant = false := hstop.resolve_left (by rw [hnotEnd]; decide)
    split at h
    · cases h
      obtain ⟨hquoted, hlt⟩ := scans_parseQuoted ctx₁
      exact ⟨hskip.trans hquoted, fun _ => hskip.pos_le.trans_lt hlt⟩
    · cases h
      obtain ⟨turns, hturns⟩ :=
        Nat.exists_eq_succ_of_ne_zero (Nat.sub_ne_zero_of_lt (ParserCtx.pos_lt hnotEnd))
      rw [ParserCtx.advanceIf, hturns, ParserCtx.advanceLoop, hnotEnd, hword]
      have hrest := scans_advanceLoop (fun ctx => !ctx.isUnimportant) turns ctx₁.advance
      exact ⟨hskip.trans ((scans_advance ctx₁).trans hrest),
        fun _ => hskip.pos_le.trans_lt hrest.pos_le⟩

theorem parseArgs_isSome {turns : Nat} {ctx : ParserCtx} (args : List Bytes)
    (hturns : ctx.str.length < ctx.pos + turns) (hpositive : 0 < turns) :
    ∃ args' ctx', parseArgs turns ctx args = some (args', ctx') ∧ Scans ctx ctx' := by
  induction turns generalizing ctx args with
  | zero => omega
  | succ turns ih =>
    rw [parseArgs]
    split
    · rename_i hmore
      rw [Bool.and_eq_true, Bool.not_eq_true', ← Bool.not_eq_true, ParserCtx.atEnd_eq_true] at hmore
      cases harg : parseArg ctx with
      | mk arg ctx₁ =>
      obtain ⟨hscans, hlt⟩ := parseArg_cases harg
      cases arg with
      | none => exact ⟨args, ctx₁, rfl, hscans⟩
      | some arg =>
        have hstr := hscans.str_eq
        have hlt := hlt rfl
        obtain ⟨args', ctx', hrest, hscans'⟩ := ih (args ++ [arg]) (by rw [hstr]; omega) (by omega)
        exact ⟨args', ctx', hrest, hscans.trans hscans'⟩
    · exact ⟨args, ctx, rfl, .refl ctx⟩

theorem parseLoop_isSome {turns : Nat} {ctx : ParserCtx} (output : List Cmd)
    (hturns : ctx.str.length < ctx.pos + turns) (hpositive : 0 < turns) :
    (parseLoop turns ctx output).isSome := by
  induction turns generalizing ctx output with
  | zero => omega
  | succ turns ih =>
    rw [parseLoop]
    split
    · rfl
    · rename_i hmore
      rw [ParserCtx.atEnd_eq_true] at hmore
      cases harg : parseArg ctx with
      | mk arg ctx₁ =>
      obtain ⟨hscans, hlt⟩ := parseArg_cases harg
      cases arg with
      | none => rfl
      | some arg =>
        have hinner : ∃ args ctx₂, parseArgs (ctx₁.str.length + 1) ctx₁ [] = some (args, ctx₂) ∧
            Scans ctx₁ ctx₂ := parseArgs_isSome [] (by omega) (Nat.succ_pos _)
        obtain ⟨args, ctx₂, hargs, hscans'⟩ := hinner
        have hstr := (hscans.trans hscans').str_eq
        have hlt := (hlt rfl).trans_le hscans'.pos_le
        simp only [hargs, Option.bind_eq_bind, Option.bind_some]
        exact ih _ (by rw [hstr]; omega) (by omega)

/-- Parsing ends, whatever the source. -/
theorem parse_isSome (source : Bytes) : (parse source).isSome :=
  parseLoop_isSome [] (show source.length < 0 + (source.length + 1) by omega) (Nat.succ_pos _)

end Ambry.Aci
