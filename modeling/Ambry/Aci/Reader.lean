import Ambry.Aci.Parser

/-!
# Commands byte by byte

A reader that takes a source one byte at a time. Where it stands in the text is a
mode of its own, which does not depend on what was read. It makes of a source
what the scanners make of it.
-/

namespace Ambry.Aci

open Foundation

/-- Between two words, `fresh` where the next one begins a command; behind a closing quote; in a
word; in a quoted word; behind a backslash there; behind the byte that follows it. -/
inductive Mode
  | idle (fresh : Bool)
  | closed
  | bare
  | quoted
  | escape
  | escaped (raw : UInt8)
  deriving DecidableEq, Repr

namespace Mode

def first (c : UInt8) : Mode := if c = quote then .quoted else .bare

def inside (c : UInt8) : Mode :=
  if c = quote then .closed else if c = backslash then .escape else .quoted

def step : Mode → UInt8 → Mode
  | .idle fresh, c => if unimportant c then .idle fresh else first c
  | .closed, c => if unimportant c then .idle (c = newline) else first c
  | .bare, c => if unimportant c then .idle (c = newline) else .bare
  | .quoted, c => inside c
  | .escape, c => .escaped c
  | .escaped _, c => inside c

end Mode

def commandOf : List Bytes → List Cmd
  | [] => []
  | cmd :: args => [⟨cmd, args⟩]

/-- The commands before the one that is being read, its words, and the bytes of the next word. -/
structure Reader where
  cmds : List Cmd := []
  words : List Bytes := []
  word : Bytes := []
  mode : Mode := .idle true

namespace Reader

def output (r : Reader) : List Cmd := r.cmds ++ commandOf r.words

/-- The next word begins a command. -/
def settle (r : Reader) : Reader := { r with cmds := r.output, words := [] }

def begin (r : Reader) (c : UInt8) : Reader :=
  { r with word := if c = quote then [] else [c], mode := .first c }

def push (r : Reader) (c : UInt8) : Reader := { r with word := r.word ++ [c] }

def close (r : Reader) : Reader := { r with words := r.words ++ [r.word], word := [] }

def inside (r : Reader) (c : UInt8) : Reader :=
  { (if c = quote then r.close else if c = backslash then r else r.push c) with mode := .inside c }

def step (r : Reader) (c : UInt8) : Reader :=
  match r.mode with
  | .idle fresh => if unimportant c then r else (if fresh then r.settle else r).begin c
  | .closed => if unimportant c then { r with mode := .idle (c = newline) } else r.begin c
  | .bare => if unimportant c then { r.close with mode := .idle (c = newline) } else r.push c
  | .quoted => r.inside c
  | .escape => { r with mode := .escaped c }
  | .escaped raw => (r.push (escape raw)).inside c

/-- The words at the end of the source. A backslash is an escape only where two bytes follow it. -/
def flush (r : Reader) : List Bytes :=
  match r.mode with
  | .idle _ | .closed => r.words
  | .bare | .quoted => r.words ++ [r.word]
  | .escape => r.words ++ [r.word ++ [backslash]]
  | .escaped raw => r.words ++ [r.word ++ backslash :: if raw = quote then [] else [raw]]

/-- Behind the newline of a command all commands are dropped. -/
def finish (r : Reader) : List Cmd :=
  match r.mode with
  | .idle true => []
  | _ => r.cmds ++ commandOf r.flush

def read (source : Bytes) : Reader := source.foldl step {}

theorem step_mode (r : Reader) (c : UInt8) : (r.step c).mode = r.mode.step c := by
  rw [step]
  cases hmode : r.mode with
  | idle fresh =>
    dsimp only [Mode.step]
    split
    · exact hmode
    · rfl
  | closed | bare =>
    dsimp only [Mode.step]
    split
    · rfl
    · first | rfl | exact hmode
  | quoted | escape | escaped raw => rfl

theorem inside_mode (r : Reader) (m : Mode) (c : UInt8) : inside { r with mode := m } c = r.inside c := by
  rw [inside, inside]
  split
  · rfl
  split
  · rfl
  · rfl

theorem foldl_mode (s : Bytes) (r : Reader) : (s.foldl step r).mode = s.foldl Mode.step r.mode := by
  induction s generalizing r with
  | nil => rfl
  | cons c s ih => rw [List.foldl_cons, List.foldl_cons, ih, step_mode]

variable {cmds : List Cmd} {words : List Bytes} {word : Bytes}

theorem foldl_idle (s : Bytes) (fresh : Bool) :
    s.foldl step ⟨cmds, words, word, .idle fresh⟩ =
      (s.dropWhile unimportant).foldl step ⟨cmds, words, word, .idle fresh⟩ := by
  induction s with
  | nil => rfl
  | cons c s ih =>
    cases hc : unimportant c with
    | false => rw [List.dropWhile_cons_of_neg (by rw [hc]; decide)]
    | true =>
      have hstep : step ⟨cmds, words, word, .idle fresh⟩ c = ⟨cmds, words, word, .idle fresh⟩ :=
        if_pos hc
      rw [List.dropWhile_cons_of_pos hc, List.foldl_cons, hstep, ih]

/-- On the same line the next word is an argument. -/
theorem foldl_closed {s : Bytes} (hs : s.head? ≠ some newline) :
    (s.foldl step ⟨cmds, words, [], .closed⟩).finish =
      ((s.dropWhile unimportant).foldl step ⟨cmds, words, [], .idle false⟩).finish := by
  cases s with
  | nil => rfl
  | cons c s =>
    cases hc : unimportant c with
    | false =>
      have hclosed : step ⟨cmds, words, [], .closed⟩ c = begin ⟨cmds, words, [], .closed⟩ c :=
        if_neg (by rw [hc]; decide)
      have hidle : step ⟨cmds, words, [], .idle false⟩ c = begin ⟨cmds, words, [], .idle false⟩ c :=
        if_neg (by rw [hc]; decide)
      rw [List.dropWhile_cons_of_neg (by rw [hc]; decide), List.foldl_cons, List.foldl_cons, hclosed,
        hidle]
      rfl
    | true =>
      have hnewline : c ≠ newline := fun h => hs (by rw [h]; rfl)
      have hclosed : step ⟨cmds, words, [], .closed⟩ c = ⟨cmds, words, [], .idle false⟩ := by
        apply (if_pos hc).trans
        rw [decide_eq_false hnewline]
      rw [List.dropWhile_cons_of_pos hc, List.foldl_cons, hclosed, foldl_idle]

theorem foldl_bare (s : Bytes) :
    (s.foldl step ⟨cmds, words, word, .bare⟩).finish =
      ((s.dropWhile (!unimportant ·)).foldl step
        ⟨cmds, words ++ [word ++ s.takeWhile (!unimportant ·)], [], .closed⟩).finish := by
  induction s generalizing word with
  | nil =>
    rw [List.takeWhile_nil, List.append_nil]
    rfl
  | cons c s ih =>
    cases hc : unimportant c with
    | false =>
      have hstep : step ⟨cmds, words, word, .bare⟩ c = ⟨cmds, words, word ++ [c], .bare⟩ :=
        if_neg (by rw [hc]; decide)
      rw [List.foldl_cons, hstep, ih, List.dropWhile_cons_of_pos (by rw [hc]; rfl),
        List.takeWhile_cons_of_pos (by rw [hc]; rfl), List.append_assoc, List.singleton_append]
    | true =>
      have hbare : step ⟨cmds, words, word, .bare⟩ c =
          ⟨cmds, words ++ [word], [], .idle (c = newline)⟩ := if_pos hc
      have hclosed : step ⟨cmds, words ++ [word], [], .closed⟩ c =
          ⟨cmds, words ++ [word], [], .idle (c = newline)⟩ := if_pos hc
      rw [List.dropWhile_cons_of_neg (by rw [hc]; decide),
        List.takeWhile_cons_of_neg (by rw [hc]; decide), List.append_nil, List.foldl_cons,
        List.foldl_cons, hbare, hclosed]

end Reader

/-! ### The scanners -/

namespace ParserCtx

/-- The bytes that are left. -/
def rest (ctx : ParserCtx) : Bytes := ctx.str.drop ctx.pos

variable {ctx ctx' : ParserCtx} {c : UInt8} {tail : Bytes}

theorem rest_length (ctx : ParserCtx) : ctx.rest.length = ctx.str.length - ctx.pos := List.length_drop

theorem rest_eq_nil : ctx.rest = [] ↔ ctx.atEnd := by
  rw [rest, List.drop_eq_nil_iff, atEnd_eq_true]

theorem not_atEnd (h : ctx.rest = c :: tail) : ctx.atEnd = false := by
  rw [← Bool.not_eq_true, ← rest_eq_nil, h]
  exact List.cons_ne_nil c tail

theorem getD_rest (h : ctx.rest = c :: tail) : ctx.str.getD ctx.pos 0 = c := by
  have hget : ctx.str[ctx.pos]? = some c := by
    rw [← List.head?_drop]
    exact congrArg List.head? h
  rw [List.getD_eq_getElem?_getD, hget, Option.getD_some]

theorem peek_rest (h : ctx.rest = c :: tail) : ctx.peek = c := by
  rw [peek, not_atEnd h, if_neg Bool.false_ne_true, getD_rest h]

theorem isUnimportant_rest (h : ctx.rest = c :: tail) : ctx.isUnimportant = unimportant c := by
  rw [isUnimportant, getD_rest h]

theorem rest_advance (ctx : ParserCtx) : ctx.advance.rest = ctx.rest.tail := by
  rw [rest, rest, advance, List.tail_drop]

theorem pos_lt_iff (h : ctx.rest = c :: tail) :
    ctx.pos + 2 < ctx.str.length ↔ 2 ≤ tail.length := by
  have hlength := ctx.rest_length
  rw [h, List.length_cons] at hlength
  omega

theorem rest_lt (hscans : Scans ctx ctx') (hlt : ctx.pos < ctx'.pos) (hrest : ctx.rest ≠ []) :
    ctx'.rest.length < ctx.rest.length := by
  have hpos := List.length_pos_of_ne_nil hrest
  have hstr := hscans.str_eq
  rw [rest_length] at hpos ⊢
  rw [rest_length, hstr]
  omega

/-- The context behind the bytes with a property. -/
def past (p : UInt8 → Bool) (ctx : ParserCtx) : ParserCtx :=
  { ctx with pos := ctx.pos + (ctx.rest.takeWhile p).length }

theorem advanceLoop_rest {fn : ParserCtx → Bool} {p : UInt8 → Bool}
    (hfn : ∀ {ctx : ParserCtx} {c tail}, ctx.rest = c :: tail → fn ctx = p c) {turns : Nat}
    (hturns : ctx.rest.length ≤ turns) :
    advanceLoop fn turns ctx = past p ctx := by
  induction turns generalizing ctx with
  | zero =>
    rw [past, List.length_eq_zero_iff.mp (Nat.le_zero.mp hturns)]
    rfl
  | succ turns ih =>
    rw [advanceLoop, past]
    cases hrest : ctx.rest with
    | nil =>
      rw [rest_eq_nil.mp hrest]
      rfl
    | cons c tail =>
      rw [not_atEnd hrest, hfn hrest, Bool.not_false, Bool.true_and]
      cases hc : p c with
      | false =>
        rw [List.takeWhile_cons_of_neg (by rw [hc]; decide)]
        rfl
      | true =>
        have htail : ctx.advance.rest = tail := by rw [rest_advance, hrest, List.tail_cons]
        have hlength : tail.length ≤ turns := by
          rw [hrest, List.length_cons] at hturns
          omega
        rw [if_pos rfl, ih (by rw [htail]; exact hlength), past, htail, List.takeWhile_cons_of_pos hc,
          List.length_cons, advance, Nat.add_assoc, Nat.add_comm 1]

theorem advanceIf_rest {fn : ParserCtx → Bool} {p : UInt8 → Bool}
    (hfn : ∀ {ctx : ParserCtx} {c tail}, ctx.rest = c :: tail → fn ctx = p c) (ctx : ParserCtx) :
    advanceIf fn ctx = ((past p ctx).atEnd, past p ctx) := by
  rw [advanceIf, advanceLoop_rest hfn (Nat.le_of_eq ctx.rest_length)]

theorem rest_past (p : UInt8 → Bool) (ctx : ParserCtx) : (past p ctx).rest = ctx.rest.dropWhile p := by
  have hsplit : ctx.rest.takeWhile p ++ ctx.rest.dropWhile p = ctx.rest :=
    List.takeWhile_append_dropWhile
  have hdrop : (ctx.rest.takeWhile p ++ ctx.rest.dropWhile p).drop (ctx.rest.takeWhile p).length =
      ctx.rest.dropWhile p := List.drop_left
  rw [hsplit] at hdrop
  exact List.drop_drop.symm.trans hdrop

theorem window_past (p : UInt8 → Bool) (ctx : ParserCtx) :
    window (past p ctx).str ctx.pos ((past p ctx).pos - ctx.pos) = ctx.rest.takeWhile p := by
  rw [past, Nat.add_sub_cancel_left]
  exact (List.prefix_iff_eq_take.mp (List.takeWhile_prefix p)).symm

end ParserCtx

open ParserCtx Reader

variable {cmds : List Cmd} {words : List Bytes}

theorem two_bytes {s : Bytes} (h : 2 ≤ s.length) : ∃ a b t, s = a :: b :: t := by
  match s, h with
  | a :: b :: t, _ => exact ⟨a, b, t, rfl⟩

/-- With less than two bytes behind it, a backslash stands for itself. -/
theorem finish_backslash {s : Bytes} (hshort : ¬ 2 ≤ s.length) (word : Bytes) :
    ((backslash :: s).foldl step ⟨cmds, words, word, .quoted⟩).finish =
      (s.foldl step ⟨cmds, words, word ++ [backslash], .quoted⟩).finish := by
  match s, hshort with
  | [], _ => rfl
  | [raw], _ =>
    rcases eq_or_ne raw quote with rfl | hquote
    · rfl
    have hflush : flush ⟨cmds, words, word, .escaped raw⟩ = words ++ [word ++ [backslash] ++ [raw]] := by
      rw [List.append_assoc]
      simp [flush, hquote]
    have hfinish := congrArg (cmds ++ commandOf ·) hflush
    rcases eq_or_ne raw backslash with rfl | hbackslash
    · exact hfinish
    · have hstep : step ⟨cmds, words, word ++ [backslash], .quoted⟩ raw =
          ⟨cmds, words, word ++ [backslash] ++ [raw], .quoted⟩ := by
        change Reader.inside _ raw = _
        simp [Reader.inside, Mode.inside, hquote, hbackslash, push]
      exact hfinish.trans (congrArg finish hstep).symm
  | a :: b :: t, hshort => exact absurd (Nat.le_add_left 2 t.length) hshort

/-- A quoted word goes up to the closing quote, or to the end. -/
theorem quotedLoop_reads {turns : Nat} {ctx : ParserCtx} (hturns : ctx.rest.length ≤ turns)
    (buff : Bytes) :
    (ctx.rest.foldl step ⟨cmds, words, buff, .quoted⟩).finish =
      ((quotedLoop turns ctx buff).2.advance.rest.foldl step
        ⟨cmds, words ++ [(quotedLoop turns ctx buff).1], [], .closed⟩).finish := by
  induction turns generalizing ctx buff with
  | zero =>
    have hnil := List.length_eq_zero_iff.mp (Nat.le_zero.mp hturns)
    rw [quotedLoop, rest_advance, hnil]
    rfl
  | succ turns ih =>
    rw [quotedLoop]
    cases hrest : ctx.rest with
    | nil =>
      rw [rest_eq_nil.mp hrest, Bool.not_true, Bool.false_and, if_neg Bool.false_ne_true, rest_advance,
        hrest]
      rfl
    | cons c tail =>
      have htail : ctx.advance.rest = tail := by rw [rest_advance, hrest, List.tail_cons]
      have hlength : tail.length ≤ turns := by
        rw [hrest, List.length_cons] at hturns
        omega
      rw [not_atEnd hrest, peek_rest hrest]
      rcases eq_or_ne c quote with rfl | hquote
      · have hstop : (!false && decide (quote ≠ quote)) = false := rfl
        rw [hstop, if_neg Bool.false_ne_true, htail]
        rfl
      have hgo : (!false && decide (c ≠ quote)) = true := by simp [hquote]
      rw [hgo, if_pos rfl]
      dsimp only
      split
      case isTrue hescape =>
        obtain ⟨rfl, hroom⟩ := hescape
        rw [pos_lt_iff hrest] at hroom
        obtain ⟨raw, next, more, rfl⟩ := two_bytes hroom
        have hmore : ctx.advance.advance.rest = next :: more := by
          rw [rest_advance, htail, List.tail_cons]
        have hstep : step ⟨cmds, words, buff, .escaped raw⟩ next =
            step ⟨cmds, words, buff ++ [escape raw], .quoted⟩ next :=
          inside_mode ⟨cmds, words, buff ++ [escape raw], .quoted⟩ (.escaped raw) next
        rw [peek_rest htail, ← ih (by rw [hmore]; exact Nat.le_of_succ_le hlength), hmore,
          List.foldl_cons, List.foldl_cons, List.foldl_cons, List.foldl_cons, ← hstep]
        rfl
      case isFalse hliteral =>
        rw [← ih (by rw [htail]; exact hlength), htail]
        rcases eq_or_ne c backslash with rfl | hbackslash
        · have hshort : ¬ 2 ≤ tail.length := fun h => hliteral ⟨rfl, (pos_lt_iff hrest).mpr h⟩
          exact finish_backslash hshort buff
        · have hstep : step ⟨cmds, words, buff, .quoted⟩ c = ⟨cmds, words, buff ++ [c], .quoted⟩ := by
            change Reader.inside _ c = _
            simp [Reader.inside, Mode.inside, hquote, hbackslash, push]
          rw [List.foldl_cons, hstep]

theorem parseArg_blank {ctx : ParserCtx} (h : ctx.rest.dropWhile unimportant = []) :
    parseArg ctx = (none, past unimportant ctx) := by
  rw [← rest_past, rest_eq_nil] at h
  rw [parseArg, advanceIf_rest isUnimportant_rest, h]
  rfl

theorem unimportant_dropWhile {s tail : Bytes} {c : UInt8}
    (h : s.dropWhile unimportant = c :: tail) : unimportant c = false := by
  induction s with
  | nil => cases h
  | cons d s ih =>
    cases hd : unimportant d with
    | true =>
      rw [List.dropWhile_cons_of_pos hd] at h
      exact ih h
    | false =>
      rw [List.dropWhile_cons_of_neg (by rw [hd]; decide)] at h
      obtain ⟨rfl, _⟩ := List.cons.inj h
      exact hd

/-- A word is read from its first byte on. -/
theorem parseArg_reads {ctx : ParserCtx} {c : UInt8} {tail : Bytes}
    (h : ctx.rest.dropWhile unimportant = c :: tail) (m : Mode) :
    ∃ word ctx', parseArg ctx = (some word, ctx') ∧
      (tail.foldl step (begin ⟨cmds, words, [], m⟩ c)).finish =
        (ctx'.rest.foldl step ⟨cmds, words ++ [word], [], .closed⟩).finish := by
  have hc := unimportant_dropWhile h
  have hrest : (past unimportant ctx).rest = c :: tail := (rest_past unimportant ctx).trans h
  have hnewline : c ≠ newline := by
    rintro rfl
    cases hc
  have hstop : (false || decide (c = newline)) = false := by simp [hnewline]
  rw [parseArg, advanceIf_rest isUnimportant_rest, not_atEnd hrest]
  dsimp only
  rw [peek_rest hrest, hstop, if_neg Bool.false_ne_true]
  rcases eq_or_ne c quote with rfl | hquote
  · refine ⟨_, _, rfl, ?_⟩
    have htail : (past unimportant ctx).advance.rest = tail := by
      rw [rest_advance, hrest, List.tail_cons]
    have hloop := @quotedLoop_reads cmds words _ (past unimportant ctx).advance
      (Nat.le_of_eq (rest_length _)) []
    rw [htail] at hloop
    exact hloop
  · have hword : (past unimportant ctx).advanceIf (fun ctx => !ctx.isUnimportant) =
        ((past (!unimportant ·) (past unimportant ctx)).atEnd,
          past (!unimportant ·) (past unimportant ctx)) :=
      advanceIf_rest (fun h => congrArg (!·) (isUnimportant_rest h)) _
    rw [if_neg hquote, hword]
    refine ⟨_, _, rfl, ?_⟩
    have hbegin : begin ⟨cmds, words, [], m⟩ c = ⟨cmds, words, [c], .bare⟩ := by
      simp [begin, Mode.first, hquote]
    rw [hbegin, foldl_bare, rest_past, window_past, hrest,
      List.takeWhile_cons_of_pos (by rw [hc]; rfl), List.dropWhile_cons_of_pos (by rw [hc]; rfl),
      List.singleton_append]

/-- Behind the arguments of a command is the end, or a newline. -/
theorem parseArgs_reads {turns : Nat} {ctx : ParserCtx} (hturns : ctx.rest.length < turns)
    (cmd : Bytes) (args : List Bytes) :
    ∃ args' ctx', parseArgs turns ctx args = some (args', ctx') ∧
      (ctx.rest.foldl step ⟨cmds, cmd :: args, [], .closed⟩).finish =
        (ctx'.rest.foldl step ⟨cmds, cmd :: args', [], .closed⟩).finish ∧
      ctx'.rest.length ≤ ctx.rest.length ∧ (ctx'.rest = [] ∨ ∃ tail, ctx'.rest = newline :: tail) := by
  induction turns generalizing ctx args with
  | zero => cases hturns
  | succ turns ih =>
    rw [parseArgs]
    cases hrest : ctx.rest with
    | nil =>
      rw [rest_eq_nil.mp hrest, Bool.not_true, Bool.false_and, if_neg Bool.false_ne_true]
      exact ⟨args, ctx, rfl, by rw [hrest], by rw [hrest], .inl hrest⟩
    | cons c tail =>
      rw [not_atEnd hrest, peek_rest hrest]
      rcases eq_or_ne c newline with rfl | hnewline
      · have hstop : (!false && decide (newline ≠ newline)) = false := rfl
        rw [hstop, if_neg Bool.false_ne_true]
        exact ⟨args, ctx, rfl, by rw [hrest], by rw [hrest], .inr ⟨tail, hrest⟩⟩
      have hgo : (!false && decide (c ≠ newline)) = true := by simp [hnewline]
      have hhead : (c :: tail).head? ≠ some newline := fun h => hnewline (Option.some.inj h)
      rw [hgo, if_pos rfl, foldl_closed hhead, ← hrest]
      cases hword : ctx.rest.dropWhile unimportant with
      | nil =>
        rw [parseArg_blank hword]
        have hnil : (past unimportant ctx).rest = [] := (rest_past unimportant ctx).trans hword
        exact ⟨args, _, rfl, by rw [hnil]; rfl, by rw [hnil]; exact Nat.zero_le _, .inl hnil⟩
      | cons d more =>
        obtain ⟨word, ctx₁, harg, hreads⟩ := @parseArg_reads cmds (cmd :: args) ctx d more hword
          (.idle false)
        obtain ⟨hscans, hlt⟩ := parseArg_cases harg
        have hless := rest_lt hscans (hlt rfl) (by rw [hrest]; exact List.cons_ne_nil c tail)
        have hturns₁ : ctx₁.rest.length < turns := by omega
        obtain ⟨args', ctx', hargs, hreads', hle, hend⟩ := ih hturns₁ (args ++ [word])
        have hstep : step ⟨cmds, cmd :: args, [], .idle false⟩ d =
            begin ⟨cmds, cmd :: args, [], .idle false⟩ d :=
          if_neg (by rw [unimportant_dropWhile hword]; decide)
        rw [harg, List.foldl_cons, hstep, hreads]
        exact ⟨args', ctx', hargs, hreads', hle.trans hless.le, hend⟩

theorem parseLoop_reads {turns : Nat} {ctx : ParserCtx} (hturns : ctx.rest.length < turns)
    (hsome : ctx.rest ≠ [] ∨ cmds ++ commandOf words = []) :
    parseLoop turns ctx (cmds ++ commandOf words) =
      some (ctx.rest.foldl step ⟨cmds, words, [], .idle true⟩).finish := by
  induction turns generalizing ctx cmds words with
  | zero => cases hturns
  | succ turns ih =>
    rw [parseLoop]
    split
    case isTrue hend =>
      rw [← rest_eq_nil] at hend
      rw [hend, hsome.resolve_left (not_not_intro hend)]
      rfl
    case isFalse hmore =>
      rw [← rest_eq_nil] at hmore
      rw [foldl_idle]
      cases hword : ctx.rest.dropWhile unimportant with
      | nil =>
        rw [parseArg_blank hword]
        rfl
      | cons c tail =>
        obtain ⟨cmd, ctx₁, harg, hreads⟩ := @parseArg_reads (cmds ++ commandOf words) [] ctx c tail
          hword (.idle true)
        obtain ⟨hscans, hlt⟩ := parseArg_cases harg
        have hless := rest_lt hscans (hlt rfl) hmore
        have hinner : ctx₁.rest.length < ctx₁.str.length + 1 := by
          rw [rest_length]
          omega
        obtain ⟨args, ctx₂, hargs, hreads', hle, hend⟩ := @parseArgs_reads (cmds ++ commandOf words)
          _ _ hinner cmd []
        have hstep : step ⟨cmds, words, [], .idle true⟩ c =
            begin ⟨cmds ++ commandOf words, [], [], .idle true⟩ c :=
          if_neg (by rw [unimportant_dropWhile hword]; decide)
        rw [harg, List.foldl_cons, hstep, hreads, List.nil_append, hreads']
        simp only [hargs, Option.bind_eq_bind, Option.bind_some]
        obtain hnil | ⟨more, hcons⟩ := hend
        · obtain ⟨turns, rfl⟩ : ∃ n, turns = n + 1 := ⟨turns - 1, by omega⟩
          rw [parseLoop, rest_eq_nil.mp hnil, hnil]
          rfl
        · have hnext := @ih (cmds ++ commandOf words) (cmd :: args) ctx₂ (by omega)
            (.inl (by rw [hcons]; exact List.cons_ne_nil _ _))
          exact hnext.trans (by rw [hcons]; rfl)

/-- Parsing is reading byte by byte. -/
theorem parse_eq_read (source : Bytes) : parse source = some (read source).finish :=
  @parseLoop_reads [] [] (source.length + 1) { str := source } (Nat.lt_succ_self _) (.inr rfl)

end Ambry.Aci
