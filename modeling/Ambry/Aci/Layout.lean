import Ambry.Aci.Reader

/-!
# Blanks and newlines

What blank space does behind a command, and what a newline does between two. The
scanner that skips blanks takes a newline for one of them, so a newline ends a
command only directly behind a word, and there the end of the source drops all
commands.
-/

namespace Ambry.Aci

open Foundation Reader

namespace Mode

/-- Not in a quoted word. -/
def outside : Mode → Bool
  | .idle _ | .closed | .bare => true
  | .quoted | .escape | .escaped _ => false

theorem first_cases (c : UInt8) : first c = .quoted ∨ first c = .bare := by
  rw [first]
  split
  · exact .inl rfl
  · exact .inr rfl

theorem first_ne_idle (c : UInt8) (fresh : Bool) : first c ≠ .idle fresh := by
  obtain h | h := first_cases c <;> rw [h] <;> exact Mode.noConfusion

theorem first_ne_closed (c : UInt8) : first c ≠ .closed := by
  obtain h | h := first_cases c <;> rw [h] <;> exact Mode.noConfusion

end Mode

/-- Where a source leaves off. -/
def modeAt (source : Bytes) : Mode := source.foldl Mode.step (.idle true)

/-- Every quoted word is closed. -/
def Closed (source : Bytes) : Prop := (modeAt source).outside

instance Closed.decidable (source : Bytes) : Decidable (Closed source) :=
  inferInstanceAs (Decidable (_ = true))

/-- The last word ends with an escaped quote. At the end of a source, and only there, the scanner
takes the backslash for itself and the quote for the closing one. -/
def ClosedAtEnd (source : Bytes) : Prop := modeAt source = .escaped quote

namespace Reader

theorem read_mode (source : Bytes) : (read source).mode = modeAt source := foldl_mode source {}

theorem read_append (s t : Bytes) : read (s ++ t) = t.foldl step (read s) := List.foldl_append

theorem finish_eq {r : Reader} (h : r.mode ≠ .idle true) : r.finish = r.cmds ++ commandOf r.flush := by
  rw [finish]
  split
  · rename_i hmode
    exact absurd hmode h
  · rfl

theorem finish_idle {r : Reader} (h : r.mode = .idle true) : r.finish = [] := by
  rw [finish, h]

/-- Behind a word there is one. -/
def Filled (r : Reader) : Prop := r.mode = .idle false ∨ r.mode = .closed → r.words ≠ []

theorem filled_of_words {r : Reader} (h : r.words ≠ []) : r.Filled := fun _ => h

theorem filled_of_mode {r : Reader} (hidle : r.mode ≠ .idle false) (hclosed : r.mode ≠ .closed) :
    r.Filled := by
  rintro (h | h)
  · exact absurd h hidle
  · exact absurd h hclosed

theorem filled_close (r : Reader) (m : Mode) : Filled { r.close with mode := m } :=
  filled_of_words (List.concat_ne_nil _ _)

theorem filled_inside (r : Reader) (c : UInt8) : (r.inside c).Filled := by
  rw [inside, Mode.inside]
  split
  · exact filled_close r .closed
  split
  · exact filled_of_mode Mode.noConfusion Mode.noConfusion
  · exact filled_of_mode Mode.noConfusion Mode.noConfusion

theorem Filled.step {r : Reader} (h : r.Filled) (c : UInt8) : (r.step c).Filled := by
  rw [Reader.step]
  cases hmode : r.mode with
  | idle fresh =>
    dsimp only
    split
    · exact h
    · exact filled_of_mode (Mode.first_ne_idle c false) (Mode.first_ne_closed c)
  | closed =>
    have hwords := h (.inr hmode)
    dsimp only
    split
    · exact filled_of_words hwords
    · exact filled_of_words hwords
  | bare =>
    dsimp only
    split
    · exact filled_close r _
    · refine filled_of_mode ?_ ?_ <;> rw [push, hmode] <;> exact Mode.noConfusion
  | quoted => exact filled_inside r c
  | escape => exact filled_of_mode Mode.noConfusion Mode.noConfusion
  | escaped raw => exact filled_inside _ c

theorem filled_read (source : Bytes) : (read source).Filled := by
  have hfoldl : ∀ (s : Bytes) (r : Reader), r.Filled → (s.foldl Reader.step r).Filled := by
    intro s
    induction s with
    | nil => exact fun _ h => h
    | cons c s ih => exact fun r h => ih _ (h.step c)
  have hmode : ({} : Reader).mode ≠ .idle false ∧ ({} : Reader).mode ≠ .closed := by decide
  exact hfoldl source {} (filled_of_mode hmode.1 hmode.2)

theorem flush_ne_nil {r : Reader} (h : r.Filled) (hmode : r.mode ≠ .idle true) : r.flush ≠ [] := by
  rw [flush]
  split
  · rename_i fresh hidle
    cases fresh with
    | true => exact absurd hidle hmode
    | false => exact h (.inl hidle)
  · rename_i hclosed
    exact h (.inr hclosed)
  all_goals exact List.concat_ne_nil _ _

theorem commandOf_length {words : List Bytes} (h : words ≠ []) : (commandOf words).length = 1 := by
  obtain ⟨cmd, args, rfl⟩ := List.exists_cons_of_ne_nil h
  rfl

theorem finish_length {r : Reader} (h : r.Filled) (hmode : r.mode ≠ .idle true) :
    r.finish.length = r.cmds.length + 1 := by
  rw [finish_eq hmode, List.length_append, commandOf_length (flush_ne_nil h hmode)]

theorem finish_eq_nil {r : Reader} (h : r.Filled) : r.finish = [] ↔ r.mode = .idle true := by
  constructor
  · intro hnil
    by_contra hmode
    have hlength := finish_length h hmode
    rw [hnil] at hlength
    exact absurd hlength (Nat.succ_ne_zero _).symm
  · exact finish_idle

/-! ### Blanks at the end -/

theorem foldl_blank_idle {w : Bytes} (hw : ∀ c ∈ w, unimportant c) {r : Reader} {fresh : Bool}
    (hmode : r.mode = .idle fresh) : w.foldl Reader.step r = r := by
  induction w with
  | nil => rfl
  | cons c w ih =>
    obtain ⟨hc, hw⟩ := List.forall_mem_cons.mp hw
    have hstep : r.step c = r := by
      rw [Reader.step, hmode]
      exact if_pos hc
    rw [List.foldl_cons, hstep, ih hw]

theorem step_blank_word {r : Reader} (hmode : r.mode = .closed ∨ r.mode = .bare) {c : UInt8}
    (hc : unimportant c) : (r.step c).cmds = r.cmds ∧ (r.step c).words = r.flush ∧
      (r.step c).mode = .idle (c = newline) := by
  rw [Reader.step, flush]
  obtain hmode | hmode := hmode
  · simp only [hmode, hc, if_true, and_self]
  · simp only [hmode, hc, if_true, close, and_self]

theorem foldl_blank_word {w : Bytes} (hw : ∀ c ∈ w, unimportant c) {r : Reader}
    (hmode : r.mode = .closed ∨ r.mode = .bare) :
    (w.foldl Reader.step r).finish = if w.head? = some newline then [] else r.finish := by
  cases w with
  | nil => rfl
  | cons c w =>
    obtain ⟨hc, hw⟩ := List.forall_mem_cons.mp hw
    obtain ⟨hcmds, hwords, hidle⟩ := step_blank_word hmode hc
    rw [List.foldl_cons, foldl_blank_idle hw hidle, List.head?_cons]
    rcases eq_or_ne c newline with rfl | hnewline
    · rw [if_pos rfl]
      exact finish_idle hidle
    · have hflush : (r.step c).flush = r.flush := by
        rw [flush, hidle]
        exact hwords
      have hfresh : (r.step c).mode ≠ .idle true := by
        rw [hidle, decide_eq_false hnewline]
        exact fun h => Bool.false_ne_true (Mode.idle.inj h)
      have hword : r.mode ≠ .idle true := by
        obtain hmode | hmode := hmode <;> rw [hmode] <;> exact Mode.noConfusion
      rw [if_neg fun h => hnewline (Option.some.inj h), finish_eq hfresh, finish_eq hword, hcmds, hflush]

end Reader

theorem Mode.step_idle_iff {m : Mode} {c : UInt8} (h : (m.step c).outside) :
    (∃ fresh, m.step c = .idle fresh) ↔ unimportant c := by
  have hinside : (inside c).outside → ((∃ fresh, inside c = .idle fresh) ↔ unimportant c) := by
    rw [inside]
    split
    case isTrue hquote =>
      subst hquote
      refine fun _ => iff_of_false ?_ (by decide)
      rintro ⟨fresh, h⟩
      cases h
    split
    · exact fun h => by cases h
    · exact fun h => by cases h
  cases m with
  | idle | closed =>
    rw [step]
    split
    case isTrue hc => exact iff_of_true ⟨_, rfl⟩ hc
    case isFalse hc =>
      refine iff_of_false ?_ hc
      rintro ⟨fresh, h⟩
      exact first_ne_idle c fresh h
  | bare =>
    rw [step]
    split
    case isTrue hc => exact iff_of_true ⟨_, rfl⟩ hc
    case isFalse hc =>
      refine iff_of_false ?_ hc
      rintro ⟨fresh, h⟩
      cases h
  | quoted | escaped => exact hinside h
  | escape => cases h

theorem idle_iff {s : Bytes} (hs : Closed s) :
    (∃ fresh, modeAt s = .idle fresh) ↔ ∀ c ∈ s.getLast?, unimportant c := by
  obtain rfl | ⟨s, c, rfl⟩ := List.eq_nil_or_concat' s
  · exact iff_of_true ⟨true, rfl⟩ fun c hc => by cases hc
  · have hmode : modeAt (s ++ [c]) = (modeAt s).step c := List.foldl_append
    rw [Closed, hmode] at hs
    rw [hmode, Mode.step_idle_iff hs, List.getLast?_append]
    simp

/-! ### A quote that turns out to be escaped -/

namespace Reader

theorem words_prefix_flush (r : Reader) : r.words <+: r.flush := by
  rw [flush]
  split
  · exact List.prefix_rfl
  · exact List.prefix_rfl
  all_goals exact List.prefix_append _ _

/-- A command is complete only with the first byte of the next one. -/
theorem step_cases (r : Reader) (c : UInt8) :
    ((r.step c).cmds = r.cmds ∧ r.words <+: (r.step c).words) ∨
      (r.mode = .idle true ∧ (r.step c).cmds = r.output) := by
  have hinside : ∀ r : Reader, (r.inside c).cmds = r.cmds ∧ r.words <+: (r.inside c).words := by
    intro r
    rw [inside]
    split
    · exact ⟨rfl, List.prefix_append _ _⟩
    split
    · exact ⟨rfl, List.prefix_rfl⟩
    · exact ⟨rfl, List.prefix_rfl⟩
  rw [Reader.step]
  cases hmode : r.mode with
  | idle fresh =>
    dsimp only
    split
    · exact .inl ⟨rfl, List.prefix_rfl⟩
    · cases fresh with
      | true => exact .inr ⟨rfl, rfl⟩
      | false => exact .inl ⟨rfl, List.prefix_rfl⟩
  | closed =>
    dsimp only
    split <;> exact .inl ⟨rfl, List.prefix_rfl⟩
  | bare =>
    dsimp only
    split
    · exact .inl ⟨rfl, List.prefix_append _ _⟩
    · exact .inl ⟨rfl, List.prefix_rfl⟩
  | quoted => exact .inl (hinside r)
  | escape => exact .inl ⟨rfl, List.prefix_rfl⟩
  | escaped raw => exact .inl (hinside _)

/-- From a state `r₀` behind an escaped quote, the quote has become a byte of the word. -/
def Overrun (r₀ r : Reader) : Prop :=
  (∃ x more tail,
    r.cmds = r₀.cmds ++ commandOf (r₀.words ++ (r₀.word ++ quote :: x) :: more) ++ tail) ∨
  r.cmds = r₀.cmds ∧
    ((∃ x more, r.words = r₀.words ++ (r₀.word ++ quote :: x) :: more) ∨
      r.words = r₀.words ∧ (∃ x, r.word = r₀.word ++ quote :: x) ∧ ¬ r.mode.outside)

theorem overrun_inside {r₀ : Reader} (r : Reader) (hcmds : r.cmds = r₀.cmds) (hwords : r.words = r₀.words)
    (hword : ∃ x, r.word = r₀.word ++ quote :: x) (c : UInt8) : Overrun r₀ (r.inside c) := by
  obtain ⟨x, hword⟩ := hword
  rw [inside, Mode.inside]
  split
  · refine .inr ⟨hcmds, .inl ⟨x, [], ?_⟩⟩
    rw [close, hwords, hword]
  split
  · exact .inr ⟨hcmds, .inr ⟨hwords, ⟨x, hword⟩, Bool.false_ne_true⟩⟩
  · refine .inr ⟨hcmds, .inr ⟨hwords, ⟨x ++ [c], ?_⟩, Bool.false_ne_true⟩⟩
    rw [push, hword, List.append_assoc, List.cons_append]

theorem Overrun.step {r₀ r : Reader} (h : Overrun r₀ r) (c : UInt8) : Overrun r₀ (r.step c) := by
  obtain ⟨x, more, tail, hcmds⟩ | ⟨hcmds, ⟨x, more, hwords⟩ | ⟨hwords, ⟨x, hword⟩, hmode⟩⟩ := h
  · obtain ⟨hsame, _⟩ | ⟨_, hmore⟩ := step_cases r c
    · exact .inl ⟨x, more, tail, hsame.trans hcmds⟩
    · refine .inl ⟨x, more, tail ++ commandOf r.words, ?_⟩
      rw [hmore, output, hcmds, List.append_assoc]
  · obtain ⟨hsame, more', hmore⟩ | ⟨_, hsettled⟩ := step_cases r c
    · refine .inr ⟨hsame.trans hcmds, .inl ⟨x, more ++ more', ?_⟩⟩
      rw [← hmore, hwords, List.append_assoc, List.cons_append]
    · refine .inl ⟨x, more, [], ?_⟩
      rw [hsettled, output, hcmds, hwords, List.append_nil]
  · rw [Reader.step]
    cases hcase : r.mode with
    | idle | closed | bare =>
      rw [hcase] at hmode
      exact absurd rfl hmode
    | quoted => exact overrun_inside r hcmds hwords ⟨x, hword⟩ c
    | escape => exact .inr ⟨hcmds, .inr ⟨hwords, ⟨x, hword⟩, Bool.false_ne_true⟩⟩
    | escaped raw =>
      refine overrun_inside (r.push (escape raw)) hcmds hwords ⟨x ++ [escape raw], ?_⟩ c
      rw [push, hword, List.append_assoc, List.cons_append]

theorem Overrun.finish {r₀ r : Reader} (h : Overrun r₀ r) : r.finish = [] ∨
    ∃ x more tail,
      r.finish = r₀.cmds ++ commandOf (r₀.words ++ (r₀.word ++ quote :: x) :: more) ++ tail := by
  by_cases hidle : r.mode = .idle true
  · exact .inl (finish_idle hidle)
  right
  rw [finish_eq hidle]
  obtain ⟨x, more, tail, hcmds⟩ | ⟨hcmds, ⟨x, more, hwords⟩ | ⟨hwords, ⟨x, hword⟩, hmode⟩⟩ := h
  · refine ⟨x, more, tail ++ commandOf r.flush, ?_⟩
    rw [hcmds, List.append_assoc]
  · obtain ⟨more', hflush⟩ := words_prefix_flush r
    refine ⟨x, more ++ more', [], ?_⟩
    rw [hcmds, ← hflush, hwords, List.append_nil, List.append_assoc, List.cons_append]
  · have hflush : ∃ y, r.flush = r₀.words ++ [r₀.word ++ quote :: y] := by
      rw [flush]
      cases hcase : r.mode with
      | idle | closed | bare =>
        rw [hcase] at hmode
        exact absurd rfl hmode
      | quoted => exact ⟨x, by rw [hwords, hword]⟩
      | escape => exact ⟨x ++ [backslash], by rw [hwords, hword, List.append_assoc, List.cons_append]⟩
      | escaped raw =>
        refine ⟨x ++ backslash :: if raw = quote then [] else [raw], ?_⟩
        dsimp only
        rw [hwords, hword, List.append_assoc, List.cons_append]
    obtain ⟨y, hflush⟩ := hflush
    exact ⟨y, [], [], by rw [hcmds, hflush, List.append_nil]⟩

theorem commandOf_append_inj {words words' : List Bytes} {tail tail' : List Cmd} (h : words ≠ [])
    (h' : words' ≠ []) (heq : commandOf words ++ tail = commandOf words' ++ tail') :
    words = words' := by
  obtain ⟨cmd, args, rfl⟩ := List.exists_cons_of_ne_nil h
  obtain ⟨cmd', args', rfl⟩ := List.exists_cons_of_ne_nil h'
  cases (List.cons.inj heq).1
  rfl

/-- What is read behind it is no longer the last word. -/
theorem finish_overrun {r : Reader} (hmode : r.mode = .escaped quote) {s : Bytes} (hs : s ≠ [])
    (tail : List Cmd) : (s.foldl Reader.step r).finish ≠ r.finish ++ tail := by
  have hflush : r.flush = r.words ++ [r.word ++ [backslash]] := by
    rw [flush, hmode]
    rfl
  have hfinish : r.finish = r.cmds ++ commandOf (r.words ++ [r.word ++ [backslash]]) := by
    rw [finish_eq (by rw [hmode]; exact Mode.noConfusion), hflush]
  obtain ⟨c, s, rfl⟩ := List.exists_cons_of_ne_nil hs
  have hoverrun : ∀ (s : Bytes) (r' : Reader), Overrun r r' → Overrun r (s.foldl Reader.step r') := by
    intro s
    induction s with
    | nil => exact fun _ h => h
    | cons d s ih => exact fun _ h => ih _ (h.step d)
  have hfirst : Overrun r (r.step c) := by
    rw [Reader.step, hmode]
    exact @overrun_inside r (r.push (escape quote)) rfl rfl ⟨[], rfl⟩ c
  rw [List.foldl_cons, hfinish]
  intro heq
  obtain hnil | ⟨x, more, tail', hcons⟩ := (hoverrun s _ hfirst).finish
  · have hone := commandOf_length (List.concat_ne_nil (r.word ++ [backslash]) r.words)
    have hlength := congrArg List.length (hnil.symm.trans heq)
    rw [List.length_append, List.length_append, hone, List.length_nil] at hlength
    omega
  · rw [hcons, List.append_assoc, List.append_assoc] at heq
    have hwords := commandOf_append_inj (by simp) (by simp) (List.append_cancel_left heq)
    have hword := (List.cons.inj (List.append_cancel_left hwords)).1
    have hquote := (List.cons.inj (List.append_cancel_left hword)).1
    exact absurd hquote (by decide)

end Reader

/-! ### The end of a source -/

theorem Mode.outside_cases {m : Mode} (h : m.outside) :
    (∃ fresh, m = .idle fresh) ∨ m = .closed ∨ m = .bare := by
  cases m with
  | idle fresh => exact .inl ⟨fresh, rfl⟩
  | closed => exact .inr (.inl rfl)
  | bare => exact .inr (.inr rfl)
  | quoted | escape | escaped => cases h

section
variable {s w : Bytes}

theorem parse_eq_iff {s t : Bytes} : parse s = parse t ↔ (read s).finish = (read t).finish := by
  rw [parse_eq_read, parse_eq_read, Option.some.injEq]

/-- A source that ends with a word. -/
theorem finish_word (hs : Closed s) (hlast : ¬ ∀ c ∈ s.getLast?, unimportant c)
    (hw : ∀ c ∈ w, unimportant c) : (read s).finish ≠ [] ∧
      (read (s ++ w)).finish = if w.head? = some newline then [] else (read s).finish := by
  have hidle : ¬ ∃ fresh, modeAt s = .idle fresh := (idle_iff hs).not.mpr hlast
  have hmode := (Mode.outside_cases hs).resolve_left hidle
  rw [← read_mode] at hidle hmode
  constructor
  · rw [Ne, finish_eq_nil (filled_read s)]
    exact fun h => hidle ⟨true, h⟩
  · rw [read_append, foldl_blank_word hw hmode]

/-- Blanks behind a source are ignored, except for a newline directly behind a word: there the end
of the source drops all commands. -/
theorem parse_trailing (hw : ∀ c ∈ w, unimportant c) :
    (Closed s → (parse (s ++ w) = parse s ↔
      (∀ c ∈ s.getLast?, unimportant c) ∨ w.head? ≠ some newline)) ∧
    (Closed s → (¬ ∀ c ∈ s.getLast?, unimportant c) →
      parse s ≠ some [] ∧ (parse (s ++ w) = some [] ↔ w.head? = some newline)) ∧
    (ClosedAtEnd s → (parse (s ++ w) = parse s ↔ w = [])) := by
  refine ⟨fun hs => ?_, fun hs hlast => ?_, fun hs => ?_⟩
  · rw [parse_eq_iff]
    by_cases hlast : ∀ c ∈ s.getLast?, unimportant c
    · obtain ⟨fresh, hidle⟩ := (idle_iff hs).mpr hlast
      rw [← read_mode] at hidle
      rw [read_append, foldl_blank_idle hw hidle]
      exact iff_of_true rfl (.inl hlast)
    · obtain ⟨hne, hfinish⟩ := finish_word hs hlast hw
      rw [hfinish, or_iff_right hlast]
      split
      case isTrue hnewline => exact iff_of_false hne.symm (not_not_intro hnewline)
      case isFalse hnewline => exact iff_of_true rfl hnewline
  · obtain ⟨hne, hfinish⟩ := finish_word hs hlast hw
    rw [parse_eq_read, parse_eq_read, hfinish, Ne, Option.some.injEq, Option.some.injEq]
    refine ⟨hne, ?_⟩
    split
    case isTrue hnewline => exact iff_of_true rfl hnewline
    case isFalse hnewline => exact iff_of_false hne hnewline
  · rw [parse_eq_iff, read_append]
    constructor
    · intro heq
      by_contra hne
      have hmode : (read s).mode = .escaped quote := (read_mode s).trans hs
      exact finish_overrun hmode hne [] (heq.trans (List.append_nil _).symm)
    · rintro rfl
      rfl

end

/-- A quoted word with a newline, and blanks behind it. -/
theorem parse_trailing_quoted :
    parse (str "get \"k\n\"" ++ str "\t\n") = parse (str "get \"k\n\"") :=
  ((parse_trailing (by decide +kernel)).1 (by decide +kernel)).mpr (.inr (by decide +kernel))

/-- A command and its newline: the command is dropped. -/
theorem parse_trailing_newline : Closed (str "get k") ∧
    parse (str "get k") = some [⟨str "get", [str "k"]⟩] ∧
    parse (str "get k" ++ [newline]) = some [] := by
  decide +kernel

/-! ### Two lines -/

theorem Mode.step_ne_idle {m : Mode} {c : UInt8} (hm : m ≠ .idle true)
    (hc : c = newline → ¬ m.outside) : m.step c ≠ .idle true := by
  have hinside : inside c ≠ .idle true := by
    rw [inside]
    split
    · exact Mode.noConfusion
    split <;> exact Mode.noConfusion
  have hblank : m.outside → Mode.idle (c = newline) ≠ .idle true := by
    intro houtside h
    exact hc (of_decide_eq_true (Mode.idle.inj h)) houtside
  cases m with
  | idle fresh =>
    rw [step]
    split
    · exact hm
    · exact first_ne_idle c true
  | closed =>
    rw [step]
    split
    · exact hblank rfl
    · exact first_ne_idle c true
  | bare =>
    rw [step]
    split
    · exact hblank rfl
    · exact Mode.noConfusion
  | quoted | escaped => exact hinside
  | escape => exact Mode.noConfusion

namespace Reader

theorem step_cmds {r : Reader} (hmode : r.mode ≠ .idle true) (c : UInt8) :
    (r.step c).cmds = r.cmds := by
  obtain ⟨hcmds, _⟩ | ⟨hidle, _⟩ := step_cases r c
  · exact hcmds
  · exact absurd hidle hmode

/-- Without a newline between words no command is complete. -/
theorem foldl_unsettled {s : Bytes} {r : Reader} (hmode : r.mode ≠ .idle true)
    (hs : ∀ pre post, s = pre ++ newline :: post → ¬ (pre.foldl Mode.step r.mode).outside) :
    (s.foldl Reader.step r).cmds = r.cmds ∧ (s.foldl Reader.step r).mode ≠ .idle true := by
  induction s generalizing r with
  | nil => exact ⟨rfl, hmode⟩
  | cons c s ih =>
    have hnext : (r.step c).mode ≠ .idle true := by
      rw [step_mode]
      apply Mode.step_ne_idle hmode
      rintro rfl
      exact hs [] s rfl
    obtain ⟨hcmds, hlast⟩ := @ih (r.step c) hnext fun pre post h => by
      rw [step_mode]
      exact hs (c :: pre) post (by rw [h]; rfl)
    exact ⟨hcmds.trans (step_cmds hmode c), hlast⟩

def prepend (cmds : List Cmd) (r : Reader) : Reader := { r with cmds := cmds ++ r.cmds }

theorem prepend_step (cmds : List Cmd) (r : Reader) (c : UInt8) :
    (prepend cmds r).step c = prepend cmds (r.step c) := by
  have hinside : ∀ r : Reader, (prepend cmds r).inside c = prepend cmds (r.inside c) := by
    intro r
    rw [inside, inside]
    split
    · rfl
    split <;> rfl
  rw [Reader.step, Reader.step]
  have hmode : (prepend cmds r).mode = r.mode := rfl
  rw [hmode]
  cases r.mode with
  | idle fresh =>
    dsimp only
    split
    · rfl
    · cases fresh with
      | true => simp only [if_true, settle, begin, prepend, output, List.append_assoc]
      | false => rfl
  | closed | bare =>
    dsimp only
    split <;> rfl
  | quoted => exact hinside r
  | escape => rfl
  | escaped raw => exact hinside (r.push (escape raw))

theorem prepend_foldl (cmds : List Cmd) (r : Reader) (s : Bytes) :
    s.foldl Reader.step (prepend cmds r) = prepend cmds (s.foldl Reader.step r) := by
  induction s generalizing r with
  | nil => rfl
  | cons c s ih => rw [List.foldl_cons, List.foldl_cons, prepend_step, ih]

theorem prepend_finish (cmds : List Cmd) {r : Reader} (hmode : r.mode ≠ .idle true) :
    (prepend cmds r).finish = cmds ++ r.finish := by
  have hsame : (prepend cmds r).mode ≠ .idle true := hmode
  rw [finish_eq hsame, finish_eq hmode, prepend, List.append_assoc]
  rfl

end Reader

/-- The source has a word, and no newline but in quoted words. -/
structure Line (s : Bytes) : Prop where
  word : ∃ c ∈ s, ¬ unimportant c
  single : ∀ pre post, s = pre ++ newline :: post → ¬ (modeAt pre).outside

theorem single_iff {s : Bytes} :
    (∀ pre post, s = pre ++ newline :: post → ¬ (modeAt pre).outside) ↔
      ∀ n < s.length, s[n]? = some newline → ¬ (modeAt (s.take n)).outside := by
  constructor
  · intro h n _ hn
    obtain ⟨hlt, hget⟩ := List.getElem?_eq_some_iff.mp hn
    apply h (s.take n) (s.drop (n + 1))
    rw [← hget, List.cons_getElem_drop_succ, List.take_append_drop]
  · rintro h pre post rfl
    have hlt : pre.length < (pre ++ newline :: post).length := by
      rw [List.length_append, List.length_cons]
      omega
    have hn := h pre.length hlt (by rw [List.getElem?_append_right le_rfl, Nat.sub_self]; rfl)
    rw [List.take_left] at hn
    exact hn

instance Line.decidable (s : Bytes) : Decidable (Line s) :=
  decidable_of_iff ((∃ c ∈ s, ¬ unimportant c) ∧
      ∀ n < s.length, s[n]? = some newline → ¬ (modeAt (s.take n)).outside)
    ⟨fun h => ⟨h.1, single_iff.mpr h.2⟩, fun h => ⟨h.word, single_iff.mp h.single⟩⟩

section
variable {s s₁ s₂ : Bytes}

theorem Line.split (h : Line s) : ∃ blanks c tail, s = blanks ++ c :: tail ∧
    (∀ b ∈ blanks, unimportant b) ∧ ¬ unimportant c ∧
    ∀ pre post, tail = pre ++ newline :: post → ¬ (pre.foldl Mode.step (.first c)).outside := by
  have hsplit : s.takeWhile unimportant ++ s.dropWhile unimportant = s :=
    List.takeWhile_append_dropWhile
  have hblanks : ∀ b ∈ s.takeWhile unimportant, unimportant b := fun b hb =>
    List.all_eq_true.mp List.all_takeWhile b hb
  cases hword : s.dropWhile unimportant with
  | nil =>
    obtain ⟨c, hmem, hc⟩ := h.word
    rw [hword, List.append_nil] at hsplit
    rw [hsplit] at hblanks
    exact absurd (hblanks c hmem) hc
  | cons c tail =>
    have hc := unimportant_dropWhile hword
    rw [hword] at hsplit
    refine ⟨_, c, tail, hsplit.symm, hblanks, by rw [hc]; decide, ?_⟩
    rintro pre post rfl
    have hmode : modeAt (s.takeWhile unimportant ++ c :: pre) = pre.foldl Mode.step (.first c) := by
      have hidle := foldl_mode (s.takeWhile unimportant) {}
      rw [foldl_blank_idle hblanks rfl] at hidle
      have hfirst : Mode.step (.idle true) c = .first c := if_neg (by rw [hc]; decide)
      rw [modeAt, List.foldl_append, ← hidle, List.foldl_cons, hfirst]
    rw [← hmode]
    apply h.single _ post
    rw [List.append_assoc, List.cons_append]
    exact hsplit.symm

theorem foldl_line {blanks tail : Bytes} {c : UInt8} (hblanks : ∀ b ∈ blanks, unimportant b)
    (hc : ¬ unimportant c) {r : Reader} {fresh : Bool} (hmode : r.mode = .idle fresh) :
    (blanks ++ c :: tail).foldl step r = tail.foldl step ((if fresh then r.settle else r).begin c) := by
  have hstep : r.step c = (if fresh then r.settle else r).begin c := by
    rw [step, hmode]
    exact if_neg hc
  rw [List.foldl_append, foldl_blank_idle hblanks hmode, List.foldl_cons, hstep]

theorem Line.read (h : Line s) : (read s).cmds = [] ∧ (read s).mode ≠ .idle true := by
  obtain ⟨blanks, c, tail, rfl, hblanks, hc, hsingle⟩ := h.split
  rw [Reader.read, foldl_line hblanks hc rfl]
  exact foldl_unsettled (Mode.first_ne_idle c true) hsingle

/-- At the beginning of a line the words are read as those of a new command. -/
theorem Line.after_newline (h : Line s) {r : Reader} (hmode : r.mode = .idle true) :
    s.foldl step r = prepend r.output (Reader.read s) := by
  obtain ⟨blanks, c, tail, rfl, hblanks, hc, _⟩ := h.split
  have hbegin : r.settle.begin c = prepend r.output (({} : Reader).settle.begin c) :=
    congrArg (Reader.mk · [] _ _) (List.append_nil r.output).symm
  rw [Reader.read, foldl_line hblanks hc hmode, foldl_line hblanks hc rfl, if_pos rfl, if_pos rfl,
    hbegin, prepend_foldl]

/-- Behind a blank they are read as arguments. -/
theorem Line.after_blank (h : Line s) {r : Reader} (hmode : r.mode = .idle false) :
    (s.foldl step r).cmds = r.cmds ∧ (s.foldl step r).mode ≠ .idle true := by
  obtain ⟨blanks, c, tail, rfl, hblanks, hc, hsingle⟩ := h.split
  rw [foldl_line hblanks hc hmode]
  exact foldl_unsettled (Mode.first_ne_idle c true) hsingle

theorem read_word_newline (h₂ : Line s₂) (hmode : (read s₁).mode = .closed ∨ (read s₁).mode = .bare) :
    (read (s₁ ++ newline :: s₂)).finish = (read s₁).finish ++ (read s₂).finish := by
  obtain ⟨hcmds, hwords, hidle⟩ := step_blank_word hmode (show unimportant newline from rfl)
  have houtput : ((read s₁).step newline).output = (read s₁).finish := by
    have hword : (read s₁).mode ≠ .idle true := by
      obtain hmode | hmode := hmode <;> rw [hmode] <;> exact Mode.noConfusion
    rw [Reader.output, hcmds, hwords, finish_eq hword]
  rw [read_append, List.foldl_cons, h₂.after_newline hidle, prepend_finish _ h₂.read.2, houtput]

/-- Two lines are read as one command where blanks precede the newline. -/
theorem read_blank_newline (h₁ : Line s₁) (h₂ : Line s₂) (hmode : (read s₁).mode = .idle false) :
    (read (s₁ ++ newline :: s₂)).finish.length = 1 ∧
      ((read s₁).finish ++ (read s₂).finish).length = 2 := by
  have hone : ∀ {s}, Line s → (Reader.read s).finish.length = 1 := by
    intro s h
    rw [finish_length (filled_read s) h.read.2, h.read.1, List.length_nil]
  have hstep : (read s₁).step newline = read s₁ := by
    rw [step, hmode]
    rfl
  have hjoined : read (s₁ ++ newline :: s₂) = s₂.foldl step (read s₁) := by
    rw [read_append, List.foldl_cons, hstep]
  obtain ⟨hcmds, hlast⟩ := h₂.after_blank hmode
  rw [← hjoined] at hcmds hlast
  constructor
  · rw [finish_length (filled_read _) hlast, hcmds, h₁.read.1, List.length_nil]
  · rw [List.length_append, hone h₁, hone h₂]

/-- A newline between two lines separates their commands exactly where it is directly behind a word;
an escaped quote at the end of the first line takes in what follows. -/
theorem parse_newline (h₁ : Line s₁) (h₂ : Line s₂) :
    ∃ cmds₁ cmds₂, parse s₁ = some cmds₁ ∧ parse s₂ = some cmds₂ ∧
      (Closed s₁ → (parse (s₁ ++ newline :: s₂) = some (cmds₁ ++ cmds₂) ↔
        ¬ ∀ c ∈ s₁.getLast?, unimportant c)) ∧
      (ClosedAtEnd s₁ → parse (s₁ ++ newline :: s₂) ≠ some (cmds₁ ++ cmds₂)) := by
  refine ⟨_, _, parse_eq_read s₁, parse_eq_read s₂, fun hs => ?_, fun hs => ?_⟩
  · rw [parse_eq_read, Option.some.injEq]
    by_cases hlast : ∀ c ∈ s₁.getLast?, unimportant c
    · obtain ⟨fresh, hidle⟩ := (idle_iff hs).mpr hlast
      rw [← read_mode] at hidle
      cases fresh with
      | true => exact absurd hidle h₁.read.2
      | false =>
        obtain ⟨hone, htwo⟩ := read_blank_newline h₁ h₂ hidle
        refine iff_of_false (fun heq => ?_) (not_not_intro hlast)
        rw [heq, htwo] at hone
        cases hone
    · have hmode := (Mode.outside_cases hs).resolve_left ((idle_iff hs).not.mpr hlast)
      rw [← read_mode] at hmode
      exact iff_of_true (read_word_newline h₂ hmode) hlast
  · rw [parse_eq_read, read_append, Ne, Option.some.injEq]
    have hmode : (Reader.read s₁).mode = .escaped quote := (read_mode s₁).trans hs
    exact finish_overrun hmode (List.cons_ne_nil newline s₂) _

end

/-- The newline of the first line is part of a quoted word, or directly behind one. -/
theorem parse_newline_quoted :
    parse (str "set k \"a\nb\"" ++ newline :: str "\tget k ") =
      some [⟨str "set", [str "k", str "a\nb"]⟩, ⟨str "get", [str "k"]⟩] := by
  obtain ⟨cmds₁, cmds₂, h₁, h₂, hclosed, _⟩ :=
    @parse_newline (str "set k \"a\nb\"") (str "\tget k ") (by decide +kernel) (by decide +kernel)
  have hset : parse (str "set k \"a\nb\"") = some [⟨str "set", [str "k", str "a\nb"]⟩] := by
    decide +kernel
  have hget : parse (str "\tget k ") = some [⟨str "get", [str "k"]⟩] := by decide +kernel
  obtain rfl := Option.some.inj (h₁.symm.trans hset)
  obtain rfl := Option.some.inj (h₂.symm.trans hget)
  exact (hclosed (by decide +kernel)).mpr (by decide +kernel)

/-- With a space before the newline the second command becomes two arguments of the first. -/
theorem parse_newline_space : (Line (str "cmds ") ∧ Closed (str "cmds ")) ∧
    (Line (str "erase k") ∧ Closed (str "erase k")) ∧
    parse (str "cmds ") = some [⟨str "cmds", []⟩] ∧
    parse (str "erase k") = some [⟨str "erase", [str "k"]⟩] ∧
    parse (str "cmds " ++ newline :: str "erase k") =
      some [⟨str "cmds", [str "erase", str "k"]⟩] := by
  decide +kernel

end Ambry.Aci
