import Ambry.Aci.Handlers

/-!
# Lists of names

The handlers that list commands, databases and users format a line for each. Every
line is there, whatever bytes a name consists of, and a user name that contains no
zero byte stands in its line as it is.
-/

namespace Ambry.Aci

open Foundation

variable {σ δ ω : Type} [Store σ] [Database δ ω]

section
variable {α : Type} {t : Fmt.Template} {fmt : String} {args : List Bytes} {body : α → Bytes}

omit [Store σ] in
theorem appendFormat_pieces (hfmt : t.bytes = str fmt) (hargs : args ≠ [])
    (hlen : args.length = t.rest.length) (out : Bytes) :
    appendFormat out fmt args = .ok (out ++ t.fill ((terminateAll 0 args).splitOn 0)) := by
  have hle : t.rest.length ≤ ((terminateAll 0 args).splitOn 0).length := by
    rw [← hlen]
    exact (length_lt_splitOn 0 args).le
  have hformat := Fmt.Template.format_pieces hargs hle [0]
  rw [hfmt] at hformat
  rw [appendFormat, Fmt.literal, hformat]

theorem foldlM_lines {step : Bytes → α → Outcome Bytes} {l : List α}
    (h : ∀ a ∈ l, ∀ out, step out a = .ok (out ++ body a)) (out : Bytes) :
    l.foldlM step out = .ok (out ++ l.flatMap body) := by
  induction l generalizing out with
  | nil =>
    rw [List.flatMap_nil, List.append_nil]
    rfl
  | cons a l ih =>
    obtain ⟨ha, hl⟩ := List.forall_mem_cons.mp h
    rw [List.foldlM_cons, ha out, List.flatMap_cons, ← List.append_assoc]
    exact ih hl (out ++ body a)

end

def userLine : Fmt.Template where
  first := []
  rest := [str "\n"]
  plain := by decide

def databaseLine : Fmt.Template where
  first := []
  rest := [str " - ", str "\n"]
  plain := by decide

def commandLine : Fmt.Template where
  first := str "- "
  rest := [str "(", str "):\n\tDescription: ", str "\n\tUsage: ", [], str "\n"]
  plain := by decide

omit [Store σ] in
theorem appendFormat_user (name out : Bytes) : appendFormat out "\x7b\x7d\n" [name] =
    .ok (out ++ userLine.fill ((terminateAll 0 [name]).splitOn 0)) :=
  appendFormat_pieces (by decide) (List.cons_ne_nil _ _) rfl out

theorem appendFormat_database (name size out : Bytes) :
    appendFormat out "\x7b\x7d - \x7b\x7d\n" [name, size] =
      .ok (out ++ databaseLine.fill ((terminateAll 0 [name, size]).splitOn 0)) :=
  appendFormat_pieces (by decide) (List.cons_ne_nil _ _) rfl out

theorem appendFormat_command (cmd count description usage out : Bytes) :
    appendFormat out
        "- \x7b\x7d(\x7b\x7d):\n\tDescription: \x7b\x7d\n\tUsage: \x7b\x7d\x7b\x7d\n"
        [cmd, count, description, cmd, usage] =
      .ok (out ++ commandLine.fill
        ((terminateAll 0 [cmd, count, description, cmd, usage]).splitOn 0)) :=
  appendFormat_pieces (by decide) (List.cons_ne_nil _ _) rfl out

variable (cmd : Cmd) (fd : Int) (s : Interpreter σ δ ω)

omit [Store σ] [Database δ ω] in
theorem output_of_lines {lines : Outcome Bytes} {out : Bytes} (h : lines = .ok out) :
    (lines >>= fun out => .ok (output out, s)) = .ok (output out, s) := by
  rw [h]
  rfl

omit [Store σ] [Database δ ω] in
theorem cmdsCb_returns : ∃ out, cmdsCb cmd fd s = .ok (output out, s) := by
  have hlines := foldlM_lines (l := s.ct.entries) (fun e _ out =>
    appendFormat_command e.1 (if e.2.arity = -1 then str "..." else decimal e.2.arity)
      e.2.description e.2.usage out) []
  exact ⟨_, output_of_lines s hlines⟩

omit [Store σ] in
theorem listOpenCb_returns : ∃ out, listOpenCb cmd fd s = .ok (output out, s) := by
  have hlines := foldlM_lines (l := s.dbt.entries) (fun e _ out =>
    appendFormat_database (Database.name e.2.db) (decimal (Database.size e.2.db)) out)
    (str "name - size\n")
  exact ⟨_, output_of_lines s hlines⟩

omit [Database δ ω] in
theorem showUsersCb_returns : ∃ out, showUsersCb cmd fd s = .ok (output out, s) := by
  have hlines := foldlM_lines (l := Store.entries s.users) (fun e _ out =>
    appendFormat_user e.1 out) []
  exact ⟨_, output_of_lines s hlines⟩

omit [Database δ ω] in
/-- Users whose names contain no zero byte are listed by their names. -/
theorem showUsersCb_eq (h : ∀ e ∈ Store.entries s.users, 0 ∉ e.1) : showUsersCb cmd fd s =
    .ok (output ((Store.entries s.users).flatMap fun e => e.1 ++ str "\n"), s) := by
  have hline : ∀ e ∈ Store.entries s.users, ∀ out,
      appendFormat out "\x7b\x7d\n" [e.1] = .ok (out ++ (e.1 ++ str "\n")) := by
    intro e he out
    have htexts : ∀ text ∈ [e.1], 0 ∉ text := by
      intro text htext
      rw [List.mem_singleton.mp htext]
      exact h e he
    rw [appendFormat_user, splitOn_terminateAll htexts]
    simp [Fmt.Template.fill, userLine]
  exact output_of_lines s (foldlM_lines hline [])

end Ambry.Aci
