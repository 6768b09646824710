import Ambry.Aci.Parser
import Ambry.Shared.Fmt

/-!
# `server/log.hpp`: the log

A line is formatted twice: the message, and the line around it. `time_str` keeps
the zero byte that `strftime` writes behind its 17 characters, which ends a second
text, an empty one; the format of a line has a placeholder for it.
-/

namespace Ambry

open Foundation Aci

/-- The time as `strftime` writes it. -/
structure TimeText where
  text : Bytes
  length_eq : text.length = 17
  noZero : 0 ∉ text

def timeStr (time : TimeText) : Bytes := time.text ++ [0]

/-- `Logger::info`, as the line that it writes. -/
def Logger.info (time : TimeText) (fmt : Fmt.View) (a : List Bytes) : Option Bytes := do
  let message ← Fmt.format fmt a
  Fmt.format (Fmt.literal (str "[INFO]  \x7b\x7d |\x7b\x7d \x7b\x7d\n")) [timeStr time, message]

variable {σ δ ω : Type}

def fromWho (fd : Int) (inter : Interpreter σ δ ω) : Bytes :=
  match inter.logins.lookup fd with
  | none => str "Unknown"
  | some login => login.name

/-- What `command_loop` logs when it has executed a command. -/
def executedLine (time : TimeText) (c : Cmd) (fd : Int) (inter : Interpreter σ δ ω) :
    Option Bytes :=
  Logger.info time (Fmt.literal (str "'\x7b\x7d' executed by \x7b\x7d")) [c.cmd, fromWho fd inter]

/-- The line that names a command and a login. -/
def auditLine (time : TimeText) (cmd name : Bytes) : Bytes :=
  str "[INFO]  " ++ time.text ++ str " | '" ++ cmd ++ str "' executed by " ++ name ++ str "\n"

def lineTemplate : Fmt.Template where
  first := str "[INFO]  "
  rest := [str " |", str " ", str "\n"]
  plain := by decide

def executedTemplate : Fmt.Template where
  first := str "'"
  rest := [str "' executed by ", []]
  plain := by decide

theorem lineTemplate_bytes :
    lineTemplate.bytes = str "[INFO]  \x7b\x7d |\x7b\x7d \x7b\x7d\n" := by decide

theorem executedTemplate_bytes :
    executedTemplate.bytes = str "'\x7b\x7d' executed by \x7b\x7d" := by decide

/-- The pieces of a buffer of two texts: two of its own at least. -/
theorem line_of_message (time : TimeText) {message : Bytes} (hzero : 0 ∉ message) :
    Fmt.format (Fmt.literal (str "[INFO]  \x7b\x7d |\x7b\x7d \x7b\x7d\n")) [timeStr time, message] =
      some (str "[INFO]  " ++ time.text ++ str " | " ++ message ++ str "\n") := by
  have hpieces : (terminateAll 0 [timeStr time, message]).splitOn 0 =
      [time.text, [], message, []] := by
    have hbuffer : terminateAll 0 [timeStr time, message] =
        terminateAll 0 [time.text, [], message] := by
      simp [timeStr]
    rw [hbuffer, splitOn_terminateAll]
    · rfl
    · intro text htext
      simp only [List.mem_cons, List.not_mem_nil, or_false] at htext
      obtain rfl | rfl | rfl := htext
      · exact time.noZero
      · exact List.not_mem_nil
      · exact hzero
  have hle : lineTemplate.rest.length ≤
      ((terminateAll 0 [timeStr time, message]).splitOn 0).length := by
    rw [hpieces]
    exact Nat.le_succ 3
  have hformat := Fmt.Template.format_pieces (List.cons_ne_nil _ _) hle [0]
  rw [hpieces, lineTemplate_bytes] at hformat
  rw [Fmt.literal, hformat]
  simp [Fmt.Template.fill, lineTemplate]
  rfl

variable {time : TimeText} {c : Cmd} {fd : Int} {inter : Interpreter σ δ ω}

/-- The two texts are what stands before the first zero byte of the command and its login, and
what stands behind it. -/
theorem executedLine_eq (time : TimeText) (c : Cmd) (fd : Int) (inter : Interpreter σ δ ω) :
    executedLine time c fd inter = some (str "[INFO]  " ++ time.text ++ str " | " ++
      executedTemplate.fill ((terminateAll 0 [c.cmd, fromWho fd inter]).splitOn 0) ++
        str "\n") := by
  have hle : executedTemplate.rest.length ≤
      ((terminateAll 0 [c.cmd, fromWho fd inter]).splitOn 0).length :=
    (length_lt_splitOn 0 [c.cmd, fromWho fd inter]).le
  have hformat := Fmt.Template.format_pieces (List.cons_ne_nil _ _) hle [0]
  have hzero : 0 ∉ executedTemplate.fill
      ((terminateAll 0 [c.cmd, fromWho fd inter]).splitOn 0) := by
    intro hmem
    obtain ⟨text, htext, hmem⟩ | ⟨piece, hpiece, hmem⟩ := Fmt.Template.mem_fill hmem
    · have hplain : ∀ text ∈ executedTemplate.first :: executedTemplate.rest, 0 ∉ text := by decide
      exact hplain text htext hmem
    · exact not_mem_of_mem_splitOn hpiece hmem
  rw [executedTemplate_bytes] at hformat
  rw [executedLine, Logger.info, Fmt.literal, hformat, Option.bind_eq_bind, Option.bind_some,
    line_of_message time hzero]

theorem auditLine_eq (time : TimeText) (cmd name : Bytes) : auditLine time cmd name =
    str "[INFO]  " ++ time.text ++ str " | " ++ executedTemplate.fill [cmd, name] ++ str "\n" := by
  have hmark : str " | '" = str " | " ++ str "'" := by decide
  simp [auditLine, hmark, Fmt.Template.fill, executedTemplate]

theorem executedLine_eq_iff :
    executedLine time c fd inter = some (auditLine time c.cmd (fromWho fd inter)) ↔
      0 ∉ c.cmd ∧ 0 ∉ fromWho fd inter := by
  have hlen : [c.cmd, fromWho fd inter].length = executedTemplate.rest.length := rfl
  rw [executedLine_eq, auditLine_eq, Option.some_inj, List.append_cancel_right_eq,
    List.append_cancel_left_eq, Fmt.Template.fill_eq_iff hlen]
  simp

/-- With a zero byte in it, the command says who executed it. -/
theorem executedLine_forged {command name more : Bytes} (hcommand : 0 ∉ command)
    (hname : 0 ∉ name) (hcmd : c.cmd = command ++ 0 :: (name ++ 0 :: more)) :
    executedLine time c fd inter = some (auditLine time command name) := by
  have hpieces : ∃ others, (terminateAll 0 [c.cmd, fromWho fd inter]).splitOn 0 =
      command :: name :: others := by
    rw [terminateAll_cons, hcmd]
    simp only [List.append_assoc, List.cons_append]
    rw [List.splitOn_append_cons_self_of_not_mem hcommand,
      List.splitOn_append_cons_self_of_not_mem hname]
    exact ⟨_, rfl⟩
  obtain ⟨others, hpieces⟩ := hpieces
  rw [executedLine_eq, auditLine_eq, hpieces]
  simp [Fmt.Template.fill, executedTemplate]

example : parse (str "get" ++ 0 :: str "root") = some [⟨str "get" ++ 0 :: str "root", []⟩] := by
  decide

/-- Arguments without zero bytes, and only they, come out as they are. -/
theorem format_exact_iff {t : Fmt.Template} {args : List Bytes}
    (hlen : args.length = t.rest.length) (behind : Bytes) :
    (Fmt.format ⟨t.bytes, behind⟩ args = some (t.fill args) ↔
      (args = [] → 0 ∉ t.first ∧ behind.head? = some 0) ∧ ∀ arg ∈ args, 0 ∉ arg) ∧
    ∀ (time : TimeText) (c : Cmd) (fd : Int) (inter : Interpreter σ δ ω),
      executedLine time c fd inter = some (auditLine time c.cmd (fromWho fd inter)) ↔
        0 ∉ c.cmd ∧ 0 ∉ fromWho fd inter :=
  ⟨Fmt.Template.format_eq_fill_iff hlen, fun _ _ _ _ => executedLine_eq_iff⟩

theorem format_exact_get : Fmt.format ⟨executedTemplate.bytes, [0]⟩ [str "get", str "guest"] =
    some (executedTemplate.fill [str "get", str "guest"]) := by
  have hlen : [str "get", str "guest"].length = executedTemplate.rest.length := rfl
  exact (format_exact_iff (σ := Unit) (δ := Unit) (ω := Unit) hlen [0]).1.mpr (by decide)

/-- The command is `get`, a zero byte and `root`, and the login is `guest`. -/
theorem format_not_exact :
    ¬ ((∀ (t : Fmt.Template) (behind : Bytes) (args : List Bytes), args.length = t.rest.length →
        Fmt.format ⟨t.bytes, behind⟩ args = some (t.fill args)) ∧
      ∀ (σ δ ω : Type) (time : TimeText) (c : Cmd) (fd : Int) (inter : Interpreter σ δ ω),
        executedLine time c fd inter = some (auditLine time c.cmd (fromWho fd inter))) := by
  rintro ⟨hformat, _⟩
  exact absurd (hformat executedTemplate [0] [str "get" ++ 0 :: str "root", str "guest"] rfl)
    (by decide)

end Ambry
