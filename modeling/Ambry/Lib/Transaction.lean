import Mathlib.Data.Finset.Basic
import Mathlib.Data.List.AList
import Ambry.Foundation.Run
import Ambry.Lib.Outcome

/-!
# `lib/transaction.cpp`

A transaction stores commands and executes them when it is committed, up to the
first that fails. Which one that is depends on the live keys alone, and a command
that fails leaves everything as it was.
-/

namespace Ambry

open Foundation

inductive CmdType
  | Set | Update | Erase
  deriving DecidableEq, Repr

structure Command where
  type : CmdType
  a1 : Bytes
  a2 : Bytes
  deriving DecidableEq, Repr

/-- The commands that have been buffered; the database is the one that `commit` is given. -/
structure Transaction where
  cmds : List Command := []
  deriving DecidableEq, Repr

def DB.beginTransaction : Transaction := {}

namespace Transaction

def set (key value : Bytes) (tr : Transaction) : Transaction :=
  { tr with cmds := tr.cmds ++ [⟨.Set, key, value⟩] }

def update (key value : Bytes) (tr : Transaction) : Transaction :=
  { tr with cmds := tr.cmds ++ [⟨.Update, key, value⟩] }

def erase (key : Bytes) (tr : Transaction) : Transaction :=
  { tr with cmds := tr.cmds ++ [⟨.Erase, key, []⟩] }

/-- The member function that buffers an operation. -/
def buffer (tr : Transaction) : DB.Op → Transaction
  | .set key value => tr.set key value
  | .update key value => tr.update key value
  | .erase key => tr.erase key

def buffered (ops : List DB.Op) : Transaction := ops.foldl buffer DB.beginTransaction

section
variable [Machine]

/-- The loop of `commit`, which returns the first result that is not ok. -/
def commitLoop : List Command → DB → Option (Result × DB)
  | [], db => some (.success, db)
  | command :: cmds, db => do
    let (result, db) ← (match command.type with
      | .Set => db.set command.a1 command.a2
      | .Update => db.update command.a1 command.a2
      | .Erase => db.erase command.a1)
    if result.ok then commitLoop cmds db else some (result, db)

def commit (tr : Transaction) (db : DB) : Option (Result × DB) := commitLoop tr.cmds db

end

end Transaction

/-! ### What the live keys decide -/

namespace DB

def Op.command : Op → Command
  | .set key value => ⟨.Set, key, value⟩
  | .update key value => ⟨.Update, key, value⟩
  | .erase key => ⟨.Erase, key, []⟩

/-- A `set` finds its key absent, an `update` and an `erase` find theirs present. -/
def Op.Finds (keys : Finset Bytes) : Op → Prop
  | .set key _ => key ∉ keys
  | .update key _ => key ∈ keys
  | .erase key => key ∈ keys

instance Op.Finds.decidable (keys : Finset Bytes) : (op : Op) → Decidable (op.Finds keys)
  | .set key _ => inferInstanceAs (Decidable (key ∉ keys))
  | .update key _ => inferInstanceAs (Decidable (key ∈ keys))
  | .erase key => inferInstanceAs (Decidable (key ∈ keys))

def Op.keysAfter (keys : Finset Bytes) : Op → Finset Bytes
  | .set key _ => insert key keys
  | .update _ _ => keys
  | .erase key => keys.erase key

/-- Every operation finds its key as it must be, after those before it. -/
def Valid : Finset Bytes → List Op → Prop
  | _, [] => True
  | keys, op :: ops => op.Finds keys ∧ Valid (op.keysAfter keys) ops

def Op.refusal : Op → Result
  | .set _ _ => ⟨.KeyNotInserted, "Could not insert key into index"⟩
  | .update _ _ => ⟨.KeyNotFound, "key does not exist in index"⟩
  | .erase _ => ⟨.KeyNotFound, "key does not exist in index"⟩

def liveKeys (db : DB) : Finset Bytes := db.ctx.index.keys.toFinset

variable {db db' : DB} {key : Bytes} {op : Op} {ops : List Op}

theorem Op.refusal_not_ok (op : Op) : op.refusal.ok = false := by cases op <;> rfl

theorem mem_liveKeys : key ∈ db.liveKeys ↔ key ∈ db.ctx.index := List.mem_toFinset

theorem liveKeys_insert {data : IndexData}
    (h : db'.ctx.index = db.ctx.index.insert key data) : db'.liveKeys = insert key db.liveKeys := by
  ext k
  rw [mem_liveKeys, h, AList.mem_insert, Finset.mem_insert, mem_liveKeys]

theorem liveKeys_erase (h : db'.ctx.index = db.ctx.index.erase key) :
    db'.liveKeys = db.liveKeys.erase key := by
  ext k
  rw [mem_liveKeys, h, AList.mem_erase, Finset.mem_erase, mem_liveKeys]

theorem mem_liveKeys_of_lookup {data : IndexData} (h : db.ctx.index.lookup key = some data) :
    key ∈ db.liveKeys := by
  rw [mem_liveKeys, ← AList.lookup_isSome, h]
  rfl

theorem notMem_liveKeys_iff : key ∉ db.liveKeys ↔ db.ctx.index.lookup key = none := by
  rw [mem_liveKeys, AList.lookup_eq_none]

section
variable [Machine] {r : Result}

/-- The operations called one after the other, without a look at their results. -/
def execute (db : DB) (ops : List Op) : Option DB :=
  ops.foldlM (fun db op => (db.apply op).map Prod.snd) db

theorem apply_of_finds (hfinds : op.Finds db.liveKeys) (h : db.apply op = some (r, db')) :
    r = .success ∧ db'.liveKeys = op.keysAfter db.liveKeys := by
  cases op with
  | set key value =>
    obtain ⟨⟨data, hdata⟩, _, _⟩ | ⟨_, hr, pos, hout⟩ := set_cases h
    · exact absurd (mem_liveKeys_of_lookup hdata) hfinds
    · exact ⟨hr, liveKeys_insert hout.index⟩
  | update key value =>
    obtain ⟨hnone, _, _⟩ | ⟨old, _, hr, pos, hout⟩ := update_cases h
    · exact absurd hfinds (notMem_liveKeys_iff.mpr hnone)
    · refine ⟨hr, (liveKeys_insert hout.index).trans ?_⟩
      exact Finset.insert_eq_of_mem hfinds
  | erase key =>
    obtain ⟨hnone, _, _⟩ | ⟨old, _, hr, hout⟩ := erase_cases h
    · exact absurd hfinds (notMem_liveKeys_iff.mpr hnone)
    · exact ⟨hr, liveKeys_erase hout.index⟩

/-- An operation that does not find its key so always returns, and nothing has changed. -/
theorem apply_of_not_finds (hfinds : ¬ op.Finds db.liveKeys) :
    db.apply op = some (op.refusal, db) := by
  cases op with
  | set key value =>
    have hlive := Decidable.of_not_not hfinds
    rw [mem_liveKeys, ← AList.lookup_isSome] at hlive
    obtain ⟨data, hdata⟩ := Option.isSome_iff_exists.mp hlive
    rw [apply, set, hdata]
    rfl
  | update key value =>
    rw [apply, update, notMem_liveKeys_iff.mp hfinds]
    rfl
  | erase key =>
    rw [apply, erase, notMem_liveKeys_iff.mp hfinds]
    rfl

theorem execute_cons (db : DB) (op : Op) (ops : List Op) :
    db.execute (op :: ops) = (db.apply op).bind fun out => out.2.execute ops := by
  rw [execute, List.foldlM_cons]
  exact Option.bind_map

theorem execute_liveKeys (hvalid : Valid db.liveKeys ops) (h : db.execute ops = some db') :
    db'.liveKeys = ops.foldl Op.keysAfter db.liveKeys := by
  induction ops generalizing db with
  | nil =>
    cases h
    rfl
  | cons op ops ih =>
    obtain ⟨hfinds, hvalid⟩ := hvalid
    rw [execute_cons] at h
    obtain ⟨⟨r, db₁⟩, happly, h⟩ := Option.bind_eq_some_iff.mp h
    have hkeys := (apply_of_finds hfinds happly).2
    rw [← hkeys] at hvalid
    rw [ih hvalid h, hkeys, List.foldl_cons]

/-- Executing a list of operations is a run. -/
theorem execute_run (h : db.execute ops = some db') :
    ∃ trace, trace.map Prod.fst = ops ∧ Run (Steps apply fun _ _ => True) db trace db' := by
  induction ops generalizing db with
  | nil =>
    cases h
    exact ⟨[], rfl, .nil⟩
  | cons op ops ih =>
    rw [execute_cons] at h
    obtain ⟨⟨r, db₁⟩, happly, h⟩ := Option.bind_eq_some_iff.mp h
    obtain ⟨trace, htrace, hrun⟩ := ih h
    exact ⟨(op, r) :: trace, congrArg (op :: ·) htrace, Run.cons ⟨trivial, happly⟩ hrun⟩

omit [Machine] in
theorem exists_first_not_found {keys : Finset Bytes} (h : ¬ Valid keys ops) :
    ∃ before op later, ops = before ++ op :: later ∧ Valid keys before ∧
      ¬ op.Finds (before.foldl Op.keysAfter keys) := by
  induction ops generalizing keys with
  | nil => exact absurd trivial h
  | cons op ops ih =>
    by_cases hfinds : op.Finds keys
    · obtain ⟨before, op', later, rfl, hvalid, hnot⟩ := ih fun hvalid => h ⟨hfinds, hvalid⟩
      exact ⟨op :: before, op', later, rfl, ⟨hfinds, hvalid⟩, hnot⟩
    · exact ⟨[], op, ops, rfl, trivial, hfinds⟩

end

end DB

/-! ### Commit -/

namespace Transaction

open DB (Op Valid)

theorem buffer_cmds (tr : Transaction) (op : Op) : (tr.buffer op).cmds = tr.cmds ++ [op.command] := by
  cases op <;> rfl

theorem foldl_buffer_cmds (tr : Transaction) (ops : List Op) :
    (ops.foldl buffer tr).cmds = tr.cmds ++ ops.map Op.command := by
  induction ops generalizing tr with
  | nil => exact (List.append_nil _).symm
  | cons op ops ih =>
    rw [List.foldl_cons, ih, buffer_cmds, List.append_assoc, List.map_cons, List.singleton_append]

variable [Machine] {db db' : DB} {r : Result} {op : Op} {ops before later : List Op}

theorem commit_buffered (db : DB) (ops : List Op) :
    (buffered ops).commit db = commitLoop (ops.map Op.command) db := by
  rw [commit, buffered, foldl_buffer_cmds]
  rfl

theorem commitLoop_cons (op : Op) (cmds : List Command) (db : DB) :
    commitLoop (op.command :: cmds) db = (db.apply op).bind fun out =>
      if out.1.ok then commitLoop cmds out.2 else some out := by
  cases op <;> rfl

/-- As long as the keys are found as they must be, the loop goes on. -/
theorem commitLoop_append (hvalid : Valid db.liveKeys ops) (cmds : List Command) :
    commitLoop (ops.map Op.command ++ cmds) db = (db.execute ops).bind (commitLoop cmds) := by
  induction ops generalizing db with
  | nil => rfl
  | cons op ops ih =>
    obtain ⟨hfinds, hvalid⟩ := hvalid
    rw [List.map_cons, List.cons_append, commitLoop_cons, DB.execute_cons]
    cases happly : db.apply op with
    | none => rfl
    | some out =>
      obtain ⟨r, db₁⟩ := out
      obtain ⟨rfl, hkeys⟩ := DB.apply_of_finds hfinds happly
      rw [← hkeys] at hvalid
      exact ih hvalid

theorem commitLoop_valid (hvalid : Valid db.liveKeys ops) :
    commitLoop (ops.map Op.command) db = (db.execute ops).map (Prod.mk .success) := by
  have h := commitLoop_append hvalid []
  rw [List.append_nil] at h
  rw [h, Option.map_eq_bind]
  rfl

theorem commitLoop_refused (hvalid : Valid db.liveKeys before)
    (hnot : ¬ op.Finds (before.foldl Op.keysAfter db.liveKeys)) (later : List Op) :
    commitLoop ((before ++ op :: later).map Op.command) db =
      (db.execute before).map (Prod.mk op.refusal) := by
  rw [List.map_append, commitLoop_append hvalid]
  cases hexecute : db.execute before with
  | none => rfl
  | some db' =>
    rw [← DB.execute_liveKeys hvalid hexecute] at hnot
    rw [Option.bind_some, List.map_cons, commitLoop_cons, DB.apply_of_not_finds hnot,
      Option.bind_some, op.refusal_not_ok, if_neg Bool.false_ne_true]
    rfl

/-- The commands are executed up to the first that does not find its key as it must be, and the
result is ok exactly when there is none. -/
theorem commit_decided (db : DB) (ops : List Op) :
    (Valid db.liveKeys ops →
        (buffered ops).commit db = (db.execute ops).map (Prod.mk .success)) ∧
      (∀ before op later, ops = before ++ op :: later → Valid db.liveKeys before →
        ¬ op.Finds (before.foldl Op.keysAfter db.liveKeys) →
        (buffered ops).commit db = (db.execute before).map (Prod.mk op.refusal)) ∧
      ∀ r db', (buffered ops).commit db = some (r, db') → (r.ok = true ↔ Valid db.liveKeys ops) := by
  rw [commit_buffered]
  refine ⟨commitLoop_valid, ?_, ?_⟩
  · rintro before op later rfl hvalid hnot
    exact commitLoop_refused hvalid hnot later
  · intro r db' hcommit
    by_cases hvalid : Valid db.liveKeys ops
    · rw [commitLoop_valid hvalid] at hcommit
      obtain ⟨_, _, hout⟩ := Option.map_eq_some_iff.mp hcommit
      cases hout
      exact iff_of_true rfl hvalid
    · obtain ⟨before, op, later, rfl, hbefore, hnot⟩ := DB.exists_first_not_found hvalid
      rw [commitLoop_refused hbefore hnot] at hcommit
      obtain ⟨_, _, hout⟩ := Option.map_eq_some_iff.mp hcommit
      cases hout
      rw [op.refusal_not_ok]
      exact iff_of_false Bool.false_ne_true hvalid

/-- What a commit leaves is what some run of the operations leaves. -/
theorem commit_run (h : (buffered ops).commit db = some (r, db')) :
    ∃ trace, trace.map Prod.fst <+: ops ∧
      Run (Steps DB.apply fun _ _ => True) db trace db' := by
  rw [commit_buffered] at h
  by_cases hvalid : Valid db.liveKeys ops
  · rw [commitLoop_valid hvalid] at h
    obtain ⟨_, hexecute, hout⟩ := Option.map_eq_some_iff.mp h
    cases hout
    obtain ⟨trace, rfl, hrun⟩ := DB.execute_run hexecute
    exact ⟨trace, List.prefix_rfl, hrun⟩
  · obtain ⟨before, op, later, rfl, hbefore, hnot⟩ := DB.exists_first_not_found hvalid
    rw [commitLoop_refused hbefore hnot] at h
    obtain ⟨_, hexecute, hout⟩ := Option.map_eq_some_iff.mp h
    cases hout
    obtain ⟨trace, rfl, hrun⟩ := DB.execute_run hexecute
    exact ⟨trace, List.prefix_append _ _, hrun⟩

end Transaction

end Ambry
