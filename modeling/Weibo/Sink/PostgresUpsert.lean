import Mathlib.Data.List.Dedup
import Mathlib.Data.Multiset.Filter

/-!
# Batched upserts

`insertBatch` groups the rows of one table by the text of their column list; each group loses all
but the last row of a conflict key as Go prints it, and goes out as one `INSERT ... ON CONFLICT`. A
key with a NULL conflicts with nothing.
-/

namespace Weibo.Postgres

open List Option Function

abbrev TableRow (V : Type) := String → Option V

/-- What Postgres and `fmt` make of Go values, with the defaults of the columns. -/
structure Values (γ V : Type) where
  sql : γ → Option V
  repr : γ → String
  default : TableRow V

structure PendingRow (γ : Type) where
  columns : List String
  values : List γ

structure Config where
  conflictCols : List String
  updateCols : List String

/-- The rows of a table with a unique constraint: one for a key without NULL, any number with one.
-/
@[ext]
structure Table (V : Type) where
  keyed : List (Option V) → Option (TableRow V)
  unkeyed : Multiset (TableRow V)

/-- A row in an `INSERT ... ON CONFLICT DO UPDATE`; without columns to update it is `DO NOTHING`. -/
structure Upsert (V : Type) where
  updates : List String
  row : TableRow V

/-- A round of the loop of `dedupeByConflictKey`, for any key. -/
def replaceOrAppend {α κ : Type} [DecidableEq κ] (key : α → κ) (out : List α) (r : α) : List α :=
  if ∃ other ∈ out, key other = key r then
    out.map fun other => if key other = key r then r else other
  else out ++ [r]

section Sink

variable {γ V : Type} [DecidableEq V] (lib : Values γ V) (cfg : Config)

/-- The columns that `buildPostgresWriteQuery` updates. -/
def updatesOf (columns : List String) : List String :=
  if cfg.updateCols = [] then columns.filter (· ∉ cfg.conflictCols) else cfg.updateCols

/-- The row of a statement with these columns. -/
def upsertOf (columns : List String) (r : PendingRow γ) : Upsert V where
  updates := updatesOf cfg columns
  row c := match (columns.zip r.values).lookup c with
    | some value => lib.sql value
    | none => lib.default c

/-- The conflict key of a row, if it has no NULL. -/
def keyOf (row : TableRow V) : Option (List (Option V)) :=
  let key := cfg.conflictCols.map row
  if none ∈ key then none else some key

/-- What an upsert makes of the row with its key. -/
def Upsert.step (old : Option (TableRow V)) (op : Upsert V) : Option (TableRow V) :=
  match old with
  | none => some op.row
  | some old => some fun c => if c ∈ op.updates then op.row c else old c

def Table.apply (t : Table V) (op : Upsert V) : Table V :=
  match keyOf cfg op.row with
  | none => { t with unkeyed := op.row ::ₘ t.unkeyed }
  | some key => { t with keyed := update t.keyed key (op.step (t.keyed key)) }

/-- A statement with several rows, which may not update a row it has touched. -/
def Table.exec : List (List (Option V)) → Table V → List (Upsert V) → Option (Table V)
  | _, t, [] => some t
  | touched, t, op :: rest =>
    match keyOf cfg op.row with
    | none => exec touched (t.apply cfg op) rest
    | some key =>
      if key ∈ touched ∧ op.updates ≠ [] then none else exec (key :: touched) (t.apply cfg op) rest

/-- The text of the conflict values in `dedupeByConflictKey`. -/
def printed (columns : List String) (r : PendingRow γ) : List (Option String) :=
  cfg.conflictCols.map fun c => ((columns.zip r.values).lookup c).map lib.repr

def dedupeByConflictKey (columns : List String) (rows : List (PendingRow γ)) :
    List (PendingRow γ) :=
  if ∀ c ∈ cfg.conflictCols, c ∈ columns then
    rows.foldl (replaceOrAppend (printed lib cfg columns)) [] else rows

def PendingRow.signature (r : PendingRow γ) : String := ",".intercalate r.columns

/-- The groups of `insertBatch`, in the order of their first rows. -/
def groups (rows : List (PendingRow γ)) : List (List (PendingRow γ)) :=
  (rows.map PendingRow.signature).reverse.dedup.reverse.map fun key =>
    rows.filter (·.signature = key)

/-- The columns of a group: those of its first row. -/
def columnsOf (group : List (PendingRow γ)) : List String :=
  (group.head?.map PendingRow.columns).getD []

/-- The statement for a group. -/
def statement (group : List (PendingRow γ)) : List (Upsert V) :=
  (dedupeByConflictKey lib cfg (columnsOf group) group).map (upsertOf lib cfg (columnsOf group))

/-- `insertBatch`, none if a statement fails. -/
def insertBatch (t : Table V) (rows : List (PendingRow γ)) : Option (Table V) :=
  (groups rows).foldlM (fun t group => t.exec cfg [] (statement lib cfg group)) t

def PendingRow.upsert (r : PendingRow γ) : Upsert V := upsertOf lib cfg r.columns r

/-- One statement for each row, in the order of arrival. -/
def rowByRow (t : Table V) (rows : List (PendingRow γ)) : Table V :=
  (rows.map (PendingRow.upsert lib cfg)).foldl (Table.apply cfg) t

/-- The rows that a batch writes, in the order of its statements. -/
def written (rows : List (PendingRow γ)) : List (Upsert V) :=
  (groups rows).flatMap (statement lib cfg)

/-- The upserts of one key, or of the rows whose key holds a NULL. -/
def ofKey (key : Option (List (Option V))) (ops : List (Upsert V)) : List (Upsert V) :=
  ops.filter fun op => keyOf cfg op.row = key

/-- Of every key, the upserts do the same to the row with it, be it stored or not, and the rows
without a key are the same. -/
structure SameEffect (ops others : List (Upsert V)) : Prop where
  keyed : ∀ key old, (ofKey cfg (some key) ops).foldl Upsert.step old =
    (ofKey cfg (some key) others).foldl Upsert.step old
  unkeyed : ((ofKey cfg none ops).map Upsert.row : Multiset (TableRow V)) =
    (ofKey cfg none others).map Upsert.row

end Sink

section Effects

variable {γ V : Type} [DecidableEq V] {lib : Values γ V} {cfg : Config} {t u :
    Table V} {ops others : List (Upsert V)}

theorem keyed_foldl (t : Table V) (ops : List (Upsert V)) (key : List (Option V)) :
    (ops.foldl (Table.apply cfg) t).keyed key = (ofKey cfg (some key) ops).foldl Upsert.step
    (t.keyed key) := by
  induction ops generalizing t with
  | nil => rfl
  | cons op rest ih =>
    rw [foldl_cons, ih, ofKey, ofKey, filter_cons]
    cases own : keyOf cfg op.row with
    | none => simp [Table.apply, own]
    | some other =>
      by_cases same : other = key
      · simp [Table.apply, own, same]
      · simp [Table.apply, own, same, update_of_ne (Ne.symm same)]

theorem unkeyed_foldl (t : Table V) (ops : List (Upsert V)) :
    (ops.foldl (Table.apply cfg) t).unkeyed =
    ((ofKey cfg none ops).map Upsert.row : Multiset (TableRow V)) + t.unkeyed := by
  induction ops generalizing t with
  | nil => simp [ofKey]
  | cons op rest ih =>
    rw [foldl_cons, ih, ofKey, ofKey, filter_cons]
    cases own : keyOf cfg op.row with
    | none => simp [Table.apply, own, ← Multiset.cons_coe]
    | some key => simp [Table.apply, own]

theorem sameEffect_iff : (∀ t, ops.foldl (Table.apply cfg) t = others.foldl (Table.apply cfg) t) ↔
    SameEffect cfg ops others := by
  constructor
  · intro same
    refine ⟨fun key old => ?_, ?_⟩
    · rw [← keyed_foldl ⟨fun _ => old, 0⟩, same, keyed_foldl]
    · have rows := congrArg Table.unkeyed (same ⟨fun _ => none, 0⟩)
      simpa only [unkeyed_foldl, Multiset.add_zero] using rows
  · intro same t
    refine Table.ext (funext fun key => ?_) ?_
    · rw [keyed_foldl, keyed_foldl, same.keyed]
    · rw [unkeyed_foldl, unkeyed_foldl, same.unkeyed]

/-- Whether a statement fails does not depend on the table. -/
theorem exec_cases (cfg : Config) (touched : List (List (Option V))) (ops : List (Upsert V)) :
    (∀ t : Table V, t.exec cfg touched ops = none) ∨
      ∀ t : Table V, t.exec cfg touched ops = some (ops.foldl (Table.apply cfg) t) := by
  induction ops generalizing touched with
  | nil => exact .inr fun _ => rfl
  | cons op rest ih =>
    cases own : keyOf cfg op.row with
    | none =>
      simpa only [Table.exec, own, foldl_cons] using (ih touched).imp (fun h _ => h _) fun h _ =>
        h _
    | some key =>
      by_cases again : key ∈ touched ∧ op.updates ≠ []
      · exact .inl fun t => by rw [Table.exec, own]; exact if_pos again
      · simpa only [Table.exec, own, if_neg again, foldl_cons] using
          (ih (key :: touched)).imp (fun h _ => h _) fun h _ => h _

theorem insertBatch_cases (lib : Values γ V) (cfg : Config) (rows : List (PendingRow γ)) :
    (∀ t, insertBatch lib cfg t rows = none) ∨
      ∀ t,
        insertBatch lib cfg t rows = some ((written lib cfg rows).foldl (Table.apply cfg) t) := by
  unfold insertBatch written
  generalize groups rows = gs
  induction gs with
  | nil => exact .inr fun _ => rfl
  | cons g gs ih =>
    rcases exec_cases cfg [] (statement lib cfg g) with fails | runs
    · exact .inl fun t => by simp [foldlM_cons, fails]
    · simp only [foldlM_cons, runs, flatMap_cons, foldl_append, bind_eq_bind, bind_some]
      exact ih.imp (fun h _ => h _) fun h _ => h _

end Effects

/-! ## Texts -/

/-- Texts that are their own SQL value, the empty one NULL. -/
def texts : Values String String where
  sql s := if s = "" then none else some s
  repr := id
  default _ := none

def empty : Table String := ⟨fun _ => none, 0⟩

/-- Two orders of one key and one without a key, and a third of the key with another column. -/
def orders : List (PendingRow String) :=
  [⟨["k", "a"], ["1", "x"]⟩, ⟨["k", "a"], ["1", "y"]⟩, ⟨["k", "a"], ["", "z"]⟩,
    ⟨["k", "b"], ["1", "p"]⟩]

end Weibo.Postgres
