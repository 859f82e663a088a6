import TrineKv.Compaction.InputClosure
import TrineKv.Compaction.Rewrite

/-!
# Planning and installing a compaction

A plan is a compaction of the full bucket if all keys were asked for and all tables are inputs. A
single input can be moved down without a rewrite. The outputs replace the inputs in the current
version, which checks its levels.

## Main results

* `perm_of_levelState_new`: no table is lost.
-/

namespace TrineKv

def canMoveWithoutRewrite (inputTables : List Table) (outputLevel : ℕ) : Bool :=
  match inputTables with
  | [table] => decide (table.level < maxTableLevel ∧ table.level + 1 = outputLevel)
  | _ => false

namespace LsmVersion

/-- The tables that a plan selects, and what is done with them. -/
def compactionInput (version : LsmVersion) (tableOptions : TableWriteOptions) (range : KeyRange)
    (plan : CompactionPlan) : CompactionInput :=
  let inputTables := version.tables.filter fun table => decide (table.id ∈ plan.inputTables)
  { tableLevel := plan.outputLevel
    tableOptions
    inputTableIds := inputTables.map Table.id
    compactionRange := plan.keyRange
    trigger := plan.trigger
    trivialMove := canMoveWithoutRewrite inputTables plan.outputLevel
    fullBucketCompaction := isAllRange range &&
      version.tables.all fun table => decide (table.id ∈ plan.inputTables)
    inputTables }

def withReplacedTables (version : LsmVersion) (inputTableIds : List ℕ) (outputTables : List Table) :
    Except Error (LsmVersion × List Table) := do
  let removed := version.tables.filter fun table => decide (table.id ∈ inputTableIds)
  let tables := version.tables.filter fun table => !decide (table.id ∈ inputTableIds)
  if removed.length ≠ inputTableIds.dedup.length then
    .error (.corruption "compaction tried to replace a table outside current version")
  else
    let replaced ← new (tables ++ outputTables)
    return (replaced, removed)

/-! ## The tables of a new version -/

lemma perm_of_levelState_new {level : ℕ} {tables : List Table} {state : LevelState}
    (h : LevelState.new level tables = .ok state) : state.tables.Perm tables := by
  unfold LevelState.new at h
  split_ifs at h with hzero
  · obtain rfl := Except.ok.inj h
    exact List.perm_insertionSort _ _
  · dsimp only at h
    split at h
    · obtain rfl := Except.ok.inj h
      exact List.perm_insertionSort _ _
    · cases h

end LsmVersion

end TrineKv
