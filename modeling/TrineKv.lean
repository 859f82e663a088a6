import TrineKv.Table.FilterCodec
import TrineKv.Lsm.ConflictSpec
import TrineKv.Commit.Snapshots
import TrineKv.Commit.Stamps
import TrineKv.Commit.Crash
import TrineKv.ObjectWal.Acknowledged
import TrineKv.ObjectWal.Refusal
import TrineKv.Compaction.Accepted
import TrineKv.Wal.RewriteDurability
import TrineKv.Content.QuotaRuns
import TrineKv.Branch.LifecycleSteps
import TrineKv.Commit.Visibility
import TrineKv.Compaction.Exclusion
import TrineKv.Compaction.Duplicates
import TrineKv.Content.Tokens
