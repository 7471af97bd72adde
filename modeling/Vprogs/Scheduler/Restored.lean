import Vprogs.Scheduler.Pipeline

/-!
Restored batches. A returning batch takes its diffs from disk: what it wrote from its
own version and rollback pointer, what it only read from the latest pointer. The
latter is right once the earlier batches in flight that write the resource have
committed, and then every batch, restored or executed, holds what executing the
blocks in order gives.
-/
namespace Vprogs.Scheduler

open Abi Smt
open Runs (run Along)

namespace Pipeline

variable {D : Type} [DecidableEq D] {B : Blocks} {H : Hasher D} {hash : Bytes → D}
  {cfg : Config} {s : Pipeline D}

namespace Sample

open System.Sample

/-- Blocks in a line that write their number, except for block 3, which only reads. -/
def reader : Blocks where
  parent b := b - 1
  body b := if b = 3 then { body b with run := fun _ _ => none, run_congr := fun _ => rfl } else body b
  parent_lt := @line_parent_lt

/-- A batch up to its commit. -/
def committed (b : Nat) : List Event :=
  [.work (.append b), .work (.read b resource), .work (.execute b resource), .work (.write b resource), .flush b,
    .commitDone]

/-- Blocks 1 to 3 have committed; blocks 2 and 3 are taken back and return. -/
def returned : List Event :=
  committed 1 ++ committed 2 ++ committed 3 ++
    [.cancel 1, .executeRollback, .work (.append 2), .work (.append 3)]

/-- Block 3 is restored before block 2 commits, and block 4 reads from it. -/
def restoredEarly : List Event :=
  returned ++ [.work (.restore 3 resource), .work (.append 4), .work (.read 4 resource)]

/-- Block 2 is restored and commits while block 3 waits for it. -/
def restoredInOrder : List Event :=
  returned ++ [.work (.restore 2 resource), .flush 2, .commitDone, .work (.restore 3 resource),
    .work (.append 4), .work (.read 4 resource)]

end Sample

end Pipeline

end Vprogs.Scheduler
