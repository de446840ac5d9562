import WorldToPE.Engine.Log
import WorldToPE.Engine.MemTable

/-!
# WorldToPE.Engine.DbImpl — writing, flushing and recovering

The write path of `db/db_impl.cc` as a state machine.  Callers of `Write` queue up; the one at the
front writes for itself and for as many behind it as `BuildBatchGroup` takes, first to the log and
then to the table in memory.  A full table is set aside with its log file and a new pair begins; a
background step turns it into a table file and drops its log.  A crash keeps the table files, and of each log
some first part, with at least what was synced; opening the database again reads the logs into tables.

A table file is kept here as its entries; `Engine.VersionSet` builds the file and looks keys up in it.
The files and the memory behave as asked: their errors are not modelled, except that making room for
a write may fail.
-/

namespace Leveldb

open Versions

/-- A caller of `Write`. -/
structure Request where
  id : ℕ
  batch : Option WriteBatch
  sync : Bool

/-- A log file, and how much of it is sure to be on the disk. -/
structure LogFile where
  writer : Log.Writer
  synced : ℕ

/-- What a crash may leave of a log file. -/
def LogFile.Leaves (f : LogFile) (rest : Slice) : Prop := rest <+: f.writer.dest ∧ f.synced ≤ rest.length

instance (f : LogFile) (rest : Slice) : Decidable (f.Leaves rest) := inferInstanceAs (Decidable (_ ∧ _))

structure DbImpl where
  writers : List Request
  /-- Who has returned, with what status. -/
  finished : List (ℕ × Status)
  last_sequence : UInt64
  /-- The last sequence number in the descriptor file. -/
  manifest_sequence : UInt64
  /-- The log files before the current one that are still needed, the oldest first. -/
  old_logs : List LogFile
  log : LogFile
  mem : MemTable
  imm : Option MemTable
  /-- The table files of level 0, the newest first. -/
  tables : List MemTable

namespace DbImpl

/-- A database that has just been made. -/
def new : DbImpl := ⟨[], [], 0, 0, [], ⟨⟨[], 0⟩, 0⟩, .empty, none, []⟩

/-! ## Writing -/

/-- The loop of `BuildBatchGroup` behind the first writer: the batch, and how many writers it took.
While `isFirst`, the batch is still the first writer's own. -/
def groupLoop (first : Request) (max_size : ℕ) : ℕ → Bool → WriteBatch → List Request → WriteBatch × ℕ
  | _, _, result, [] => (result, 0)
  | size, isFirst, result, w :: ws =>
    -- Do not include a sync write into a batch handled by a non-sync write.
    if w.sync && !first.sync then (result, 0)
    else
      match w.batch with
      | some b =>
        -- Do not make batch too big
        if size + b.rep.length > max_size then (result, 0)
        else
          let result := if isFirst then WriteBatch.clear.append result else result
          let r := groupLoop first max_size (size + b.rep.length) false (result.append b) ws
          (r.1, r.2 + 1)
      | none =>
        let r := groupLoop first max_size size isFirst result ws
        (r.1, r.2 + 1)

/-- `BuildBatchGroup`: the batch to write, and how many writers behind the first it stands for. -/
def buildBatchGroup (first : Request) (batch : WriteBatch) (rest : List Request) : WriteBatch × ℕ :=
  let size := batch.rep.length
  let max_size := if size ≤ 128 <<< 10 then size + 128 <<< 10 else 1 <<< 20
  groupLoop first max_size size true batch rest

/-- What the writer at the front does after `MakeRoomForWrite` has returned `room`. -/
def commit (db : DbImpl) (room : Status) : Option DbImpl :=
  match db.writers with
  | [] => none
  | first :: rest =>
    match first.batch with
    | some batch =>
      if room = .ok then
        let group := buildBatchGroup first batch rest
        let updates := group.1.setSequence (db.last_sequence + 1)
        let log := db.log.writer.addRecord updates.rep
        let inserted := MemTable.insertInto updates db.mem
        some { db with
          writers := rest.drop group.2
          finished := db.finished ++ (first :: rest.take group.2).map fun w => (w.id, inserted.2)
          last_sequence := db.last_sequence + updates.count.toInt64.toUInt64
          log := ⟨log, if first.sync then log.dest.length else db.log.synced⟩
          mem := inserted.1 }
      else some { db with writers := rest, finished := db.finished ++ [(first.id, room)] }
    | none => some { db with writers := rest, finished := db.finished ++ [(first.id, room)] }

/-- The end of `MakeRoomForWrite`: a new log and a new table in memory. -/
def switchMemTable (db : DbImpl) : Option DbImpl :=
  match db.imm with
  | some _ => none
  | none => some { db with
      old_logs := db.old_logs ++ [db.log]
      log := ⟨⟨[], 0⟩, 0⟩
      imm := some db.mem
      mem := .empty }

/-- `WriteLevel0Table`: a table without entries is not made a file. -/
def writeLevel0Table (m : MemTable) (tables : List MemTable) : List MemTable :=
  if m.table.isEmpty then tables else m :: tables

/-- `CompactMemTable`: the table that was set aside becomes a file, and the earlier logs go. -/
def compactMemTable (db : DbImpl) : Option DbImpl :=
  match db.imm with
  | none => none
  | some imm => some { db with
      manifest_sequence := db.last_sequence
      old_logs := []
      imm := none
      tables := writeLevel0Table imm db.tables }

/-! ## Reading -/

/-- The tables in the order in which they are asked. -/
def lookup (user_key : Slice) (s : UInt64) : List MemTable → Option (Except Status Slice)
  | [] => none
  | m :: ms => (m.get user_key s).or (lookup user_key s ms)

/-- `Get`: the table in memory, the one set aside, and the files from the newest to the oldest. -/
def get (db : DbImpl) (user_key : Slice) (s : UInt64) : Except Status Slice :=
  (lookup user_key s (db.mem :: db.imm.toList ++ db.tables)).getD (.error (.notFound ""))

/-! ## Recovery -/

structure Recovery where
  tables : List MemTable
  mem : Option MemTable
  max_sequence : UInt64

/-- One round of the loop of `RecoverLogFile`: `full` says that the table outgrows the buffer. -/
def recoverRecord (full : MemTable → Bool) (st : Recovery) (record : Slice) : Recovery :=
  if record.length < 12 then st  -- reported as a corruption, and skipped
  else
    let batch : WriteBatch := ⟨record⟩
    let mem := (MemTable.insertInto batch (st.mem.getD .empty)).1
    let last_seq := batch.sequence + batch.count.toInt64.toUInt64 - 1
    let max_sequence := if last_seq > st.max_sequence then last_seq else st.max_sequence
    if full mem then ⟨writeLevel0Table mem st.tables, none, max_sequence⟩
    else ⟨st.tables, some mem, max_sequence⟩

/-- `RecoverLogFile`: what is left in memory at the end becomes a table too. -/
def recoverLogFile (full : MemTable → Bool) (st : Recovery) (file : Slice) : Recovery :=
  let r := ((Log.Reader.new file true).readAll.1.foldl (recoverRecord full) { st with mem := none })
  match r.mem with
  | some m => ⟨writeLevel0Table m r.tables, none, r.max_sequence⟩
  | none => r

/-- A crash that leaves `rests` of the log files, and the next `Open`. -/
def crash (db : DbImpl) (full : MemTable → Bool) (rests : List Slice) : Option DbImpl :=
  if List.Forall₂ LogFile.Leaves (db.old_logs ++ [db.log]) rests then
    let r := rests.foldl (recoverLogFile full) ⟨db.tables, none, 0⟩
    let last := if db.manifest_sequence < r.max_sequence then r.max_sequence else db.manifest_sequence
    some ⟨[], [], last, last, [], ⟨⟨[], 0⟩, 0⟩, .empty, none, r.tables⟩
  else none

/-! ## The machine -/

inductive Event
  | arrive (w : Request)
  | commit (room : Status)
  | switchMemTable
  | compactMemTable
  | crash (full : MemTable → Bool) (rests : List Slice)

/-- What an event does, where it can happen. -/
def step (db : DbImpl) : Event → Option DbImpl
  | .arrive w => some { db with writers := db.writers ++ [w] }
  | .commit room => db.commit room
  | .switchMemTable => db.switchMemTable
  | .compactMemTable => db.compactMemTable
  | .crash full rests => db.crash full rests

def run (db : DbImpl) : List Event → Option DbImpl
  | [] => some db
  | e :: es => (db.step e).bind fun db => db.run es

end DbImpl

end Leveldb
