import SignatureLedger.Ledger

/-!
# Drift

How the signatures of a file now differ from those in a ledger: each symbol is in sync, drifted, not
tracked yet, or removed. `Drift.check` gives the status of every symbol that either side knows, and
how many there are of each.
-/

namespace SignatureLedger

/-- What has become of a symbol since it was recorded. -/
inductive DriftStatus where
  | inSync
  | drifted (old new : Bytes)
  | notTracked
  | removed
deriving DecidableEq, Repr

namespace DriftStatus

/-- The word that is shown for the status. -/
def name : DriftStatus → String
  | inSync => "in-sync"
  | drifted _ _ => "drifted"
  | notTracked => "not-tracked"
  | removed => "removed"

/-- The status of a signature that the ledger has an entry for. -/
def ofEntry (e : LedgerEntry) (s : Signature) : DriftStatus :=
  if s.digest = e.digest then inSync else drifted e.digest s.digest

end DriftStatus

/-- The statuses by key, and the number of keys with each. -/
structure Drift where
  statuses : ByteMap DriftStatus := ByteMap.empty
  /-- The symbols that the file has now. -/
  total : Nat := 0
  inSync : Nat := 0
  drifted : Nat := 0
  notTracked : Nat := 0
  removed : Nat := 0

namespace Drift

/-- Counts a status in. -/
def count (d : Drift) : DriftStatus → Drift
  | .inSync => { d with inSync := d.inSync + 1 }
  | .drifted _ _ => { d with drifted := d.drifted + 1 }
  | .notTracked => { d with notTracked := d.notTracked + 1 }
  | .removed => { d with removed := d.removed + 1 }

/-- Takes a status out of the count again. -/
def uncount (d : Drift) : DriftStatus → Drift
  | .inSync => { d with inSync := d.inSync - 1 }
  | .drifted _ _ => { d with drifted := d.drifted - 1 }
  | .notTracked => { d with notTracked := d.notTracked - 1 }
  | .removed => { d with removed := d.removed - 1 }

/-- Gives a symbol of the file its status; when a name comes again, the later one counts. -/
def put (d : Drift) (key : Bytes) (s : DriftStatus) : Drift :=
  let d' :=
    match d.statuses.find? key with
    | none => { d with total := d.total + 1 }
    | some old => d.uncount old
  { d' with statuses := d.statuses.insert key s }.count s

/-- The status of a signature in a ledger. -/
def status (ledger : Ledger) (path : Bytes) (s : Signature) : DriftStatus :=
  match ledger.find? (ledgerKey path s.name) with
  | some e => .ofEntry e s
  | none => .notTracked

/-- Adds the keys of a file that no signature of it has now. -/
def addRemoved (d : Drift) (gone : List Bytes) : Drift :=
  gone.foldl
    (fun d key => { d with statuses := d.statuses.insert key .removed, removed := d.removed + 1 }) d

/-- The keys that a ledger has for a file. They stand together: the first one is the first key that
is not below their common start, and the first key without that start ends them. -/
def keysOf (ledger : Ledger) (path : Bytes) : List Bytes :=
  let start := ledgerKey path []
  (ledger.keys.dropWhile (· < start)).takeWhile start.isPrefixOf

/-- Compares the signatures of a file with a ledger. -/
def check (ledger : Ledger) (path : Bytes) (current : List Signature) : Drift :=
  let d := current.foldl
    (fun (d : Drift) s => d.put (ledgerKey path s.name) (status ledger path s)) {}
  d.addRemoved ((keysOf ledger path).filter (fun k => !d.statuses.contains k))

/-- Something has drifted or is gone. Symbols that are not tracked do not count. -/
def hasDrift (d : Drift) : Bool := d.drifted > 0 || d.removed > 0

/-- The numbers of two files together. -/
def plus (d e : Drift) : Drift where
  total := d.total + e.total
  inSync := d.inSync + e.inSync
  drifted := d.drifted + e.drifted
  notTracked := d.notTracked + e.notTracked
  removed := d.removed + e.removed

/-- The numbers of several files together. -/
def sum (ds : List Drift) : Drift := ds.foldl plus {}

/-- One line for a reader. -/
def summary (d : Drift) : Bytes :=
  if d.hasDrift then
    bytes "⚠ Drift detected: " ++ decimal d.drifted ++ bytes " drifted, " ++ decimal d.removed
      ++ bytes " removed, " ++ decimal d.inSync ++ bytes " in sync"
  else bytes "✓ All " ++ decimal d.inSync ++ bytes " symbols are in sync"

end Drift

end SignatureLedger
