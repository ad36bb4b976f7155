import SignatureLedger.Analysis
import SignatureLedger.ByteMap

/-!
# Ledgers

A ledger remembers the signature of every symbol at the time when it was recorded. Its keys are made
of the path of a file and the name of a symbol in it.
-/

namespace SignatureLedger

/-- Where a symbol is described: a path and a range of lines. Lines that are not known are zero. -/
structure DocRef where
  path : Bytes := []
  first : Nat := 0
  last : Nat := 0
deriving DecidableEq, Repr

/-- The key of a symbol in a file. -/
def ledgerKey (file symbol : Bytes) : Bytes := file ++ Byte.hash :: symbol

/-- What a ledger remembers of a symbol: where it is, its digest and its text when it was recorded,
and where it is described. -/
structure LedgerEntry where
  file : Bytes
  symbol : Bytes
  /-- The name of the entry. An entry that is read has it from its line. -/
  id : Bytes := ledgerKey file symbol
  digest : Bytes
  text? : Option Bytes := none
  doc : DocRef := {}
  /-- The time of the last change, in milliseconds. -/
  updated : Int64 := 0
deriving DecidableEq

/-- The key that the file and the symbol of an entry give. -/
def LedgerEntry.key (e : LedgerEntry) : Bytes := ledgerKey e.file e.symbol

/-- Entries by key, in the order of the keys. -/
abbrev Ledger := ByteMap LedgerEntry

namespace Ledger

/-- Stores an entry under its name. -/
def store (l : Ledger) (e : LedgerEntry) : Ledger := l.insert e.id e

/-- Stores an entry under its key. -/
def record (l : Ledger) (e : LedgerEntry) : Ledger := l.insert e.key e

/-- Stores the entries one after the other, each under its key. -/
def recordAll (l : Ledger) (es : List LedgerEntry) : Ledger := es.foldl record l

/-- The ledger of a list of entries; of two with the same key the later one stays. -/
def ofEntries (es : List LedgerEntry) : Ledger := recordAll ByteMap.empty es

end Ledger

/-- The entry of a symbol that was found at the time `now`. -/
def LedgerEntry.ofSignature (file : Bytes) (now : Int64) (s : Signature) : LedgerEntry :=
  { file, symbol := s.name, id := ledgerKey file s.name, digest := s.digest, text? := some s.text
    updated := now }

/-- The entries of the symbols of a file. -/
def Analysis.entries (a : Analysis) (now : Int64) : List LedgerEntry :=
  a.signatures.map (LedgerEntry.ofSignature a.path now)

end SignatureLedger
