import FastMem.HandlerDeadlock
import FastMem.SeqInvariant
import FastMem.Seqlock
import FastMem.StaleRefs
import FastMem.Capacity
import FastMem.Lookup
import FastMem.UniqueTable
import FastMem.AutoInc
import FastMem.IndexScan
import FastMem.IndexDelete
import FastMem.Rereads
import FastMem.Positions
import FastMem.RecycledReads
import FastMem.MadeKeys
import FastMem.Scans
import FastMem.Variants
import FastMem.Reservation
import FastMem.ErrKey
import FastMem.FailedCalls
import FastMem.OpenRows
import FastMem.Refusals
import FastMem.UpdateLocks
import FastMem.HandlerLocks
import FastMem.LostUpdates
import FastMem.AnyCalls
import FastMem.StoreIntegrity
import FastMem.WriteCycles
import FastMem.RacingMoves
import FastMem.IndexLookups
import FastMem.Clashes
import FastMem.TableScans
import FastMem.EditOutcomes
import FastMem.RefusedRows
