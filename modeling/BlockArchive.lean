import BlockArchive.Main
import BlockArchive.CommandLine.Run
import BlockArchive.RecoveryDrill
import BlockArchive.Scratch
import BlockArchive.Workload
import BlockArchive.Proofs.Archive.Accounted
import BlockArchive.Proofs.Archive.Drills
import BlockArchive.Proofs.Archive.Existing
import BlockArchive.Proofs.Archive.Pruned
import BlockArchive.Proofs.Archive.InOrder
import BlockArchive.Proofs.Archive.Sampling
import BlockArchive.Proofs.Archive.Session
import BlockArchive.Proofs.Archive.Undoing
import BlockArchive.Proofs.Archive.Uneven
import BlockArchive.Proofs.Table.Apart
import BlockArchive.Proofs.Table.Audited
import BlockArchive.Proofs.Table.Growing
import BlockArchive.Proofs.Table.HalfCut
import BlockArchive.Proofs.Table.Mirroring
import BlockArchive.Proofs.Table.ReadBack
import BlockArchive.Proofs.Table.Repairing
import BlockArchive.Proofs.Table.Tallying
import BlockArchive.Proofs.Unchanged
import BlockArchive.Proofs.Archive.Packed
import BlockArchive.Proofs.Table.LostHead
import BlockArchive.Proofs.Table.Placement
