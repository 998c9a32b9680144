import RegionHeap.LeakReport
import RegionHeap.Proofs.Ledger.Steps
import RegionHeap.Proofs.Ledger.Split
import RegionHeap.Proofs.Ledger.Merge
import RegionHeap.Proofs.Ledger.Regions
import RegionHeap.Proofs.Ledger.Carve
import RegionHeap.Proofs.Tiling
import RegionHeap.Proofs.Sound
import RegionHeap.Proofs.Sound.Edits
import RegionHeap.Proofs.Sound.Exchange
import RegionHeap.Proofs.Sound.Handing
import RegionHeap.Proofs.Sound.Calls
import RegionHeap.Proofs.Tenancy
import RegionHeap.Proofs.Sound.Close
import RegionHeap.Proofs.Sound.Reports
import RegionHeap.Proofs.Invariant
import RegionHeap.Proofs.Separation
import RegionHeap.Proofs.Contents
import RegionHeap.Proofs.Balance
import RegionHeap.Proofs.Retention
import RegionHeap.Proofs.Frees
import RegionHeap.Proofs.Overwrites
import RegionHeap.Proofs.Detection
import RegionHeap.Proofs.Rejection
import RegionHeap.Proofs.Atomicity
import RegionHeap.Proofs.Braid
import RegionHeap.Proofs.Sound.Undo
import RegionHeap.Proofs.Inverse
import RegionHeap.Proofs.Progress
import RegionHeap.Proofs.Lines
import RegionHeap.Proofs.Accounts
import RegionHeap.Proofs.Crowds
import RegionHeap.Proofs.LeakReports
import RegionHeap.Proofs.Sound.Listings
import RegionHeap.Proofs.Sound.Decisions
import RegionHeap.Proofs.Noninterference
import RegionHeap.Proofs.BestFit
import RegionHeap.Proofs.Zeroing
import RegionHeap.Proofs.Representable
import RegionHeap.Proofs.Sound.Tiled
import RegionHeap.Proofs.Coalescing
import RegionHeap.Proofs.Ledger.Ignored
import RegionHeap.Proofs.Resizing
import RegionHeap.Proofs.Multiples
import RegionHeap.Proofs.Environment
import RegionHeap.Proofs.StableOrder
import RegionHeap.Proofs.Splitting
