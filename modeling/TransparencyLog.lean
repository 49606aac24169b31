import TransparencyLog.Config.Settings
import TransparencyLog.Daemon.Serve
import TransparencyLog.Daemon.Setup
import TransparencyLog.Follow.Network
import TransparencyLog.Main
import TransparencyLog.Proofs.Auth
import TransparencyLog.Proofs.Binary
import TransparencyLog.Proofs.Collision
import TransparencyLog.Proofs.Daemon.Remote
import TransparencyLog.Proofs.Daemon.Serving
import TransparencyLog.Proofs.Daemon.Setup
import TransparencyLog.Proofs.Daemon.Submissions
import TransparencyLog.Proofs.Data.Json
import TransparencyLog.Proofs.Decoding
import TransparencyLog.Proofs.Follow.Accounting
import TransparencyLog.Proofs.Follow.Answers
import TransparencyLog.Proofs.Follow.Cancellation
import TransparencyLog.Proofs.Follow.Group
import TransparencyLog.Proofs.Follow.Honest
import TransparencyLog.Proofs.Follow.Persisted
import TransparencyLog.Proofs.Follow.Trust
import TransparencyLog.Proofs.Forms
import TransparencyLog.Proofs.Framing
import TransparencyLog.Proofs.Hexadecimal
import TransparencyLog.Proofs.Http
import TransparencyLog.Proofs.Ledger.Acceptance
import TransparencyLog.Proofs.Ledger.Grouping
import TransparencyLog.Proofs.Ledger.Issued
import TransparencyLog.Proofs.Ledger.Lookups
import TransparencyLog.Proofs.Ledger.Operations
import TransparencyLog.Proofs.Ledger.Publication
import TransparencyLog.Proofs.Ledger.Recorded
import TransparencyLog.Proofs.Ledger.Refinement
import TransparencyLog.Proofs.Ledger.Session
import TransparencyLog.Proofs.Ledger.Shared
import TransparencyLog.Proofs.Ledger.Submission
import TransparencyLog.Proofs.Ledger.Tracked
import TransparencyLog.Proofs.Ledger.Volume
import TransparencyLog.Proofs.Numerals
import TransparencyLog.Proofs.Outcome
import TransparencyLog.Proofs.PrefixCode
import TransparencyLog.Proofs.Quorum.Agreement
import TransparencyLog.Proofs.Quorum.Fallback
import TransparencyLog.Proofs.Quorum.Reordering
import TransparencyLog.Proofs.Signatures
import TransparencyLog.Proofs.SparseMap.Addressed
import TransparencyLog.Proofs.SparseMap.Binding
import TransparencyLog.Proofs.SparseMap.Canonical
import TransparencyLog.Proofs.SparseMap.Compressed
import TransparencyLog.Proofs.SparseMap.Halves
import TransparencyLog.Proofs.SparseMap.Keyed
import TransparencyLog.Proofs.SparseMap.Stored
import TransparencyLog.Proofs.SparseMap.Tree
import TransparencyLog.Proofs.SparseMap.Versions
import TransparencyLog.Proofs.Store.Commit
import TransparencyLog.Proofs.Store.Count
import TransparencyLog.Proofs.Store.Crash
import TransparencyLog.Proofs.Store.File
import TransparencyLog.Proofs.Store.Paths
import TransparencyLog.Proofs.Store.Transaction
import TransparencyLog.Proofs.Store.Write
import TransparencyLog.Proofs.Text
import TransparencyLog.Proofs.Tool.Decision
import TransparencyLog.Proofs.Tool.KeyPath
import TransparencyLog.Proofs.Tree.Audit
import TransparencyLog.Proofs.Tree.Checked
import TransparencyLog.Proofs.Tree.Consistency
import TransparencyLog.Proofs.Tree.Descent
import TransparencyLog.Proofs.Tree.Growth
import TransparencyLog.Proofs.Tree.Inclusion
import TransparencyLog.Proofs.Tree.Nodes
import TransparencyLog.Proofs.Tree.Paths
import TransparencyLog.Proofs.Tree.Positions
import TransparencyLog.Proofs.Tree.Root
import TransparencyLog.Proofs.Tree.Safety
import TransparencyLog.Proofs.Tree.Turns
import TransparencyLog.Proofs.Tree.Words
import TransparencyLog.Proofs.Wire
