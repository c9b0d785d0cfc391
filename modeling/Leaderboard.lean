import Leaderboard.Bytes
import Leaderboard.Cache
import Leaderboard.Checksum
import Leaderboard.Codec.Basic
import Leaderboard.Codec.Fault
import Leaderboard.Failure
import Leaderboard.File
import Leaderboard.Lock
import Leaderboard.Log.Basic
import Leaderboard.Log.Buffer
import Leaderboard.Log.Entry
import Leaderboard.Log.Header
import Leaderboard.Proofs.Avl.Basic
import Leaderboard.Proofs.Avl.Path
import Leaderboard.Proofs.Avl.Subtree
import Leaderboard.Proofs.Cache.Accounting
import Leaderboard.Proofs.Cache.Eviction
import Leaderboard.Proofs.Cache.Finishing
import Leaderboard.Proofs.Cache.Invariant
import Leaderboard.Proofs.Cache.Remembering
import Leaderboard.Proofs.Cache.Scan
import Leaderboard.Proofs.Cache.Values
import Leaderboard.Proofs.Checksum
import Leaderboard.Proofs.Codec.RoundTrip
import Leaderboard.Proofs.File.Lawful
import Leaderboard.Proofs.Lock
import Leaderboard.Proofs.Log.Acceptance
import Leaderboard.Proofs.Log.Damage
import Leaderboard.Proofs.Log.Entries
import Leaderboard.Proofs.Log.Faults
import Leaderboard.Proofs.Log.Opening
import Leaderboard.Proofs.Log.Replaying
import Leaderboard.Proofs.Log.Rollback
import Leaderboard.Proofs.Log.Sessions
import Leaderboard.Proofs.Log.TornHeader
import Leaderboard.Proofs.Log.Use
import Leaderboard.Proofs.Log.Writing
import Leaderboard.Proofs.Ranking.Apart
import Leaderboard.Proofs.Ranking.Cached
import Leaderboard.Proofs.Ranking.Encoded
import Leaderboard.Proofs.Ranking.Listing
import Leaderboard.Proofs.Ranking.Mirror
import Leaderboard.Proofs.Ranking.Occupied
import Leaderboard.Proofs.Ranking.Order
import Leaderboard.Proofs.Ranking.Retrying
import Leaderboard.Proofs.Ranking.Tracking
import Leaderboard.Proofs.Ranking.Update
import Leaderboard.Proofs.Record.Addressing
import Leaderboard.Proofs.Record.Canonical
import Leaderboard.Proofs.Record.Layout
import Leaderboard.Proofs.Record.Rendering
import Leaderboard.Proofs.Store.Cached
import Leaderboard.Proofs.Store.Committing
import Leaderboard.Proofs.Store.Contents
import Leaderboard.Proofs.Store.Durable
import Leaderboard.Proofs.Store.Failing
import Leaderboard.Proofs.Store.Faithful
import Leaderboard.Proofs.Store.Faulty
import Leaderboard.Proofs.Store.Interrupted
import Leaderboard.Proofs.Store.Overlap
import Leaderboard.Proofs.Store.Recording
import Leaderboard.Proofs.Store.Reopening
import Leaderboard.Proofs.Store.Replies
import Leaderboard.Proofs.Store.Within
import Leaderboard.Proofs.Text
import Leaderboard.Proofs.Tree.Audit
import Leaderboard.Proofs.Tree.Circling
import Leaderboard.Proofs.Tree.Composed
import Leaderboard.Proofs.Tree.Crossing
import Leaderboard.Proofs.Tree.Damaged
import Leaderboard.Proofs.Tree.Descent
import Leaderboard.Proofs.Tree.Early
import Leaderboard.Proofs.Tree.Exposed
import Leaderboard.Proofs.Tree.Flush
import Leaderboard.Proofs.Tree.FullWalk
import Leaderboard.Proofs.Tree.Listing
import Leaderboard.Proofs.Tree.Live
import Leaderboard.Proofs.Tree.Map
import Leaderboard.Proofs.Tree.Mixture
import Leaderboard.Proofs.Tree.Owned
import Leaderboard.Proofs.Tree.Rebalance
import Leaderboard.Proofs.Tree.Refused
import Leaderboard.Proofs.Tree.Restoring
import Leaderboard.Proofs.Tree.Resuming
import Leaderboard.Proofs.Tree.Run
import Leaderboard.Proofs.Tree.Search
import Leaderboard.Proofs.Tree.Session
import Leaderboard.Proofs.Tree.Stale
import Leaderboard.Proofs.Tree.Standing
import Leaderboard.Proofs.Tree.Steady
import Leaderboard.Proofs.Tree.Survival
import Leaderboard.Proofs.Tree.Torn
import Leaderboard.Proofs.Tree.Update
import Leaderboard.Proofs.Tree.Validity
import Leaderboard.Proofs.Tree.Walk
import Leaderboard.Rank
import Leaderboard.Ranking
import Leaderboard.Record.Address
import Leaderboard.Record.Node
import Leaderboard.Record.Render
import Leaderboard.Settings
import Leaderboard.Store.Basic
import Leaderboard.Store.Cached
import Leaderboard.Store.Dialogue
import Leaderboard.Store.Durable
import Leaderboard.Store.Memory
import Leaderboard.Store.Metered
import Leaderboard.Text.Escaped
import Leaderboard.Text.Hex
import Leaderboard.Text.Quoted
import Leaderboard.Text.Standalone
import Leaderboard.Tree.Audit
import Leaderboard.Tree.Basic
import Leaderboard.Tree.Session
import Leaderboard.Tree.Update
import Leaderboard.Tree.Walk
