import LiveTree.Decimal.Layout
import LiveTree.Double.Width
import LiveTree.Digest.Basic
import LiveTree.Json.Writer
import LiveTree.Json.Reader
import LiveTree.Cbor.Writer
import LiveTree.Cbor.Reader
import LiveTree.OrderedMap.Check
import LiveTree.Path.Basic
import LiveTree.Node.Diagnostic
import LiveTree.Cache.Check
import LiveTree.Frame.Message
import LiveTree.PushKey
import LiveTree.EventLoop
import LiveTree.Exchange
import LiveTree.Probe
import LiveTree.Vectors
import LiveTree.Proofs.OrderedMap.Subtree
import LiveTree.Proofs.OrderedMap.Reference
import LiveTree.Proofs.Path.Order
import LiveTree.Proofs.Listens.Replay
import LiveTree.Proofs.Cache.Digests
import LiveTree.Proofs.Network.Convergence
import LiveTree.Proofs.Subscriptions.Affected
import LiveTree.Proofs.Subscriptions.Baselines
import LiveTree.Proofs.Session.Calls
import LiveTree.Proofs.Session.Notifications
import LiveTree.Proofs.Session.Numbers
import LiveTree.Proofs.Session.Requests
import LiveTree.Proofs.Session.Conservation
import LiveTree.Proofs.Digest.Text
import LiveTree.Proofs.Node.Identity
import LiveTree.Proofs.Cache.Puts
import LiveTree.Proofs.Cache.Merges
import LiveTree.Proofs.Session.Flow
import LiveTree.Proofs.Session.Resending
import LiveTree.Proofs.Session.Credentials
import LiveTree.Proofs.Session.Answers
import LiveTree.Proofs.Node.Wire
import LiveTree.Proofs.Frame.RoundTrip
import LiveTree.Proofs.Cache.Snapshots
import LiveTree.Proofs.Cbor.RoundTrip
import LiveTree.Proofs.Session.References
import LiveTree.Proofs.Session.Alignment
import LiveTree.Proofs.Subscriptions.Children
import LiveTree.Proofs.Subscriptions.Mirror
import LiveTree.Proofs.Session.Reconnects
import LiveTree.Proofs.Session.Timers
import LiveTree.Proofs.PushKey.Ascending
import LiveTree.Proofs.Cache.Checks
import LiveTree.Proofs.Path.Laws
import LiveTree.Proofs.Path.Scans
import LiveTree.Proofs.Listens.Resuming
import LiveTree.Proofs.Node.Reordered
import LiveTree.Proofs.Path.Grammar
import LiveTree.Proofs.Json.Normalizing
import LiveTree.Proofs.Cbor.Accepted
import LiveTree.Proofs.Network.FanOut
import LiveTree.Proofs.OrderedMap.Walks
import LiveTree.Proofs.OrderedMap.Heights
