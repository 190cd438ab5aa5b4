import Nlutils.UrlReq.Moves
import Nlutils.UrlReq.Ownership
import Nlutils.UrlReq.Freed
import Nlutils.UrlReq.LockBalance
import Nlutils.UrlReq.Notified
import Nlutils.UrlReq.Shutdown
import Nlutils.Escape
import Nlutils.Fifo.Code
import Nlutils.Fifo.Concat
import Nlutils.Fifo.Iteration
import Nlutils.Hash.Clone
import Nlutils.Hash.Refinement
import Nlutils.Kvp.Quoting
import Nlutils.Kvp.RoundTrip
import Nlutils.UrlReq.CurlOption
import Nlutils.UrlReq.LineLocality
import Nlutils.Escape.RoundTrip
import Nlutils.Escape.Data
import Nlutils.Kvp.Containment
import Nlutils.Timespec
import Nlutils.Variant.Compare
import Nlutils.Variant.Text
import Nlutils.Term.Acceptance
import Nlutils.Term.Consistency
import Nlutils.Term.Provenance
import Nlutils.Url.RoundTrip
import Nlutils.UrlReq.Form
import Nlutils.UrlReq.FormLiteral
import Nlutils.Escape.InPlace
import Nlutils.Kvp.DeliveredType
import Nlutils.Kvp.Numbers
import Nlutils.Kvp.Slices
import Nlutils.Variant.Integer
import Nlutils.Variant.Copy
import Nlutils.Timespec.Compare
import Nlutils.Term.Exchange
import Nlutils.Term.Repetition
import Nlutils.Fifo.Contracts
import Nlutils.UrlReq.ResponseCode
import Nlutils.UrlReq.FormOwnership
import Nlutils.Hash.Atomic
import Nlutils.Str.Search
import Nlutils.Str.Hex
import Nlutils.Net
import Nlutils.Mem
import Nlutils.UrlReq.Timeouts
import Nlutils.Stream
import Nlutils.Exec
import Nlutils.Thread.Registry
import Nlutils.UrlReq.Cloning
import Nlutils.UrlReq.StartRefinement
import Nlutils.Timespec.Range
import Nlutils.Term.Tokens
import Nlutils.Sha1.Digest
import Nlutils.Exec.ReadAll
import Nlutils.Exec.Inherited
import Nlutils.UrlReq.Result
import Nlutils.Kvp.Records
import Nlutils.Str.KeepHex
import Nlutils.Str.Affixes
import Nlutils.Thread.TimeoutLock
import Nlutils.Thread.Signals
import Nlutils.Variant.Owned
import Nlutils.Variant.Display
import Nlutils.Stream.Copy
import Nlutils.UrlReq.ControlPipe
