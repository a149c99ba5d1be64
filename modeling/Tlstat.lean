import Tlstat.Base.Overwrite
import Tlstat.Tlsparse.Parse
import Tlstat.Tlsparse.Effect
import Tlstat.Tlsparse.Growing
import Tlstat.Base.Table
import Tlstat.Loader.Types
import Tlstat.Model.Conn
import Tlstat.Model.Store
import Tlstat.Base.Run
import Tlstat.Model.Spec
import Tlstat.Model.Track
import Tlstat.Model.CloseTiming
import Tlstat.Model.Finality
import Tlstat.Model.SockReuse
import Tlstat.Model.Chunking
import Tlstat.Bpf.Probes
import Tlstat.Bpf.Spec
import Tlstat.Bpf.Isolation
import Tlstat.Bpf.FlowReuse
import Tlstat.Loader.Codec
import Tlstat.System.Ring
import Tlstat.System.Reassembly
import Tlstat.System.OneRow
import Tlstat.System.SampleLife
import Tlstat.Base.Checked
import Tlstat.Tlsparse.Checked
import Tlstat.Tlsparse.Hello
import Tlstat.Tlsparse.Truncation
import Tlstat.Tlsparse.Leaf
import Tlstat.Model.SharedInfo
import Tlstat.Model.Proc
import Tlstat.Model.Attribution
import Tlstat.Base.Merge
import Tlstat.Tlsparse.Flags
import Tlstat.Model.Commute
import Tlstat.Model.Conservation
import Tlstat.Model.Classify
import Tlstat.Bpf.Capture
import Tlstat.Bpf.SslRead
import Tlstat.Bpf.SslStats
import Tlstat.Bpf.RecvPairs
import Tlstat.Bpf.Accepted
import Tlstat.Loader.Checked
import Tlstat.Base.Sorting
import Tlstat.Ui.Model
import Tlstat.System.History
import Tlstat.Base.Window
import Tlstat.Model.Endpoints
import Tlstat.Model.Fallback
import Tlstat.Model.Samples
import Tlstat.Model.Totals
import Tlstat.Tlsparse.Chain
import Tlstat.Tlsparse.Version
import Tlstat.System.SessionFd
import Tlstat.System.Message
import Tlstat.Ui.RowOrder
import Tlstat.Base.Runes
import Tlstat.Ui.Text
import Tlstat.Tlsparse.Names
import Tlstat.System.Hearing
import Tlstat.Ui.Plaintext
import Tlstat.Ui.Format
import Tlstat.Tlsparse.Labels
import Tlstat.Ui.Checked
import Tlstat.Ui.View
import Tlstat.Ui.Selection
import Tlstat.Base.Slice
import Tlstat.Model.Sharing
import Tlstat.Model.StableTails
import Tlstat.Model.Traces
import Tlstat.Model.Separation
import Tlstat.Model.Socket
import Tlstat.System.Feed
import Tlstat.System.Mirror
import Tlstat.System.Settle
import Tlstat.System.Spared
import Tlstat.Tlsparse.Opening
import Tlstat.System.Handshake
import Tlstat.Model.Times
import Tlstat.Ui.Refresh
import Tlstat.Model.Credits
import Tlstat.Loader.Lifecycle
import Tlstat.Ui.Panel
import Tlstat.Ui.Columns
import Tlstat.Model.Listing
import Tlstat.System.Provenance
import Tlstat.System.Footprint
import Tlstat.System.Bytes
import Tlstat.Ui.Sizes
import Tlstat.Tlsparse.Search
import Tlstat.Loader.Libssl
import Tlstat.Tlsparse.Shown
import Tlstat.System.Certificate
import Tlstat.System.Pieces
import Tlstat.Tlsparse.Sound
import Tlstat.Tlsparse.Carried
import Tlstat.System.Sent
