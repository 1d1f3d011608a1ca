import Daobell.Bencode.Canonical
import Daobell.Bencode.Delimiting
import Daobell.Bencode.Encoder
import Daobell.Bencode.Parser
import Daobell.Bencode.Reencoding
import Daobell.Bencode.RoundTrip
import Daobell.Bencode.Safety
import Daobell.Bencode.Scanning
import Daobell.Bencode.Stream
import Daobell.Bencode.Termination
import Daobell.Bencode.Text
import Daobell.Bencode.Value
import Daobell.CString
import Daobell.Cxx
import Daobell.Ftp.Conversation
import Daobell.Ftp.Downloader
import Daobell.Ftp.Passive
import Daobell.Ftp.Transcript
import Daobell.Ftp.Url
import Daobell.Ftp.UrlParts
import Daobell.Http.Capture
import Daobell.Http.ContentLength
import Daobell.Http.Downloader
import Daobell.Http.Ending
import Daobell.Http.Fetch
import Daobell.Http.Header
import Daobell.Http.Progress
import Daobell.Http.ProgressBar
import Daobell.Http.Ranges
import Daobell.Http.Reassembly
import Daobell.Http.Session
import Daobell.Http.Threads
import Daobell.Http.Url
import Daobell.Http.UrlParts
import Daobell.Lib.BigEndian
import Daobell.Lib.Chunks
import Daobell.Lib.Descent
import Daobell.Lib.Fairness
import Daobell.Lib.Gather
import Daobell.Lib.Ledger
import Daobell.Lib.Multimap
import Daobell.Lib.Numeral
import Daobell.Lib.OrderedMap
import Daobell.Lib.Parts
import Daobell.Lib.Paths
import Daobell.Lib.Percent
import Daobell.Lib.Query
import Daobell.Lib.Regex
import Daobell.Lib.Rounding
import Daobell.Lib.Runs
import Daobell.Lib.Segments
import Daobell.Lib.Triple
import Daobell.Peer.Accounting
import Daobell.Peer.Advertised
import Daobell.Peer.Asserts
import Daobell.Peer.Bitfield
import Daobell.Peer.Blocks
import Daobell.Peer.Choking
import Daobell.Peer.Completion
import Daobell.Peer.Connection
import Daobell.Peer.Exchange
import Daobell.Peer.Framing
import Daobell.Peer.Handshake
import Daobell.Peer.Header
import Daobell.Peer.InFlight
import Daobell.Peer.Indexes
import Daobell.Peer.Integrity
import Daobell.Peer.Interest
import Daobell.Peer.Liveness
import Daobell.Peer.Log
import Daobell.Peer.Message
import Daobell.Peer.MessageStream
import Daobell.Peer.Readiness
import Daobell.Peer.Segmentation
import Daobell.Peer.Serving
import Daobell.Peer.Sharing
import Daobell.Peer.Socket
import Daobell.Peer.Speaking
import Daobell.Peer.Transfer
import Daobell.Peer.Traversal
import Daobell.Peer.Unmapped
import Daobell.Sha1.Code
import Daobell.Sha1.Digest
import Daobell.Torrent.Aliasing
import Daobell.Torrent.Bounds
import Daobell.Torrent.Containment
import Daobell.Torrent.FileCalls
import Daobell.Torrent.Info
import Daobell.Torrent.InfoHash
import Daobell.Torrent.InfoSpec
import Daobell.Torrent.PieceRequest
import Daobell.Torrent.Renaming
import Daobell.Torrent.Selection
import Daobell.Torrent.Storage
import Daobell.Tracker.Announce
import Daobell.Tracker.Content
import Daobell.Tracker.Events
import Daobell.Tracker.Exchange
import Daobell.Tracker.HeaderLines
import Daobell.Tracker.Messages
import Daobell.Tracker.Overrun
import Daobell.Tracker.Receive
import Daobell.Tracker.Rejection
import Daobell.Tracker.Request
import Daobell.Tracker.Response
import Daobell.Tracker.ResponseRoundTrip
import Daobell.Utils
