import NetCpp.Library.Decimal
import NetCpp.Library.Runs
import NetCpp.Basic
import NetCpp.Message
import NetCpp.Factory
import NetCpp.Parser
import NetCpp.Proofs.Checksum
import NetCpp.Proofs.Frames
import NetCpp.Proofs.RoundTrip
import NetCpp.Proofs.Accepted
import NetCpp.Proofs.Normal
import NetCpp.Proofs.Chunking
import NetCpp.Proofs.Wedge
import NetCpp.Proofs.Scan
import NetCpp.Proofs.Resync
import NetCpp.Proofs.Readable
import NetCpp.Proofs.Delivery
import NetCpp.Proofs.Stream
import NetCpp.Library.LittleEndian
import NetCpp.Library.Slots
import NetCpp.Memory
import NetCpp.Proofs.Packets
import NetCpp.Proofs.Passes
import NetCpp.NetBox
import NetCpp.Proofs.Fragments
import NetCpp.Proofs.Boxes
import NetCpp.Proofs.Listener
import NetCpp.Proofs.Reassembly
import NetCpp.Proofs.Arrivals
import NetCpp.Proofs.Pushes
import NetCpp.Rsa
import NetCpp.Library.ModularPower
import NetCpp.Proofs.Rsa
import NetCpp.Posts
import NetCpp.Proofs.Posts
import NetCpp.Proofs.Received
import NetCpp.Proofs.Requests
import NetCpp.Proofs.Square
import NetCpp.Proofs.Registered
import NetCpp.Client
import NetCpp.Proofs.Clicks
import NetCpp.BlocksPool
import NetCpp.CThread
import NetCpp.Library.Counts
import NetCpp.Proofs.Blocks
import NetCpp.Proofs.Balance
import NetCpp.Proofs.Framed
import NetCpp.Proofs.Altered
import NetCpp.Proofs.Isolation
import NetCpp.Proofs.Missing
import NetCpp.Proofs.Pushed
import NetCpp.Proofs.Appended
import NetCpp.Proofs.Bounds
import NetCpp.Proofs.Sending
import NetCpp.Proofs.Receiving
import NetCpp.Proofs.Responds
import NetCpp.Library.Strings
import NetCpp.Proofs.Calls
import NetCpp.Proofs.Capacity
import NetCpp.SettingFile
import NetCpp.Proofs.Documents
import NetCpp.Proofs.Overshoots
import NetCpp.Cpt
import NetCpp.Proofs.Args
import NetCpp.Proofs.Files
import NetCpp.Proj
import NetCpp.Proofs.Columns
import NetCpp.Proofs.Updates
import NetCpp.Library.Queues
import NetCpp.Queues
import NetCpp.Proofs.Fifo
import NetCpp.Proofs.Contained
import NetCpp.Clock
import NetCpp.Proofs.Clocks
import NetCpp.Proofs.KeyChain
import NetCpp.ComputeResult
import NetCpp.Proofs.Results
import NetCpp.Addr
import NetCpp.Proofs.Addresses
import NetCpp.Library.Maps
import NetCpp.Proofs.Locks
import NetCpp.Aes
import NetCpp.Library.BlockModes
import NetCpp.Library.XorMaps
import NetCpp.Proofs.Cipher
import NetCpp.Proofs.Counter
import NetCpp.Proofs.Intact
import NetCpp.Proofs.KeySchedule
import NetCpp.Proofs.Modes
import NetCpp.Proofs.Once
import NetCpp.Proofs.Secrecy
import NetCpp.Library.SecureHash
import NetCpp.Proofs.Compression
import NetCpp.Proofs.Digest
import NetCpp.Proofs.Orphans
import NetCpp.Exchange
import NetCpp.Proofs.Answers
import NetCpp.Proofs.Callbacks
import NetCpp.Proofs.Exchanges
import NetCpp.Library.Mixing
import NetCpp.Proofs.Draws
import NetCpp.CptContent
import NetCpp.Proofs.Declarations
import NetCpp.Proofs.Descriptions
import NetCpp.ProjContent
import NetCpp.Proofs.ProjectFiles
