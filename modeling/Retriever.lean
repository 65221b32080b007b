import Retriever.Lib.BigEndian
import Retriever.Lib.Proc
import Retriever.Lib.Store
import Retriever.Lib.Pool
import Retriever.Lib.Leases
import Retriever.Lib.Linear
import Retriever.Lib.Resources
import Retriever.Lib.Faults
import Retriever.Sha256.Fips180
import Retriever.Sha256.Stream
import Retriever.Sha256.Refine
import Retriever.Sys
import Retriever.PyLib
import Retriever.Protocol
import Retriever.Calls
import Retriever.Client
import Retriever.CClient.Frame
import Retriever.CClient.Main
import Retriever.CClient.Transfer
import Retriever.Server
import Retriever.Names
import Retriever.Directory
import Retriever.Paths
import Retriever.Frames
import Retriever.Machine
import Retriever.Wire
import Retriever.Codec
import Retriever.Server.GetView
import Retriever.Server.World
import Retriever.Server.Phases
import Retriever.Server.Invariant
import Retriever.Server.Publication
import Retriever.Server.Immutable
import Retriever.Server.Uploads
import Retriever.Server.Resume
import Retriever.Server.Race
import Retriever.Server.Snapshot
import Retriever.Server.Reservations
import Retriever.Server.Slots
import Retriever.Server.Segments
import Retriever.Server.Put
import Retriever.Server.Drive
import Retriever.Server.Limits
import Retriever.Server.Listing
import Retriever.Server.Get
import Retriever.Server.Smooth
import Retriever.Server.Discipline
import Retriever.Globs
import Retriever.Destination
import Retriever.Partials
import Retriever.Download
import Retriever.Served
import Retriever.Fetch
import Retriever.Exchange
import Retriever.Leftovers
import Retriever.Delivered
import Retriever.Reply
import Retriever.Intake
import Retriever.Neighbours
import Retriever.Tokens
import Retriever.Requests
import Retriever.Upload
import Retriever.Stored
import Retriever.Verdicts
import Retriever.RoundTrip
import Retriever.Histories
import Retriever.WireNames
import Retriever.Server.Sweep
import Retriever.CClient.Socket
import Retriever.ExactIo
import Retriever.Printed
import Retriever.Endings
import Retriever.ExitCodes
import Retriever.Completions
import Retriever.Retry
import Retriever.Statuses
import Retriever.Server.Shelf
import Retriever.Server.Record
import Retriever.Server.Naming
import Retriever.Server.Replies
import Retriever.Server.Linearizable
import Retriever.Server.Restart
import Retriever.Server.Locked
import Retriever.CClient.Resources
import Retriever.CClient.Releases
import Retriever.Server.Dialogue
import Retriever.Server.Assured
import Retriever.Network.Clients
import Retriever.Network.Model
import Retriever.Network.Course
import Retriever.Network.Commands
import Retriever.Network.Delivery
import Retriever.Network.Eras
