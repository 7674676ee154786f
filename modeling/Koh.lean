import Koh.Lib.Transducer
import Koh.Lib.Wp
import Koh.Lib.Names
import Koh.Lib.Namei
import Koh.Lib.Reach
import Koh.Lib.Dict
import Koh.Lib.Framed
import Koh.Lib.Way
import Koh.Lib.Wild
import Koh.Lib.Postcard
import Koh.Wire.Bounded
import Koh.Stream.Utf8
import Koh.Stream.Judge
import Koh.Stream.Filter
import Koh.Stream.Reader
import Koh.Stream.Splits
import Koh.Stream.Sequence
import Koh.Stream.Questions
import Koh.Stream.Number
import Koh.Stream.Pieces
import Koh.Stream.Bounds
import Koh.Lib.Vt
import Koh.Terminal.Redraw
import Koh.Terminal.Painted
import Koh.Terminal.Placed
import Koh.Sync.Item
import Koh.Sync.Glob
import Koh.Sync.Language
import Koh.Sync.Exclude
import Koh.Sync.Fsat
import Koh.Sync.Receive
import Koh.Sync.Confined
import Koh.Sync.Tree
import Koh.Sync.Effect
import Koh.Sync.Runs
import Koh.Sync.Send
import Koh.Sync.System
import Koh.Sync.Prune
import Koh.Sync.Resolved
import Koh.Sync.Merge
import Koh.Sync.Civil
import Koh.Sync.Script
import Koh.Sync.Hears
import Koh.Sync.Follows
import Koh.Sync.Protocol
import Koh.Sync.Beneath
import Koh.Jobs.Log
import Koh.Jobs.Reader
import Koh.Server.Allow
import Koh.Server.Sessions
import Koh.Server.Detach
import Koh.Server.Shown
import Koh.Server.Marks
import Koh.Server.Session
import Koh.Server.Begin
import Koh.Server.Echo
import Koh.Server.Acked
import Koh.Server.Queues
import Koh.Server.Typing
import Koh.Server.Taken
import Koh.Server.Pace
import Koh.Server.Place
import Koh.Server.Scoped
import Koh.Client.Wire
import Koh.Client.Epochs
import Koh.Predict.Engine
import Koh.Predict.Typing
import Koh.Predict.Proved
import Koh.Predict.Secret
import Koh.Predict.Halves
import Koh.Predict.Whole
import Koh.Connection.Link
import Koh.Connection.Read
import Koh.Connection.Wedge
import Koh.Connection.Told
import Koh.Connection.Hosted
import Koh.Jobs.Table
import Koh.Lib.Disk
import Koh.Identity.KeyFile
import Koh.Identity.Agree
import Koh.Sync.Dest
import Koh.Sync.DryRun
import Koh.Sync.Levels
import Koh.Server.Writer
import Koh.Wire.Frame
import Koh.Wire.Shown
import Koh.Wire.Answer
import Koh.Wire.Listing
import Koh.Sync.Encoded
import Koh.Sync.Fits
import Koh.Server.Whole
import Koh.Server.Carried
import Koh.Lib.Lines
import Koh.Lib.Search
import Koh.Jobs.Tail
import Koh.Jobs.Waiting
import Koh.Jobs.Places
import Koh.Server.Settling
import Koh.Server.Pending
import Koh.Wire.Splits
import Koh.Lib.Release
import Koh.Sync.Moments
import Koh.Sync.Settled
import Koh.Sync.Single
import Koh.Sync.Last
import Koh.Lib.Words
import Koh.Lib.Digits
import Koh.Lib.SocketAddr
import Koh.Saved.Entry
import Koh.Saved.Names
import Koh.Saved.Kept
import Koh.Saved.Clients
import Koh.Saved.Beside
import Koh.Input.Keys
import Koh.Input.Queue
import Koh.Input.Written
import Koh.Lib.Log
import Koh.Lib.Fair
import Koh.Pty.Program
import Koh.Pty.Hangup
import Koh.Pty.Reaped
import Koh.Pty.Budget
