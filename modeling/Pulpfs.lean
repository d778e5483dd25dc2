import Pulpfs.Foundations.RootedTree
import Pulpfs.Foundations.Walk
import Pulpfs.Foundations.Transition
import Pulpfs.Foundations.Overlay
import Pulpfs.Messages
import Pulpfs.Meta.Extents
import Pulpfs.Meta.Namespace
import Pulpfs.Meta.Tree
import Pulpfs.Meta.TreeInvariant
import Pulpfs.Meta.Atomicity
import Pulpfs.Meta.Frame
import Pulpfs.Meta.Content
import Pulpfs.Meta.Service
import Pulpfs.Meta.Untimed
import Pulpfs.Meta.Replay
import Pulpfs.Meta.CatchUp
import Pulpfs.Foundations.ByteFile
import Pulpfs.Fuse.FileIo
import Pulpfs.Fuse.FlushRead
import Pulpfs.Fuse.Lifetime
import Pulpfs.Meta.Restore
import Pulpfs.Meta.EndOfFile
import Pulpfs.Fuse.Durability
import Pulpfs.Fuse.AppendRetry
import Pulpfs.Meta.LiveObjects
import Pulpfs.Foundations.SortedKeys
import Pulpfs.Gc.Interleaving
import Pulpfs.Fuse.ReadDir
import Pulpfs.Fuse.ReadBack
import Pulpfs.Fuse.SetAttr
import Pulpfs.Fuse.Posix
import Pulpfs.Meta.Copies
import Pulpfs.Meta.Links
import Pulpfs.Meta.Appends
import Pulpfs.Fuse.ObjectKeys
import Pulpfs.Gc.Readers
import Pulpfs.Fuse.Errnos
import Pulpfs.Meta.Wrapping
import Pulpfs.Meta.Renames
import Pulpfs.Meta.Commits
import Pulpfs.Meta.Positional
import Pulpfs.Fuse.ObjectRanges
import Pulpfs.Meta.Versions
import Pulpfs.Gc.Runs
import Pulpfs.Gc.Grace
import Pulpfs.Gc.Prefixes
import Pulpfs.Fuse.Timestamps
import Pulpfs.Fuse.Parents
import Pulpfs.Meta.Fragments
import Pulpfs.Foundations.ReplicatedLog
import Pulpfs.Foundations.ProtoWire
import Pulpfs.Meta.Handlers
import Pulpfs.Meta.WireFormat
import Pulpfs.Meta.Sendable
import Pulpfs.Meta.Cluster
import Pulpfs.Foundations.Hierarchy
import Pulpfs.Meta.PathOps
import Pulpfs.Fuse.Backed
import Pulpfs.Fuse.SessionRuns
import Pulpfs.Gc.Deployment
import Pulpfs.Gc.Sessions
