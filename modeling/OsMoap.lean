import OsMoap.Lib.Slices
import OsMoap.Lib.Selection
import OsMoap.Lib.FileTree
import OsMoap.Lib.FileRoom
import OsMoap.Lib.Lines
import OsMoap.Lib.Machine
import OsMoap.Lib.Program
import OsMoap.Lib.Glob
import OsMoap.Lib.Table
import OsMoap.Lib.Buckets
import OsMoap.Lib.Ring
import OsMoap.Lib.Edges
import OsMoap.Lib.Bounded
import OsMoap.Lib.Terminal
import OsMoap.Lib.Scope
import OsMoap.Lib.Simulation
import OsMoap.Lib.Undo
import OsMoap.Pack.PyText
import OsMoap.Pack.Ustar
import OsMoap.Pack.Cards
import OsMoap.Pack.CardsDecode
import OsMoap.Pack.CardSet
import OsMoap.Pack.Version
import OsMoap.Pack.VersionOrder
import OsMoap.Pack.Revisions
import OsMoap.Pack.Reindex
import OsMoap.Pack.Tracker
import OsMoap.Pack.IndexOrder
import OsMoap.Pack.Stage
import OsMoap.Pack.Reproducible
import OsMoap.Pack.TarRead
import OsMoap.Pack.Repo
import OsMoap.Pack.Published
import OsMoap.Pack.Descriptions
import OsMoap.Apk.Tar
import OsMoap.Apk.Commands
import OsMoap.Apk.Effects
import OsMoap.Apk.Stanza
import OsMoap.Apk.Database
import OsMoap.Apk.Runs
import OsMoap.Apk.Files
import OsMoap.Apk.World
import OsMoap.Apk.Removal
import OsMoap.Apk.Upgrade
import OsMoap.Apk.RoundTrip
import OsMoap.Apk.HomeFiles
import OsMoap.Apk.Truncation
import OsMoap.Apk.Boot
import OsMoap.Apk.Converge
import OsMoap.Apk.Metadata
import OsMoap.Guest.Tty
import OsMoap.Guest.SpawnArgs
import OsMoap.Guest.TempFiles
import OsMoap.Guest.DoomInput
import OsMoap.Guest.DoomKeys
import OsMoap.Guest.DoomFrame
import OsMoap.Guest.DoomStream
import OsMoap.Guest.DoomTerminal
import OsMoap.Shell.Captures
import OsMoap.Guest.ZshNofork
import OsMoap.Shell.Io
import OsMoap.Shell.State
import OsMoap.Shell.Redirect
import OsMoap.Shell.Pipeline
import OsMoap.Shell.Stdin
import OsMoap.Shell.Backquote
import OsMoap.Shell.Eval
import OsMoap.Shell.Containment
import OsMoap.Shell.Quiet
import OsMoap.Shell.PathWalk
import OsMoap.Shell.Spawn
import OsMoap.Shell.Frames
import OsMoap.Shell.Isolation
import OsMoap.Shell.Delivery
import OsMoap.Shell.Flow
import OsMoap.Shell.Restore
import OsMoap.Shell.Unwind
import OsMoap.Shell.Vars
import OsMoap.Shell.VarsOps
import OsMoap.Shell.Scopes
import OsMoap.Shell.ScopeRuns
import OsMoap.Shell.Arena
import OsMoap.Shell.ArenaSafety
import OsMoap.Shell.CmdTable
import OsMoap.Shell.CmdSearch
import OsMoap.Shell.CmdCache
import OsMoap.Shell.CmdRun
import OsMoap.Shell.Cd
