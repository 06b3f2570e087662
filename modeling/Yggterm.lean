import Yggterm.AgentInput.Credits
import Yggterm.AttachSeed.Replay
import Yggterm.AttachSeed.Seed
import Yggterm.Automations.Alarms
import Yggterm.Automations.Cadence
import Yggterm.Automations.Calendar
import Yggterm.Automations.CalendarText
import Yggterm.Browser.Labels
import Yggterm.Browser.Rows
import Yggterm.Browser.ShortIds
import Yggterm.Browser.Stepping
import Yggterm.ClickGrid.Codes
import Yggterm.Clipboard.Backstop
import Yggterm.Clipboard.References
import Yggterm.Clipboard.Sweep
import Yggterm.Clipboard.Trashing
import Yggterm.Clipboard.Untouched
import Yggterm.Collections.Bookmarks
import Yggterm.Collections.Ids
import Yggterm.Collections.Imports
import Yggterm.Collections.Links
import Yggterm.Collections.Prune
import Yggterm.Collections.Survival
import Yggterm.CommandLine.Flags
import Yggterm.CwdTree.Complete
import Yggterm.CwdTree.Compression
import Yggterm.CwdTree.Display
import Yggterm.EchoSubmit.Arrival
import Yggterm.EchoSubmit.Keystrokes
import Yggterm.HostAnomalies.Network
import Yggterm.HostAnomalies.Plane
import Yggterm.HotRestart.Queue
import Yggterm.HotRestart.Recorders
import Yggterm.HotRestart.Repair
import Yggterm.InputLine.Cuts
import Yggterm.InputLine.Paste
import Yggterm.InputLine.Provenance
import Yggterm.InputLine.Refusal
import Yggterm.InputLine.Submit
import Yggterm.KeyTips.Badges
import Yggterm.KeyTips.Faithful
import Yggterm.KeyTips.Model
import Yggterm.KeyTips.Numbers
import Yggterm.KeyTips.Shapes
import Yggterm.KeyTips.Uniqueness
import Yggterm.KeyTips.Walks
import Yggterm.Library.Duplicates
import Yggterm.Library.Expansions
import Yggterm.Library.HashMaps
import Yggterm.Library.Insertions
import Yggterm.Library.Ladders
import Yggterm.Library.Modes
import Yggterm.Library.Neighbours
import Yggterm.Library.OrderedForest
import Yggterm.Library.Recalls
import Yggterm.Library.Rings
import Yggterm.Library.Runs
import Yggterm.Library.Scans
import Yggterm.Library.Utf8
import Yggterm.Library.Worklists
import Yggterm.OpencodeMirror.Births
import Yggterm.OpencodeMirror.Launches
import Yggterm.OpencodeMirror.Removals
import Yggterm.OpencodeMirror.Seats
import Yggterm.Ownership.Writers
import Yggterm.PtyHandoff.Report
import Yggterm.Reader.AppDeclare
import Yggterm.Reader.OneChunk
import Yggterm.Reader.ReadBoundaries
import Yggterm.Reader.TitleTracker
import Yggterm.Reader.Utf8Chunks
import Yggterm.ReaderParks.Requests
import Yggterm.RemoteRuntime.SingleWriter
import Yggterm.Retention.Rotation
import Yggterm.Retention.Streams
import Yggterm.Retirement.Settle
import Yggterm.RowOrder.Ledger
import Yggterm.RowOrder.Reconcile
import Yggterm.RowOrder.Returns
import Yggterm.RowSanity.Sweep
import Yggterm.RowSets.Arrangement
import Yggterm.RowSets.Chains
import Yggterm.RowSets.ChildSeats
import Yggterm.RowSets.Drawing
import Yggterm.RowSets.Loading
import Yggterm.RowSets.Placement
import Yggterm.RowSets.RetainLive
import Yggterm.RowSets.SeatOrder
import Yggterm.ScanMemo.Coherent
import Yggterm.ScreenWalk.Rewalk
import Yggterm.SessionErrors.Scanner
import Yggterm.SessionPaths.Addresses
import Yggterm.SocketSweep.Rounds
import Yggterm.Tenancy.Processes
import Yggterm.Tenancy.Stamps
import Yggterm.TerminalStream.Gaps
import Yggterm.TerminalStream.Stamps
import Yggterm.Tombstones.Closing
import Yggterm.Tombstones.Departures
import Yggterm.Tombstones.Shared
import Yggterm.Transcripts.Tail
import Yggterm.WebHistory.Merge
import Yggterm.WebProfiles.CookieJar
import Yggterm.WebProfiles.WriteLock
import Yggterm.Workspace.Delete
import Yggterm.Workspace.Move
import Yggterm.Workspace.Open
import Yggterm.Ynpm.DevLinks
import Yggterm.Ynpm.Downgrades
import Yggterm.Ynpm.Forcing
import Yggterm.Ynpm.Retention
import Yggterm.Ynpm.Rollback
import Yggterm.Ynpm.Sharing
import Yggterm.Ynpm.Versions
