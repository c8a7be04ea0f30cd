import MyShell.Server.Lifetime
import MyShell.Server.Disconnect
import MyShell.Server.Preemption
import MyShell.Server.Quantum
import MyShell.Server.Responses
import MyShell.Server.Session
import MyShell.Server.EventLog
import MyShell.Server.Survival
import MyShell.Server.Arrival
import MyShell.Server.ByteCount
import MyShell.Server.Summary
import MyShell.Client
import MyShell.PointerQueue
import MyShell.SelectNext
import MyShell.Trace
import MyShell.DemoCommand
import MyShell.Locks
import MyShell.Server.Heap
import MyShell.Server.Handover
import MyShell.Parser.Pipeline
import MyShell.Parser.Spacing
import MyShell.Parser.Quoting
import MyShell.Parser.Limit
import MyShell.Parser.Printing
import MyShell.Parser.Access
import MyShell.Parser.Unterminated
import MyShell.Parser.InPlace
import MyShell.Shell.Executor
import MyShell.Shell.Echo
import MyShell.Shell.Intake
import MyShell.Server.Placement
import MyShell.Server.Drain
import MyShell.System.Network
import MyShell.System.Turns
import MyShell.System.Conversation
import MyShell.System.Exchanges
import MyShell.Lib.Fields
import MyShell.Shell.Validate
import MyShell.Shell.Session
import MyShell.Shell.Programs
import MyShell.Shell.Lines
import MyShell.Server.Chart
import MyShell.Lib.Reader
import MyShell.Server.Leaks
import MyShell.Server.LogFile
import MyShell.System.Ports
import MyShell.Server.Overtaking
import MyShell.Lib.Threads
import MyShell.Server.Deadlock
