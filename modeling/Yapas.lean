import Yapas.Reader
import Yapas.Text
import Yapas.Word
import Yapas.Mbuf
import Yapas.Prepare
import Yapas.Config
import Yapas.Numerals
import Yapas.CmdArgs
import Yapas.Actions
import Yapas.RuleText
import Yapas.Push
import Yapas.Lookup
import Yapas.Print
import Yapas.ActionFields
import Yapas.PortQueue
import Yapas.Detectors
import Yapas.Analyze
import Yapas.Proc
import Yapas.PortManager
import Yapas.Assignment
import Yapas.PacketManager
import Yapas.Ledger
import Yapas.Burst
import Yapas.Execution
import Yapas.LinkGate
import Yapas.Buffers
import Yapas.Interleaving
import Yapas.CriticalSections
import Yapas.Ownership
import Yapas.ProtocolStats
import Yapas.StatsReading
import Yapas.Forwarding
import Yapas.Timers
import Yapas.Relay
import Yapas.StatisticsQueue
import Yapas.ShortWrites
import Yapas.Gzip
import Yapas.ScpTransfer
import Yapas.EditConfig
import Yapas.EditFrame
import Yapas.EditFailures
import Yapas.CmdLine
import Yapas.Completion
import Yapas.SubCommands
import Yapas.ReadBack
import Yapas.EditAppend
import Yapas.Exactness
import Yapas.SchemeExactness
import Yapas.Classification
import Yapas.HeaderLengths
import Yapas.Editor
import Yapas.Terminal
import Yapas.Display
import Yapas.Browsing
import Yapas.SearchTree
import Yapas.FirstDifference
import Yapas.Readline
import Yapas.SafeMap
import Yapas.Session
import Yapas.KeyedList
import Yapas.EditSession
import Yapas.Zipper
import Yapas.LineEditor
import Yapas.History
import Yapas.StatisticsThreads
import Yapas.LineReader
import Yapas.GzipCompress
import Yapas.RuleOrder
import Yapas.RemoteCopy
import Yapas.HintOrder
import Yapas.RuleMeaning
