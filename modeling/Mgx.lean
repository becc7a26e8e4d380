import Mgx.Lib.Runs
import Mgx.Lib.Chunks
import Mgx.Lib.CMem
import Mgx.Lib.Slots
import Mgx.Lib.KeyTable
import Mgx.Lib.Inflow
import Mgx.Lib.Crc
import Mgx.Lib.Crew
import Mgx.Lib.Paths
import Mgx.Lib.Bounded
import Mgx.Lib.Multimap
import Mgx.Lib.Numeral
import Mgx.Comm
import Mgx.Printf
import Mgx.Number
import Mgx.FormatEnd
import Mgx.Request
import Mgx.Framing
import Mgx.Send
import Mgx.ConnPool
import Mgx.Generation
import Mgx.SendQueue
import Mgx.SendOrder
import Mgx.Events
import Mgx.Dispatch
import Mgx.TimerQueue
import Mgx.Heartbeat
import Mgx.HeartbeatEntries
import Mgx.HttpRequest
import Mgx.Strings
import Mgx.HttpSegment
import Mgx.HttpResponse
import Mgx.Logic
import Mgx.ThreadPool
import Mgx.RecvReuse
import Mgx.Equipped
import Mgx.HttpDeliver
import Mgx.StaticFile
import Mgx.ProcessCycle
import Mgx.Coroutine
import Mgx.HttpOrder
import Mgx.SendThreads
import Mgx.SendWake
import Mgx.Log
import Mgx.LogReport
import Mgx.HttpBody
import Mgx.HttpReader
import Mgx.HttpRequestLine
import Mgx.HttpHeaders
import Mgx.Mime
import Mgx.HandlerRead
import Mgx.TimerDrain
import Mgx.CoSleep
import Mgx.RecySweep
import Mgx.SchedTimeout
import Mgx.WriteInterest
import Mgx.Completion
import Mgx.PoolInterrupt
import Mgx.PoolShutdown
import Mgx.FileServe
import Mgx.TimerCache
import Mgx.CoAssert
import Mgx.Conf
import Mgx.Mysql
import Mgx.Lib.Machine
import Mgx.Switch
import Mgx.SchedFair
import Mgx.Lib.CrcPeriod
import Mgx.TwoBits
import Mgx.Replies
import Mgx.HttpServer
import Mgx.Lib.FdTable
import Mgx.LogFile
import Mgx.ProcTitle
import Mgx.LogPath
import Mgx.Lib.Journal
import Mgx.Sessions
import Mgx.SendWire
import Mgx.TcpServer
import Mgx.TcpAnswers
import Mgx.Lib.Message
import Mgx.HttpClient
import Mgx.HttpQuery
import Mgx.HttpSequence
