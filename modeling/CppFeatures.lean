import CppFeatures.Runs
import CppFeatures.Pool
import CppFeatures.Placement
import CppFeatures.CriticalSections
import CppFeatures.BlockObject
import CppFeatures.Semaphores
import CppFeatures.CoMutex
import CppFeatures.CoRWMutex
import CppFeatures.RWProgress
import CppFeatures.Channel
import CppFeatures.ChannelSafety
import CppFeatures.ChannelSteps
import CppFeatures.ChannelVoid
import CppFeatures.ChannelRendezvous
import CppFeatures.ChannelTryPop
import CppFeatures.ChannelTimed
import CppFeatures.WaitTable
import CppFeatures.LinkedHeap
import CppFeatures.TsQueue
import CppFeatures.TsQueueFifo
import CppFeatures.TsQueueLinear
import CppFeatures.TsQueueBulk
import CppFeatures.WakeupHeap
import CppFeatures.TaskLists
import CppFeatures.BlockWakeup
import CppFeatures.SwapFailure
import CppFeatures.Timer
import CppFeatures.TimerRace
import CppFeatures.TimerStore
import CppFeatures.DoTimer
import CppFeatures.IoWait
import CppFeatures.GlibcHook
import CppFeatures.PollSelect
import CppFeatures.Scheduler
import CppFeatures.Ownership
import CppFeatures.Threads
import CppFeatures.ThreadSteps
import CppFeatures.ThreadProcs
import CppFeatures.ThreadTasks
import CppFeatures.ThreadSleep
import CppFeatures.AsyncWait
import CppFeatures.IoLedger
import CppFeatures.IoSteps
import CppFeatures.IoRegistrations
import CppFeatures.IoReferences
import CppFeatures.IoTimers
import CppFeatures.IoTimeouts
import CppFeatures.IoReports
import CppFeatures.LoggedWaits
import CppFeatures.PollReports
import CppFeatures.OpenFiles
import CppFeatures.CancelRace
import CppFeatures.NetworkError
import CppFeatures.TcpReceive
import CppFeatures.TcpSend
import CppFeatures.TcpSession
import CppFeatures.TcpLink
import CppFeatures.HttpEngine
import CppFeatures.HttpHead
import CppFeatures.HttpGrammar
import CppFeatures.HttpRoundTrip
import CppFeatures.HttpValues
import CppFeatures.HttpSetters
import CppFeatures.HttpChunks
import CppFeatures.Trie
import CppFeatures.HttpTrie
import CppFeatures.Regex
import CppFeatures.Url
import CppFeatures.UrlParts
import CppFeatures.Endpoint
import CppFeatures.SharedStack
import CppFeatures.DoRunnable
import CppFeatures.FairShare
import CppFeatures.IdleBackoff
import CppFeatures.TcpServer
import CppFeatures.TcpClient
import CppFeatures.UdpPoint
import CppFeatures.NetOptions
import CppFeatures.HookFlags
import CppFeatures.HookRestore
import CppFeatures.HookTimeouts
import CppFeatures.WinHook
