import DialdTop.AccessDecision
import DialdTop.Authorisation
import DialdTop.ClientDisplay
import DialdTop.CommandPath
import DialdTop.ConfSoundness
import DialdTop.ControlCommands
import DialdTop.DebugLog
import DialdTop.Demultiplexing
import DialdTop.FailedAccept
import DialdTop.FanOut
import DialdTop.FeedRetry
import DialdTop.HostCache
import DialdTop.IdentExchange
import DialdTop.InterfaceLine
import DialdTop.Isolation
import DialdTop.LateJoin
import DialdTop.LexerProgress
import DialdTop.LineEndings
import DialdTop.LineIntegrity
import DialdTop.LinkState
import DialdTop.LocalDomain
import DialdTop.MonitorMemory
import DialdTop.MonitorStream
import DialdTop.MuxRegistration
import DialdTop.PacketRows
import DialdTop.QueryLoad
import DialdTop.QueueDiscipline
import DialdTop.Reauthentication
import DialdTop.RelayBound
import DialdTop.Reload
import DialdTop.RowTermination
import DialdTop.Segmentation
import DialdTop.Semaphore
import DialdTop.SignalTiming
import DialdTop.StrandedRecords
import DialdTop.UserExtraction
