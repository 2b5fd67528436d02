import GemhoNbiot.RingWindow
import GemhoNbiot.Dataqueue
import GemhoNbiot.DropOldest
import GemhoNbiot.MsgFifo
import GemhoNbiot.FifoUnits
import GemhoNbiot.FifoCreation
import GemhoNbiot.FifoRefinement
import GemhoNbiot.FifoCalls
import GemhoNbiot.FifoOwnership
import GemhoNbiot.FifoPreemption
import GemhoNbiot.BitCrc
import GemhoNbiot.Crc32
import GemhoNbiot.ConfigUtils
import GemhoNbiot.RecordBursts
import GemhoNbiot.TornSave
import GemhoNbiot.LastWrite
import GemhoNbiot.ConcurrentSave
import GemhoNbiot.TransparentMode
import GemhoNbiot.IdleReads
import GemhoNbiot.WakeUp
import GemhoNbiot.BurstDelivery
import GemhoNbiot.Memmem
import GemhoNbiot.Stdio
import GemhoNbiot.ScanPrint
import GemhoNbiot.HexText
import GemhoNbiot.Commands
import GemhoNbiot.ConfigMode
import GemhoNbiot.CommandLines
import GemhoNbiot.SetCommands
import GemhoNbiot.QueryRoundTrip
import GemhoNbiot.CommandEffects
import GemhoNbiot.ConfigValid
import GemhoNbiot.SaveFaults
import GemhoNbiot.SavedConfig
import GemhoNbiot.CommandAtomic
import GemhoNbiot.CommandGrammar
import GemhoNbiot.Program
import GemhoNbiot.WireLines
import GemhoNbiot.Bc95Driver
import GemhoNbiot.Bc95Writes
import GemhoNbiot.MsgLines
import GemhoNbiot.ChunkScan
import GemhoNbiot.ReplyVerdict
import GemhoNbiot.WireOrder
import GemhoNbiot.ReplyChannel
import GemhoNbiot.MsgSend
import GemhoNbiot.TraceLogic
import GemhoNbiot.StatusManage
import GemhoNbiot.ReplyAttempts
import GemhoNbiot.BandNumber
import GemhoNbiot.AttemptMixing
import GemhoNbiot.UsartRead
import GemhoNbiot.PortReads
import GemhoNbiot.FifoLifetime
import GemhoNbiot.I2cBus
import GemhoNbiot.MemmemReads
import GemhoNbiot.SerialRx
import GemhoNbiot.DriverMode
import GemhoNbiot.SerialTx
import GemhoNbiot.Eeprom
import GemhoNbiot.WireMessages
import GemhoNbiot.Pipeline
import GemhoNbiot.QueueWait
import GemhoNbiot.SendThread
import GemhoNbiot.BackOff
import GemhoNbiot.Rs485
import GemhoNbiot.Relay
import GemhoNbiot.KeyEntry
import GemhoNbiot.RingBuffer
import GemhoNbiot.StatusLight
import GemhoNbiot.WorkQueue
import GemhoNbiot.MidLight
import GemhoNbiot.BusSharing
import GemhoNbiot.StretchedLoop
