import Aesd.Foundation.Lines
import Aesd.Foundation.Window
import Aesd.Foundation.LineStore
import Aesd.Foundation.Positions
import Aesd.Foundation.Heap
import Aesd.Foundation.Interleaving
import Aesd.Foundation.CString
import Aesd.Foundation.PartialTransfer
import Aesd.Driver.CircularBuffer
import Aesd.Driver.CircularBufferFifo
import Aesd.Driver.Kernel
import Aesd.Driver.CharDevice
import Aesd.Driver.Ownership
import Aesd.Driver.WriteSpec
import Aesd.Driver.Allocations
import Aesd.Driver.ReadSpec
import Aesd.Driver.Session
import Aesd.Driver.StreamContract
import Aesd.Driver.BlockAccounting
import Aesd.Driver.SeekRead
import Aesd.Server.DataFile
import Aesd.Server.Threads
import Aesd.Server.Steps
import Aesd.Server.MutexRelease
import Aesd.Server.Descriptors
import Aesd.Server.LostUpdate
import Aesd.Server.DeviceFile
import Aesd.Server.LineIsolation
import Aesd.Server.Framing
import Aesd.Server.DeviceLog
import Aesd.Server.Response
import Aesd.Server.LinePreservation
import Aesd.Server.LineBuffer
import Aesd.Server.StreamKept
import Aesd.Server.SendResponse
import Aesd.Driver.EntryPositions
import Aesd.Driver.Boundaries
import Aesd.Driver.WriteOutcomes
import Aesd.Foundation.Numerals
import Aesd.Foundation.SinglyLinked
import Aesd.Server.ConnectionTracking
import Aesd.Server.ParserAccesses
import Aesd.Server.Shutdown
import Aesd.Foundation.CriticalSection
import Aesd.Foundation.LineDevice
import Aesd.Driver.SessionRefinement
import Aesd.Server.CriticalSections
import Aesd.Server.ResponseRest
import Aesd.Server.SeekResponse
import Aesd.Server.FileStream
import Aesd.Server.HandlerEnds
import Aesd.Foundation.Lifetime
import Aesd.Server.BufferLifetime
import Aesd.Server.ShutdownCleanup
import Aesd.Server.SignalDelivery
import Aesd.Server.HandlerReturn
import Aesd.Server.MainExit
import Aesd.Programs.SystemCalls
import Aesd.Programs.Threading
