import Uhs.Bloom.Murmur
import Uhs.Hash.Checksum
import Uhs.Hash.Release
import Uhs.Queue.SpinLock
import Uhs.Store.AtRest
import Uhs.Store.ZoneRegister
import Uhs.Store.PmemSystem
import Uhs.Store.Restart
import Uhs.Store.Polling
import Uhs.Store.PmemDevices
import Uhs.Hash.Membership
import Uhs.Hash.RecordPool
import Uhs.Bloom.Outstanding
import Uhs.Store.FullSegment
import Uhs.Segment.Aliasing
import Uhs.Store.Dispatch
import Uhs.Queue.DataBounds
import Uhs.Segment.Capacity
import Uhs.Core.NextFit
import Uhs.Segment.Refinement
import Uhs.Segment.MoveOut
import Uhs.Segment.BufferedWrite
import Uhs.Segment.RedirectRead
import Uhs.Segment.StartUp
import Uhs.Migration.Signal
import Uhs.Migration.Completion
import Uhs.Store.Crash
import Uhs.Store.Invalidate
import Uhs.Store.Partition
import Uhs.Store.ExactlyOnce
import Uhs.Store.LastWriter
import Uhs.Store.ReadYourWrites
import Uhs.Hash.Conservation
import Uhs.Hash.DrainAll
import Uhs.Queue.Spsc
import Uhs.Queue.LockFreeSteps
import Uhs.Queue.IoRing
import Uhs.Queue.IoChannel
