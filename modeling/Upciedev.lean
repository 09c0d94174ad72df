import Upciedev.Foundations.LockUsage
import Upciedev.Foundations.Pool
import Upciedev.Model.ModuleFootprint
import Upciedev.Locking.LockDiscipline
import Upciedev.Locking.MutualExclusion
import Upciedev.Locking.DeviceRequests
import Upciedev.Locking.Reentry
import Upciedev.Locking.Reclaim
import Upciedev.Locking.OwnerLock
import Upciedev.Locking.VectorConfiguration
import Upciedev.Locking.RequestProgress
import Upciedev.Access.PositionalAccess
import Upciedev.Access.BarIndex
import Upciedev.Access.FailureReport
import Upciedev.Access.VectorTransfer
import Upciedev.Access.VectorRequests
import Upciedev.Access.UserBuffer
import Upciedev.Access.ErrorDetection
import Upciedev.Access.ScratchLocation
import Upciedev.Access.WriteReadBack
import Upciedev.Access.MmapRange
import Upciedev.Boards.BoardTable
import Upciedev.Boards.Reuse
import Upciedev.Boards.SetUpFailure
import Upciedev.Boards.Interrupts
import Upciedev.Boards.BoardIsolation
import Upciedev.Boards.DriverLife
import Upciedev.Boards.BoardSettings
import Upciedev.Boards.BoardNumbers
import Upciedev.Discovery.BoardLists
import Upciedev.Discovery.DeviceInfo
import Upciedev.Discovery.Rescan
import Upciedev.Discovery.ReadBounds
import Upciedev.Discovery.BoardImage
import Upciedev.Discovery.DecodedNames
import Upciedev.Slots.TableIndex
import Upciedev.Slots.ExportedTable
import Upciedev.Hotplug.FileCounts
