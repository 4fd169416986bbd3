import Cplant.Rtscts.Grants
import Cplant.Rtscts.Payload
import Cplant.Rtscts.Generations
import Cplant.Rtscts.Overtaking
import Cplant.Rtscts.Contact
import Cplant.Portals.Lifetime
import Cplant.Portals.ListIntegrity
import Cplant.Collectives.BarrierSafety
import Cplant.Portals.TableBounds
import Cplant.Bebopd.AllocationBounds
import Cplant.Launch.Strings
import Cplant.Launch.Completion
import Cplant.Launch.NodeRange
import Cplant.Mcp.ReceiveRing
import Cplant.Mcp.LateHost
import Cplant.Bebopd.Handshake
import Cplant.Comm.ControlFifo
import Cplant.Comm.Commit
import Cplant.Comm.VoteSafety
import Cplant.Mpi.MatchingOrder
import Cplant.Mpi.LongSend
import Cplant.Yod.OpenHandles
import Cplant.Nexus.Readdir
import Cplant.Nexus.Umount
import Cplant.Nexus.Namei
import Cplant.Nexus.HandleMap
import Cplant.Nexus.NfsAttrs
import Cplant.Nexus.Rwlk
import Cplant.Portals.Updates
import Cplant.Portals.Deposits
import Cplant.Portals.EqCount
import Cplant.AddrCache.Copies
import Cplant.Comm.EventList
import Cplant.Rtscts.Collect
import Cplant.Rtscts.Verify
import Cplant.Pct.Signals
import Cplant.Comm.LiveQueue
import Cplant.Comm.Creation
