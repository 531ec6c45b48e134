import Fcvm.ContainerOutput.Whole
import Fcvm.DiskDir.Identity
import Fcvm.ExecHandshake.AtMostOnce
import Fcvm.ExecStdin.Conservation
import Fcvm.Fleet.Acknowledged
import Fcvm.Fleet.Refined
import Fcvm.Fleet.Released
import Fcvm.FleetCore.OneSlot
import Fcvm.FleetCore.Placed
import Fcvm.FleetCore.Receipts
import Fcvm.FleetCore.Refused
import Fcvm.GpuHosts.Capacity
import Fcvm.HostChange.Ordering
import Fcvm.Merge.Correct
import Fcvm.Merge.InPlace
import Fcvm.Multiplexer.Orphans
import Fcvm.Potato.Hold
import Fcvm.Readdir.Once
import Fcvm.Remap.Portable
import Fcvm.RoutedLease.Exclusive
import Fcvm.StateDir.Addresses
import Fcvm.Uffd.FaultAround
import Fcvm.Uffd.NoLostFault
import Fcvm.Uffd.Replan
import Fcvm.WorkingSet.Coalesced
import Fcvm.WorkingSet.Sidecar
