import ByteOS.Cpu.IsrFrames
import ByteOS.Cpu.TimeSlices
import ByteOS.Drivers.Ioapic
import ByteOS.Drivers.Pit
import ByteOS.Drivers.Smbios
import ByteOS.Drivers.VgaTmode
import ByteOS.Ds.RbIterate
import ByteOS.Ds.RbReplace
import ByteOS.Fs.InitrdLookup
import ByteOS.Fs.InodeFailure
import ByteOS.Libk.Bitmap
import ByteOS.Libk.Kvprintf
import ByteOS.Libk.String
import ByteOS.Mm.Area
import ByteOS.Mm.CloneReap
import ByteOS.Mm.CowRace
import ByteOS.Mm.CpuTracking
import ByteOS.Mm.Permissions
import ByteOS.Mm.PmmCoalesce
import ByteOS.Mm.PmmInit
import ByteOS.Mm.SlobPointers
import ByteOS.Mm.UserMemory
import ByteOS.Proc.ContextSwitch
import ByteOS.Proc.Entry
import ByteOS.Proc.Fairness
import ByteOS.Proc.RunqLocks
import ByteOS.Proc.SchedCurrent
import ByteOS.Proc.TaskExit
import ByteOS.Proc.UserCounts
import ByteOS.Smp.Boot
import ByteOS.Smp.RwPreempt
import ByteOS.Smp.TlbSafety
