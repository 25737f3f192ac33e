import Iridium.Lib.Ring
import Iridium.Proc.Exit
import Iridium.Proc.Perm
import Iridium.Proc.Spawn
import Iridium.Proc.Current
import Iridium.Proc.Delivery
import Iridium.Proc.Frames
import Iridium.Proc.Signals
import Iridium.Proc.Switch
import Iridium.Proc.Parents
import Iridium.Proc.Busy
import Iridium.Proc.Devices
import Iridium.Proc.Drivers
import Iridium.Lib.Burst
import Iridium.Proc.Display
import Iridium.Uapi.Output
import Iridium.Sync.Semaphore
import Iridium.Lib.RoundRobin
import Iridium.Proc.Schedule
import Iridium.Programs.Gfxd
import Iridium.Programs.Daemon
import Iridium.Mm.PmmInit
import Iridium.Mm.PmmRuns
import Iridium.Mm.PmmUsable
import Iridium.Mm.PmmFree
import Iridium.Mm.PmmEnd
import Iridium.Mm.KheapRuns
import Iridium.Mm.KheapUser
import Iridium.Fs.Archive
import Iridium.Lib.Lasso
import Iridium.Fs.Scan
import Iridium.Fs.Reads
import Iridium.Mm.Mapping
import Iridium.Lib.Traced
import Iridium.Mm.Exhausted
import Iridium.Mm.KheapPages
import Iridium.Mm.Loading
import Iridium.Mm.Space
import Iridium.Mm.AllocPage
import Iridium.Common.ElfLoad
import Iridium.Mm.MapRuns
import Iridium.Common.ElfReads
import Iridium.Common.ElfPages
import Iridium.Proc.Isolation
import Iridium.Proc.Conservation
import Iridium.Uapi.Status
import Iridium.Proc.Keystroke
import Iridium.Drivers.Terminal
import Iridium.Common.Memcpy
import Iridium.Common.Font
import Iridium.Drivers.Pixels
import Iridium.Lib.TracedLoop
import Iridium.Firmware.Madt
import Iridium.Firmware.Ioapic
import Iridium.Firmware.Rsdt
import Iridium.Intr.Idt
import Iridium.Proc.Grants
import Iridium.Mm.Realloc
import Iridium.Mm.Unmap
import Iridium.Lib.Numeral
import Iridium.Common.Numerals
import Iridium.Lib.Pieces
import Iridium.Common.Log
import Iridium.Drivers.Packet
import Iridium.Programs.Shell
import Iridium.Programs.Service
import Iridium.Common.Memcmp
import Iridium.Fs.Sizes
import Iridium.Sync.Mutex
import Iridium.Programs.Relay
import Iridium.Proc.Authority
import Iridium.Arch.Gdt
import Iridium.Bus.Pci
import Iridium.Uapi.Services
import Iridium.Intr.Exceptions
import Iridium.Programs.Wrapper
import Iridium.Programs.Keypath
import Iridium.Mm.PageRuns
