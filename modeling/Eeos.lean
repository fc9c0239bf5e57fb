import Eeos.Lib.ByteMem
import Eeos.Lib.View
import Eeos.Lib.Loop
import Eeos.Lib.Packed
import Eeos.Lib.Digits
import Eeos.Lib.Bracket
import Eeos.Lib.Fifo
import Eeos.Lib.Links
import Eeos.Lib.Cursor
import Eeos.Lib.Alarm
import Eeos.Lib.Overlay
import Eeos.Lib.Vmsa
import Eeos.Lib.Regime
import Eeos.Lib.Aarch64
import Eeos.Libc.Ctype
import Eeos.Libc.Str
import Eeos.Libc.Strtoul
import Eeos.Libc.Compare
import Eeos.Libc.Search
import Eeos.Libc.Copy
import Eeos.Libc.Find
import Eeos.Kernel.Format
import Eeos.Kernel.Number
import Eeos.Kernel.Digits
import Eeos.Kernel.PutDec
import Eeos.Kernel.Printk
import Eeos.Kernel.Grammar
import Eeos.Kernel.Decode
import Eeos.Kernel.Parse
import Eeos.Kernel.Segments
import Eeos.Kernel.Text
import Eeos.Kernel.Field
import Eeos.Kernel.Compose
import Eeos.Kernel.Buffer
import Eeos.Kernel.RoundTrip
import Eeos.Kernel.Convert
import Eeos.Kernel.Star
import Eeos.Kernel.StringField
import Eeos.Kernel.Sprintf
import Eeos.Kernel.ListHead
import Eeos.Kernel.ListForEach
import Eeos.Kernel.ListWalk
import Eeos.Driver.Console
import Eeos.Driver.Uart
import Eeos.Driver.Interrupt
import Eeos.Driver.IrqTable
import Eeos.Driver.Controller
import Eeos.Driver.Gicv3
import Eeos.Driver.GicInit
import Eeos.Driver.IrqLines
import Eeos.Driver.Nesting
import Eeos.Driver.Dispatch
import Eeos.Driver.Timer
import Eeos.Arch.MovQ
import Eeos.Arch.MapMemory
import Eeos.Arch.BootTables
import Eeos.Arch.IdMap
import Eeos.Arch.Memory
import Eeos.Arch.Mmu
import Eeos.Arch.KernelMap
import Eeos.Arch.SimpleMap
import Eeos.Arch.Descriptors
import Eeos.Arch.SwitchMm
import Eeos.Arch.Boot
import Eeos.Arch.Vector
import Eeos.Arch.AddressSpace
import Eeos.Arch.IrqFlags
import Eeos.Driver.Log
import Eeos.Init.Main
