import DeliceOS.Base.Lts
import DeliceOS.Base.FifoLock
import DeliceOS.Base.Token
import DeliceOS.Base.Mem
import DeliceOS.Base.Store
import DeliceOS.Base.Walk
import DeliceOS.Base.WordStack
import DeliceOS.Base.Extremum
import DeliceOS.Base.Records
import DeliceOS.Paging.EarlyPage
import DeliceOS.Paging.MapAddr
import DeliceOS.Atomic.Lock
import DeliceOS.Atomic.Guard
import DeliceOS.Printf.Reentry
import DeliceOS.Serial.Uart
import DeliceOS.Printf.Output
import DeliceOS.Boot.E820
import DeliceOS.Boot.HandOff
import DeliceOS.Interrupt.Machine
import DeliceOS.Interrupt.Frame
import DeliceOS.Interrupt.Nesting
import DeliceOS.Interrupt.Idt
import DeliceOS.Elf.Flatten
import DeliceOS.Elf.Coverage
import DeliceOS.Acpi.Search
import DeliceOS.Acpi.Madt
import DeliceOS.Acpi.CoreId
import DeliceOS.Acpi.Mapped
import DeliceOS.Base.CInt
import DeliceOS.PerfCounter.BinarySearch
import DeliceOS.PerfCounter.ClearLoop
import DeliceOS.Base.Copy
import DeliceOS.Base.Numeral
import DeliceOS.Memlib.Memmove
import DeliceOS.Memlib.Memset
import DeliceOS.Boot.Log
import DeliceOS.Acpi.Enumerate
import DeliceOS.Elf.Order
import DeliceOS.Interrupt.Registers
import DeliceOS.Serial.Handshake
import DeliceOS.Base.Emit
import DeliceOS.Printf.Ntoa
import DeliceOS.Printf.Format
import DeliceOS.Printf.Text
import DeliceOS.Printf.Entry
import DeliceOS.Printf.Grammar
import DeliceOS.Printf.Terminator
import DeliceOS.Printf.Standard
import DeliceOS.Printf.Alternate
import DeliceOS.Printf.Strings
import DeliceOS.Printf.Plain
import DeliceOS.Serial.Wire
import DeliceOS.Boot.Console
import DeliceOS.Boot.LongMode
import DeliceOS.Boot.Chain
import DeliceOS.Serial.Init
import DeliceOS.Serial.Restart
import DeliceOS.Serial.Language
import DeliceOS.Printf.Sequential
