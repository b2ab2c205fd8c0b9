import AliluOS.Lib.Extent
import AliluOS.Lib.LinkedList
import AliluOS.Lib.FormUrl
import AliluOS.Allocator.Model
import AliluOS.Allocator.FreeList
import AliluOS.Allocator.Canonical
import AliluOS.Allocator.Calls
import AliluOS.Allocator.Conservation
import AliluOS.Allocator.Reuse
import AliluOS.Allocator.Release
import AliluOS.Apps.Games
import AliluOS.Apps.Locks
import AliluOS.Apps.Capture
import AliluOS.Apps.Breakout
import AliluOS.Fs.Refinement
import AliluOS.Interrupts.Delivery
import AliluOS.Interrupts.Irq
import AliluOS.Keyboard.Kernel
import AliluOS.Shell.Commands
import AliluOS.Shell.Directory
import AliluOS.Shell.Echo
import AliluOS.Shell.Editor
import AliluOS.Shell.LineCommands
import AliluOS.Shell.Arguments
import AliluOS.Shell.Names
import AliluOS.Shell.Reports
import AliluOS.Network.Targets
import AliluOS.Network.Entities
import AliluOS.Network.SearchUrl
import AliluOS.Network.Skipping
import AliluOS.Network.WebBrowser
import AliluOS.Interrupts.Descriptors
import AliluOS.Shell.Paths
import AliluOS.Vga.Terminal
import AliluOS.Allocator.Classes
import AliluOS.Interrupts.Service
import AliluOS.Kernel.Mutex
import AliluOS.Vga.Cursor
import AliluOS.Keyboard.Typist
import AliluOS.Keyboard.Computer
import AliluOS.Vga.Printing
import AliluOS.Apps.Frames
import AliluOS.Interrupts.Exceptions
import AliluOS.Keyboard.Script
import AliluOS.Network.Pci
import AliluOS.Kernel.Boot
import AliluOS.Network.SearchScreen
