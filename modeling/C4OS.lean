import C4OS.Addrman.BestFit
import C4OS.Addrman.Misfrees
import C4OS.Addrman.ZeroSizes
import C4OS.Andtree.Check
import C4OS.Andtree.Iteration
import C4OS.Andtree.Lookups
import C4OS.Ata.BlockClient
import C4OS.Ata.Blocks
import C4OS.Ata.Disks
import C4OS.Ata.Errors
import C4OS.Ata.Sectors
import C4OS.Ata.Transfers
import C4OS.C4alloc.Coalescing
import C4OS.C4alloc.DoubleFrees
import C4OS.C4alloc.Sizes
import C4OS.Connman.FailedConnects
import C4OS.Connman.Service
import C4OS.Console.Clearing
import C4OS.Elf.Load
import C4OS.Elf.Spawn
import C4OS.Ext2.Failures
import C4OS.Ext2.Framing
import C4OS.Ext2.InodeAllocation
import C4OS.Ext2.Listing
import C4OS.Ext2.Mapping
import C4OS.Ext2.Mixed
import C4OS.Ext2.NodeTypes
import C4OS.Ext2.Progress
import C4OS.Ext2.Selection
import C4OS.Ext2.Superblocks
import C4OS.Ext2.Transfers
import C4OS.Forth.GetChar
import C4OS.Forth.ReadKeyboard
import C4OS.Forth.Typing
import C4OS.Foundations.Circular
import C4OS.Foundations.Histories
import C4OS.Initsys.Programs
import C4OS.Libc.Debug
import C4OS.Libc.Environment
import C4OS.Memobj.Failures
import C4OS.Memobj.Sharing
import C4OS.Nameserver.Calls
import C4OS.Pci.Scan
import C4OS.Peripherals.Keyboard
import C4OS.Peripherals.Mouse
import C4OS.Prng.Lfsr
import C4OS.Ringbuffer.Headers
import C4OS.Stubbywm.Images
import C4OS.Stubbywm.Redraw
import C4OS.Stubbywm.Stacking
import C4OS.Stubbywm.UpdateList
import C4OS.Stubbywm.Winlist
