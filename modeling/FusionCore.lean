import FusionCore.Lib.ByteMem
import FusionCore.Lib.NullChain
import FusionCore.Lib.Runs
import FusionCore.Lib.Schedule
import FusionCore.Lib.Fields
import FusionCore.Lib.Packing
import FusionCore.Lib.Radix
import FusionCore.Lib.Stack
import FusionCore.Lib.Walk
import FusionCore.Mm.Defs
import FusionCore.Mm.Bmap
import FusionCore.Mm.BmapLaw
import FusionCore.Mm.Phys
import FusionCore.Mm.PhysInit
import FusionCore.Mm.PhysRun
import FusionCore.Mm.PhysSpec
import FusionCore.Mm.PhysBits
import FusionCore.Mm.Pages
import FusionCore.Mm.PhysPages
import FusionCore.Mm.Virt
import FusionCore.Mm.VirtTree
import FusionCore.Mm.VirtSpec
import FusionCore.Mm.VirtInit
import FusionCore.Mm.VirtFail
import FusionCore.Mm.VirtUnmap
import FusionCore.Mm.VirtRange
import FusionCore.Mm.Slab
import FusionCore.Mm.SlabView
import FusionCore.Mm.SlabRep
import FusionCore.Mm.SlabOps
import FusionCore.Mm.SlabGrow
import FusionCore.Mm.SlabLife
import FusionCore.Mm.SlabReap
import FusionCore.Mm.SlabSpec
import FusionCore.Mm.SlabFresh
import FusionCore.Mm.SlabAlloc
import FusionCore.Mm.SlabDestroy
import FusionCore.Mm.SlabReapPages
import FusionCore.Mm.SlabCursor
import FusionCore.Mm.SlabDump
import FusionCore.Libk.Malloc
import FusionCore.Libk.MallocInit
import FusionCore.Libk.MallocSpec
import FusionCore.Libk.MallocRun
import FusionCore.Libk.MallocReach
import FusionCore.Libk.MallocFail
import FusionCore.Acpi.Sdt
import FusionCore.Acpi.SdtSpec
import FusionCore.Acpi.Madt
import FusionCore.Acpi.MadtSpec
import FusionCore.Acpi.MadtDecode
import FusionCore.Dd.Pic
import FusionCore.Dd.PicSpec
import FusionCore.Dd.Apic
import FusionCore.Dd.ApicSpec
import FusionCore.Dd.ApicRoute
import FusionCore.Dd.ApicInit
import FusionCore.Dd.ApicInitSpec
import FusionCore.Cpu.Isr
import FusionCore.Cpu.IsrSpec
import FusionCore.Cpu.IsrFrame
import FusionCore.Libk.Kprintf
import FusionCore.Libk.KprintfText
import FusionCore.Libk.KprintfGrammar
import FusionCore.Libk.KprintfInt
import FusionCore.Libk.KprintfSpec
import FusionCore.Libk.KprintfIso
import FusionCore.Dd.Com
import FusionCore.Dd.ComSpec
import FusionCore.Libk.Log
import FusionCore.Libk.LogSpec
import FusionCore.Cpu.Report
import FusionCore.Cpu.ReportSpec
import FusionCore.Cpu.Gdt
import FusionCore.Cpu.Idt
import FusionCore.Cpu.IdtSpec
import FusionCore.Boot.Tags
import FusionCore.Acpi.AcpiInit
import FusionCore.Dd.ApicTable
import FusionCore.Dd.ApicMadt
import FusionCore.Sys.Memory
import FusionCore.Sys.MemoryFrame
import FusionCore.Sys.MemorySpec
