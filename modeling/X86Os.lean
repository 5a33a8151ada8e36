import X86Os.Library.Runs
import X86Os.Library.Utf8
import X86Os.Library.Memory
import X86Os.Library.PointerList
import X86Os.Library.Buffer
import X86Os.Library.Counter
import X86Os.Library.Paging
import X86Os.Library.Segments
import X86Os.Library.Layout
import X86Os.Library.Slots
import X86Os.Heap.Walk
import X86Os.Heap.Blocks
import X86Os.Heap.Disjointness
import X86Os.Heap.Setup
import X86Os.Heap.MemoryMap
import X86Os.Scheduler.Tasks
import X86Os.Scheduler.Steps
import X86Os.Scheduler.History
import X86Os.Scheduler.TaskList
import X86Os.Scheduler.Kill
import X86Os.Scheduler.Context
import X86Os.Scheduler.Interrupt
import X86Os.Scheduler.Switch
import X86Os.Libc.Strings
import X86Os.Libc.Numbers
import X86Os.Libc.Itoa
import X86Os.Libc.Printf
import X86Os.Libc.Emission
import X86Os.Libc.Standing
import X86Os.Libc.Bounds
import X86Os.Libc.Vsprintf
import X86Os.Libc.Compose
import X86Os.Libc.Decimal
import X86Os.Libc.ZeroPad
import X86Os.Libc.Memcpy
import X86Os.Libc.Strdup
import X86Os.Vfs.Drives
import X86Os.Vfs.Registry
import X86Os.Vfs.Lookup
import X86Os.Vfs.Mount
import X86Os.Vfs.FileAccess
import X86Os.Fs.Tmpfs
import X86Os.Fs.Outcome
import X86Os.Fs.FileContents
import X86Os.Fs.Calls
import X86Os.Fs.Isolation
import X86Os.Fs.NodeList
import X86Os.Fs.Copies
import X86Os.Fs.Paths
import X86Os.Memory.PageSetup
import X86Os.Memory.Descriptors
import X86Os.Lists.Entries
import X86Os.Lists.Calls
import X86Os.Screen.Font
import X86Os.Screen.Console
import X86Os.Screen.Cursor
import X86Os.Screen.Scroll
import X86Os.Screen.UnicodeTable
import X86Os.Screen.Glyph
import X86Os.Scheduler.RoundRobin
import X86Os.Scheduler.Survivors
import X86Os.Scheduler.Pids
import X86Os.Scheduler.Running
import X86Os.Scheduler.Interleaving
import X86Os.Acpi.Tables
import X86Os.Acpi.ApStartup
import X86Os.Acpi.PciConfig
import X86Os.Acpi.Lookup
import X86Os.Acpi.Madt
import X86Os.Acpi.Lapics
import X86Os.Acpi.Fadt
import X86Os.Acpi.RsdpSearch
import X86Os.Heap.Frontier
import X86Os.Heap.Release
import X86Os.Heap.Payload
import X86Os.Heap.Progress
import X86Os.Heap.TwoBoots
import X86Os.Heap.Links
import X86Os.Heap.Realloc
import X86Os.Vfs.Refusal
import X86Os.Vfs.WalkSteps
import X86Os.Vfs.PathBounds
import X86Os.Vfs.Listing
import X86Os.Scheduler.Removal
import X86Os.Lai.Host
import X86Os.Lai.HashTable
import X86Os.Lai.HashContents
import X86Os.Lai.HashUpdates
import X86Os.Lai.HashRuns
import X86Os.Lai.Names
import X86Os.Lai.Namespace
import X86Os.Lai.NamespaceTree
import X86Os.Lai.NamespaceUpdates
import X86Os.Lai.NamespaceRuns
import X86Os.Lai.NamespaceIterators
import X86Os.Lai.Paths
import X86Os.Lai.Resolution
import X86Os.Library.Threads
import X86Os.Sync.Spinlock
import X86Os.Lai.Mutex
import X86Os.Lai.Event
import X86Os.Library.BitBuffer
import X86Os.Lai.FieldBuffer
import X86Os.Lai.Fields
import X86Os.Lai.FieldBits
import X86Os.Library.LittleEndian
import X86Os.Lai.Bytecode
import X86Os.Lai.Exec
import X86Os.Lai.Terms
import X86Os.Lai.ExecSteps
import X86Os.Lai.Operators
import X86Os.Lai.ExecRuns
import X86Os.Lai.Evaluation
import X86Os.Lai.Hangs
import X86Os.Lai.Stacks
import X86Os.Lai.StackRuns
import X86Os.Lai.ResourceReads
import X86Os.Heap.Exhaustion
