import NCMalloc.Bits.Word
import NCMalloc.Bits.Arith
import NCMalloc.Optimized.ConstMath
import NCMalloc.Lib.Reach
import NCMalloc.Lib.BoundedStack
import NCMalloc.Allocator.SizeClasses
import NCMalloc.Allocator.ObjSlab
import NCMalloc.Allocator.SlabInvariant
import NCMalloc.Allocator.SlabRun
import NCMalloc.Allocator.Layout
import NCMalloc.Allocator.FreeCache
import NCMalloc.Lib.LinkedList
import NCMalloc.Allocator.ObjectAllocator
import NCMalloc.Lib.ListFamily
import NCMalloc.Allocator.View
import NCMalloc.Allocator.Accounting
import NCMalloc.Allocator.Sequential
import NCMalloc.Allocator.Safety
import NCMalloc.Allocator.Termination
import NCMalloc.Allocator.SlabConcurrent
import NCMalloc.Timing.Stats
import NCMalloc.Util.ArgChecker
import NCMalloc.Util.ArgParser
import NCMalloc.Container.BlockList
import NCMalloc.Container.BlockListInsert
