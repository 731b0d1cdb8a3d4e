import OShard.Kernel.Memmove
import OShard.Buddy.Lockstep
import OShard.Logging.Space
import OShard.Files.References
import OShard.Buddy.Completeness
import OShard.Files.OutOfMemory
import OShard.Pipe.Wakeup
import OShard.Process.Kill
import OShard.Shell.Command
import OShard.Umalloc.Safety
import OShard.Console.Discipline
import OShard.Virtio.Safety
import OShard.Scheduler.Wakeup
import OShard.Buddy.Sizes
import OShard.Space.Strings
import OShard.Space.Child
import OShard.Pipe.Read
import OShard.FileSystem.LogBound
import OShard.FileSystem.Filewrite
import OShard.Cache.Capacity
import OShard.Grep.Lines
import OShard.FileSystem.Path
import OShard.Kernel.Uart
import OShard.Kernel.Sleeplock
