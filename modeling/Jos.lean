import Jos.Paging.Accounting
import Jos.Kernel.KernelHalf
import Jos.Kernel.BootPages
import Jos.Kernel.Sbrk
import Jos.Kernel.Frames
import Jos.Kernel.Identifiers
import Jos.Kernel.Leftovers
import Jos.Kernel.Locking
import Jos.Kernel.Translations
import Jos.Pipes.Fifo
import Jos.Files.Paths
import Jos.Files.Recycling
import Jos.Files.FullDisk
import Jos.Files.Crash
import Jos.Files.Restart
import Jos.Files.Sizes
import Jos.Files.RoundTrip
import Jos.Network.Transmit
import Jos.Network.Receive
import Jos.Network.MailboxRuns
import Jos.Network.Footprints
import Jos.Descriptors.Closing
import Jos.Files.OpenIds
import Jos.Files.AnswerPages
import Jos.Programs.Loaders
import Jos.Programs.Numerals
import Jos.Programs.WebRequests
import Jos.Kernel.FaultFrames
import Jos.Files.Faults
import Jos.Kernel.ConsoleInput
import Jos.Kernel.StabSearch
import Jos.Programs.MemoryRoutines
