import Cse420.Lib.CMemory
import Cse420.Queue.Segment
import Cse420.Queue.Layout
import Cse420.Lib.Fifo
import Cse420.Queue.Fifo
import Cse420.Queue.Poll
import Cse420.Queue.Interleave
import Cse420.Queue.Request
import Cse420.Lib.Machine
import Cse420.Server.DirLock
import Cse420.Lib.RingBuffer
import Cse420.Server.Ring
import Cse420.Server.RingOrder
import Cse420.Server.RingLoss
import Cse420.Server.Exit
import Cse420.Lib.BubbleSort
import Cse420.Lib.LevelList
import Cse420.Lister.Search
import Cse420.Lister.Walk
import Cse420.Lib.Interference
import Cse420.Lister.Project2
import Cse420.Lister.Pipeline
import Cse420.Lister.Listing
import Cse420.Lister.Lin
import Cse420.Lister.LinSteps
import Cse420.Lister.LinQuiet
import Cse420.Lister.LinListing
import Cse420.Queue.Block
import Cse420.Lister.SortLinks
import Cse420.Lister.Words
import Cse420.Server.SearchTest
import Cse420.Queue.Reuse
import Cse420.Queue.Restart
import Cse420.Lib.SysVSem
import Cse420.Server.ClientLock
import Cse420.Server.Output
import Cse420.Server.OutputCollects
import Cse420.Lister.Agreement
import Cse420.Queue.ReadFile
import Cse420.Calc.Tax
import Cse420.Lib.Strtok
import Cse420.VirtualMemory.Tokenize
import Cse420.Lib.DoublyLinked
import Cse420.VirtualMemory.FrameQueue
import Cse420.Lister.AddPath
import Cse420.Server.JoinThreads
import Cse420.Lister.CreateFails
import Cse420.Lister.CreateFailsListing
import Cse420.Lib.Owned
import Cse420.Lib.Returns
import Cse420.Lister.Memory
import Cse420.Lister.MemoryMain
import Cse420.Server.OutputCompletes
import Cse420.Server.System
import Cse420.Server.SystemEnds
import Cse420.Server.SystemExit
import Cse420.Lib.Interleaving
import Cse420.Server.RingInterleaves
import Cse420.Server.RingOutputEnds
import Cse420.Lib.TextLines
import Cse420.Server.SortedOutput
import Cse420.Server.Revisions
