import CS162.HttpServer.ProxyDelivery
import CS162.HttpServer.WorkQueueLaw
import CS162.Shell.PipelineStages
import CS162.HttpServer.FileRequestLaw
import CS162.Pintos.KernelListLaw
import CS162.MapReduce.CoordinatorDeliveries
import CS162.WordCount.Counts
import CS162.Threads.RwLockWakeups
import CS162.Malloc.Coalescing
import CS162.Malloc.Contents
import CS162.MapReduce.CoordinatorBarrier
import CS162.MapReduce.CoordinatorConservation
import CS162.MapReduce.CoordinatorQueue
import CS162.MapReduce.GroupBy
import CS162.MapReduce.ClusterProgress
import CS162.MapReduce.Codec
import CS162.MapReduceRs.Client
import CS162.Pintos.HeapPlacement
import CS162.Pintos.ProgramImage
import CS162.Pintos.ProcessExit
import CS162.Pintos.StartLeak
import CS162.Pintos.InodeBytes
import CS162.Pintos.SyscallLocks
import CS162.Pintos.SchedulerLaw
import CS162.Pintos.KernelMemoryLaw
import CS162.Pintos.FileSystemLaw
import CS162.Pintos.UstarHeader
import CS162.Pintos.DirectoryMap
import CS162.Pintos.WriteDenial
import CS162.Pintos.CreateLeak
import CS162.Pintos.HashTableSet
import CS162.Synch.InterruptQueueLaw
import CS162.Synch.MonitorLaw
import CS162.Pintos.SharedPoolsLaw
import CS162.Pintos.FileSystemReload
import CS162.Pintos.FileStoreRefine
import CS162.Pintos.ArchiveLaw
import CS162.Pintos.SegmentLoop
import CS162.Pintos.PageDirectoryLaw
import CS162.MapReduce.MalformedFiles
import CS162.Pintos.PartitionTable
import CS162.Pintos.Division
import CS162.Pintos.BitmapWordsLaw
import CS162.Pintos.CommandLineLaw
import CS162.Pintos.UstarBlockLaw
import CS162.Pintos.KernelListSortLaw
import CS162.Pintos.ArraySearchLaw
import CS162.Pintos.MemMove
import CS162.Synch.InterruptQueueFifo
import CS162.HttpServer.DirectoryBuffers
import CS162.HttpServer.DescriptorsLaw
import CS162.Shell.ExecuteLaw
import CS162.WordCount.FileWordsLaw
import CS162.Pintos.FormatStringLaw
import CS162.Pintos.FixedPoint
import CS162.MapReduceRs.DamagedData
import CS162.MapReduce.WordMapLaw
import CS162.MapReduce.GrepLaw
import CS162.Synch.SerialPort
import CS162.Synch.ConsoleLock
import CS162.Pintos.TimeSlices
import CS162.Pintos.TextScreen
