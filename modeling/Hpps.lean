import Hpps.Common.Random
import Hpps.Feeder.Utils
import Hpps.Lib.TransitionSystem
import Hpps.Lib.Network
import Hpps.Lib.History
import Hpps.Scheduler.Lockstep
import Hpps.Scheduler.FinishTrain
import Hpps.Kv.Checkpoint
import Hpps.Kv.Clear
import Hpps.Kv.Capacity
import Hpps.Kv.KVCluster
import Hpps.Kv.FiniteMap
import Hpps.Kv.Partition
import Hpps.Kv.DistributedGet
import Hpps.Net.Allgather
import Hpps.Net.Groups
import Hpps.Net.ReduceScatter
import Hpps.Net.Allreduce
import Hpps.Lib.Reduction
import Hpps.Feeder.RecordIo
import Hpps.Frame.Registration
import Hpps.Frame.Barrier
import Hpps.Frame.StoreLoad
import Hpps.Frame.CallOrder
import Hpps.Frame.CreateTable
import Hpps.Net.Message
import Hpps.Net.ZMQAllgather
import Hpps.Kv.KVWorkerTable
import Hpps.Kv.BlackList
import Hpps.Kv.RowInit
import Hpps.Kv.Isolation
import Hpps.Table.ArrayRead
import Hpps.Table.ModelAverage
import Hpps.Kv.AddAsync
import Hpps.Kv.Updates
import Hpps.Yarn.Accounting
import Hpps.Feeder.Starvation
import Hpps.Table.Restore
import Hpps.Common.Allocator
import Hpps.Common.Blob
import Hpps.Feeder.TensorBuffer
import Hpps.Feeder.Split
import Hpps.Feeder.GroupedSplit
import Hpps.Feeder.QueueBound
import Hpps.Table.Slicing
import Hpps.Table.ArrayBuffers
import Hpps.Updater.Adam
import Hpps.Updater.AdaGrad
import Hpps.Kv.WakeUp
import Hpps.Common.Configure
import Hpps.Updater.WorkerId
import Hpps.Feeder.Batch
import Hpps.Feeder.RowCount
import Hpps.Scheduler.SlowestWorker
import Hpps.Python.Eval
import Hpps.Net.MPINet
import Hpps.Feeder.Delivery
import Hpps.Common.Queue
import Hpps.Lib.Refinement
import Hpps.Frame.Actor
import Hpps.Lib.Channels
import Hpps.Frame.Communicator
import Hpps.Table.AsyncRead
import Hpps.Feeder.Stop
import Hpps.Common.HdfsStream
import Hpps.Common.Uri
import Hpps.Table.SyncArray
import Hpps.Frame.Joins
