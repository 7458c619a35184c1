import Busybee.Crowd
import Busybee.Transaction
import Busybee.StepChanged
import Busybee.QueueBatch
import Busybee.QueueAppend
import Busybee.QueueClean
import Busybee.StartInstance
import Busybee.Controller
import Busybee.Snapshot
import Busybee.Routing
import Busybee.RangeCache
import Busybee.KVLoader
import Busybee.StepEvents
import Busybee.Tick
import Busybee.WorkerStates
import Busybee.Registry
import Busybee.CountState
