import Ringio.Machine
import Ringio.Cursor
import Ringio.BoundedFifo
import Ringio.SpscRing
import Ringio.SpscLinearization
import Ringio.MpmcRing
import Ringio.MpmcSequential
import Ringio.MpmcWraparound
import Ringio.MpmcSystem
import Ringio.MpmcCalls
import Ringio.MpmcInvariant
import Ringio.MpmcSafety
import Ringio.MpmcDelivery
import Ringio.MpmcOwnership
import Ringio.MpmcVerdicts
import Ringio.MpmcProgress
import Ringio.Interleaving
import Ringio.MpmcStreams
import Ringio.LinkedStack
import Ringio.FreeList
import Ringio.FreeListSystem
import Ringio.FreeListSafety
import Ringio.FreeListStack
import Ringio.SqpollEngine
import Ringio.PoolLayout
import Ringio.FreeListSequential
import Ringio.FreeListProgress
import Ringio.DrainAccounting
import Ringio.SubmissionEncoding
import Ringio.Pipeline
import Ringio.Ingestion
import Ringio.HarvestAccounting
import Ringio.HarvestSizing
import Ringio.PipelineConservation
import Ringio.PipelineDrains
import Ringio.BufferLifecycle
import Ringio.CallsPerOp
import Ringio.BenchmarkLoop
import Ringio.BenchmarkDepth
import Ringio.ReleaseAcquire
import Ringio.SlotHandover
import Ringio.SpscOrders
import Ringio.SpscOrdersNeeded
import Ringio.MpmcOrders
import Ringio.MpmcOrdersInvariant
import Ringio.MpmcOrdersSafety
import Ringio.MpmcOrdersDelivery
import Ringio.MpmcOrdersNeeded
import Ringio.FreeListOrders
import Ringio.FreeListOrdersSafety
import Ringio.FreeListOrdersOwnership
import Ringio.ByteCopies
import Ringio.FixedBufferIo
import Ringio.ServiceRefinement
import Ringio.ServiceOrder
