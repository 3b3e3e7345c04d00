import PysdkModel.FieldMask.Theorems.Recognition
import PysdkModel.FieldMask.Theorems.Intersection
import PysdkModel.FieldMask.Theorems.RoundTrip
import PysdkModel.FieldMask.Theorems.Cycles
import PysdkModel.FieldMask.Theorems.Matching
import PysdkModel.Protos.Theorems.ResetMask
import PysdkModel.Protos.Theorems.Assignment
import PysdkModel.Protos.Theorems.Canonical
import PysdkModel.Aio.Theorems.Arbitration
import PysdkModel.Aio.Theorems.Shutdown
import PysdkModel.Aio.Theorems.Drain
import PysdkModel.Aio.Theorems.Budget
import PysdkModel.Aio.Theorems.Schedule
import PysdkModel.Protos.Theorems.Skip
import PysdkModel.Protos.Theorems.Normalize
import PysdkModel.Protos.Theorems.JsonNames
import PysdkModel.Token.Theorems.TokenCache
import PysdkModel.Token.Theorems.TokenMap
import PysdkModel.Token.Theorems.Invalidation
import PysdkModel.Token.Theorems.CacheMiss
import PysdkModel.Token.Theorems.ForcedFileRenewal
import PysdkModel.Token.Theorems.Stopping
import PysdkModel.Token.Theorems.FileCacheReceiver
import PysdkModel.Token.Theorems.Sanitizer
import PysdkModel.Protos.Theorems.WellKnown
import PysdkModel.Protos.Theorems.FieldMaskJson
import PysdkModel.FieldMask.Theorems.InPlace
import PysdkModel.Token.Theorems.RetryDelay
import PysdkModel.Aio.Theorems.ExceptionHandler
import PysdkModel.Aio.Theorems.Executor
import PysdkModel.Aio.Theorems.CrossLoop
import PysdkModel.Aio.Theorems.Bookkeeping
import PysdkModel.Aio.Theorems.Recorded
import PysdkModel.Aio.Theorems.RpcStatus
import PysdkModel.Aio.Theorems.MetadataItems
import PysdkModel.Aio.Theorems.Keepalive
import PysdkModel.Aio.Theorems.Operation
import PysdkModel.Aio.Theorems.Stream
