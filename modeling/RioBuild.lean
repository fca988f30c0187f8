import RioBuild.Capacity.Redelivery
import RioBuild.Castore.Parsed
import RioBuild.Chunked.Accepted
import RioBuild.Controller.Sustained
import RioBuild.Dag.Initial
import RioBuild.Drv.Deferred
import RioBuild.Drv.Modulo
import RioBuild.Drv.NarInfo
import RioBuild.Drv.NixHash
import RioBuild.Drv.RoundTrip
import RioBuild.Fuse.Circuit
import RioBuild.Fuse.Mounted
import RioBuild.Gateway.Submission
import RioBuild.Lease.Election
import RioBuild.Listing.Partition
import RioBuild.Log.Account
import RioBuild.Log.Batcher
import RioBuild.Log.Chunks
import RioBuild.Log.Damaged
import RioBuild.Log.LiveTail
import RioBuild.Log.RelayExit
import RioBuild.Log.Stamp
import RioBuild.Log.Loss
import RioBuild.Materialize.Schedule
import RioBuild.Nar.Agree
import RioBuild.Nar.Restored
import RioBuild.Refscan.Sink
import RioBuild.Resume.Speculation
import RioBuild.Retry.Channel
import RioBuild.Retry.Contract
import RioBuild.Retry.CrashLoop
import RioBuild.Retry.FreeCloses
import RioBuild.Retry.Pacing
import RioBuild.Retry.Replay
import RioBuild.Wedge.Detected
import RioBuild.Wire.CellEvent
import RioBuild.Wire.Framed
