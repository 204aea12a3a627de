import DistributedKV.Verify.AppendOnly
import DistributedKV.Verify.Blocked
import DistributedKV.Verify.Channels
import DistributedKV.Verify.Failover
import DistributedKV.Verify.Faults
import DistributedKV.Verify.Installing
import DistributedKV.Verify.Linearizable
import DistributedKV.Verify.Loops
import DistributedKV.Verify.PowerFailure
import DistributedKV.Verify.Reads
import DistributedKV.Verify.Recovery
import DistributedKV.Verify.Replication
import DistributedKV.Verify.Retries
import DistributedKV.Verify.Roles
import DistributedKV.Verify.Safety
import DistributedKV.Verify.Sending
import DistributedKV.Verify.StateMachine
import DistributedKV.Verify.TailCache
import DistributedKV.Verify.Timers
import DistributedKV.Verify.Waiters
import DistributedKV.Verify.WordLog
