import Zuul.Fsm.LineRefinement
import Zuul.Fsm.CatchUp
import Zuul.Fsm.Events
import Zuul.Fsm.Fencing
import Zuul.Fsm.Retry
import Zuul.Fsm.Renewal
import Zuul.Fsm.Determinism
import Zuul.Fsm.Frame
import Zuul.Fsm.Sweep
import Zuul.Fsm.Election
import Zuul.Server.Waiting
import Zuul.Server.Successor
import Zuul.Server.Observe
import Zuul.Sessions.Reconnect
import Zuul.Sessions.Clamp
import Zuul.Sessions.Heartbeat
import Zuul.Sessions.Escape
import Zuul.Client.Session
import Zuul.Auth.Gate
import Zuul.Auth.Oidc
import Zuul.Access.Denied
import Zuul.Access.Blocking
import Zuul.Access.Browse
import Zuul.Access.AclFile
import Zuul.Raft.Forward
import Zuul.Raft.Membership
import Zuul.Cluster.Discovery
import Zuul.Watch.Windows
import Zuul.Fsm.Fairness
import Zuul.Raft.Topology
import Zuul.Watch.Aggregate
import Zuul.Dragonboat.Safety
