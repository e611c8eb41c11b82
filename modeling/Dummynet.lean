import Dummynet.HeapRuns
import Dummynet.HtRuns
import Dummynet.Queue
import Dummynet.Sched
import Dummynet.Wf2q.Fairness
import Dummynet.Wf2q.Eligible
import Dummynet.Prio
import Dummynet.Rr.Fairness
import Dummynet.Qfq.Lists
import Dummynet.Fifo
import Dummynet.Alg
import Dummynet.System.Commands
import Dummynet.System.Events
import Dummynet.System.Replace
import Dummynet.System.FlowMatch
import Dummynet.System.DrainBound
import Dummynet.System.Links
import Dummynet.Ipfw.Uses
import Dummynet.Ipfw.Order
import Dummynet.Ipfw.Resume
import Dummynet.Ipfw.Hook
import Dummynet.Ipfw.ByteOrder
import Dummynet.Ipfw.Blocks
import Dummynet.Ipfw.Limit
import Dummynet.Ipfw.Nat
import Dummynet.Ipfw.NatCache
import Dummynet.Ipfw.LookupTable
import Dummynet.Lib.Clock
import Dummynet.System.Arrive
import Dummynet.System.Again
import Dummynet.System.Respected
import Dummynet.System.Idle
import Dummynet.System.Lifetime
import Dummynet.HtScan
import Dummynet.System.ClockTrack
import Dummynet.System.Red
import Dummynet.System.RedProb
import Dummynet.HeapScan
import Dummynet.Ipfw.Delete
import Dummynet.Ipfw.Bidirectional
import Dummynet.Ipfw.Install
import Dummynet.Ipfw.Header6
import Dummynet.Ipfw.TcpSession
import Dummynet.Ipfw.Keepalive
import Dummynet.Ipfw.Convert
import Dummynet.Ipfw.Account
import Dummynet.System.Samples
import Dummynet.System.WakeUp
import Dummynet.System.Pairs
import Dummynet.Tool.Profile
import Dummynet.Tool.Config
import Dummynet.Tool.CommandNumbers
import Dummynet.Tool.Reload
import Dummynet.Qfq.Index
import Dummynet.Tool.Listed
import Dummynet.Tool.SysctlTrip
import Dummynet.Tool.ArgsAgree
import Dummynet.Ipfw.NatCfg
import Dummynet.Lib.Filling
import Dummynet.System.Get
import Dummynet.System.GetComplete
import Dummynet.Ipfw.GetRulesFaithful
import Dummynet.System.Counts
import Dummynet.System.Order
import Dummynet.System.Limits
import Dummynet.System.Timely
import Dummynet.System.Waiting
import Dummynet.System.TimerEnds
