import Nowra.Run
import Nowra.Ring
import Nowra.Thpool
import Nowra.ThpoolQueue
import Nowra.ThpoolWait
import Nowra.Binhash
import Nowra.Events
import Nowra.Master
import Nowra.Monitor
import Nowra.Operation
import Nowra.Listening
import Nowra.Account
import Nowra.Dispatch
import Nowra.Reload
import Nowra.Channel
import Nowra.Roster
import Nowra.Children
import Nowra.Availability
import Nowra.Restart
import Nowra.Daemon
import Nowra.Mymalloc
import Nowra.Stringop
import Nowra.Argv
import Nowra.MasterEnt
import Nowra.SingleServer
import Nowra.Vstring
import Nowra.BinhashMem
import Nowra.TimerSpec
import Nowra.Timers
import Nowra.Throttle
import Nowra.Stop
import Nowra.Conf
import Nowra.Refresh
import Nowra.Interest
import Nowra.Pools
import Nowra.Range
import Nowra.Reserve
import Nowra.Epoll
import Nowra.Served
import Nowra.Iostuff
import Nowra.WriteBuf
import Nowra.Firing
import Nowra.Gossip
import Nowra.Pass
import Nowra.BinhashOrder
import Nowra.Callbacks
import Nowra.ConfLines
import Nowra.EntFields
import Nowra.Reading
import Nowra.Print
import Nowra.DirectCopy
import Nowra.Import
import Nowra.ArgvRuns
import Nowra.RingLists
import Nowra.Destroy
import Nowra.InetStuff
import Nowra.Nested
import Nowra.Timeouts
import Nowra.Atomic
import Nowra.Atomicity
import Nowra.BinhashBlocks
import Nowra.Crew
import Nowra.Messages
import Nowra.Reread
import Nowra.Returning
import Nowra.Launch
import Nowra.Framing
import Nowra.StatusPipe
import Nowra.Holdback
