import BoAtom.Mem.Answers
import BoAtom.Mem.Bounds
import BoAtom.Mem.Grammar
import BoAtom.Mem.Replies
import BoAtom.Mem.Delivery
import BoAtom.Mem.Snapshots
import BoAtom.Skiplist.Ranges
import BoAtom.Upgrade.Frames
import BoAtom.Mem.Accept
import BoAtom.Mem.Released
import BoAtom.Mem.Returns
import BoAtom.Mem.RecvBounds
import BoAtom.Mem.Stale
import BoAtom.Upgrade.Checksum
import BoAtom.Upgrade.Echo
import BoAtom.Upgrade.AddHead
import BoAtom.NetTool.Stream
import BoAtom.Ae.Dispatch
import BoAtom.Atom.TcpServer
import BoAtom.Lib.LinkedQueue
import BoAtom.Mem.Queues
import BoAtom.Mem.ClientCalls
import BoAtom.RedisDict.LoadFactor
import BoAtom.RedisDict.Scan
import BoAtom.RedisDict.SafeWalk
import BoAtom.RedBlack.Traverse
import BoAtom.Ae.Poll
import BoAtom.Mem.Ketama
import BoAtom.Ae.Backend
import BoAtom.Lib.Blocks
import BoAtom.Md5.Md32Common
import BoAtom.Mem.Md5
