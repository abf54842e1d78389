import Zbaselib.Array.Exact
import Zbaselib.Array.Model
import Zbaselib.Array.Refinement
import Zbaselib.Array.Reports
import Zbaselib.Array.Storage
import Zbaselib.Base.Createdir
import Zbaselib.Base.Filemap
import Zbaselib.Base.Hash
import Zbaselib.Buffer.Concurrent
import Zbaselib.Buffer.Guards
import Zbaselib.Buffer.Model
import Zbaselib.Buffer.Refinement
import Zbaselib.Container.Manual
import Zbaselib.Container.Model
import Zbaselib.Container.Ownership
import Zbaselib.Container.Refinement
import Zbaselib.Ifaddrs.Listing
import Zbaselib.Ifaddrs.Model
import Zbaselib.Inet.Dotted
import Zbaselib.Inet.Format
import Zbaselib.Inet.Grammar
import Zbaselib.Inet.Groups
import Zbaselib.Inet.Lookup
import Zbaselib.Inet.Model
import Zbaselib.Inet.Pton
import Zbaselib.Inet.RoundTrip
import Zbaselib.Lib.Block
import Zbaselib.Lib.BlockHash
import Zbaselib.Lib.CString
import Zbaselib.Lib.Census
import Zbaselib.Lib.Condition
import Zbaselib.Lib.Decision
import Zbaselib.Lib.Horner
import Zbaselib.Lib.Memory
import Zbaselib.Lib.Monitor
import Zbaselib.Lib.Numeral
import Zbaselib.Lib.Program
import Zbaselib.Lib.RedBlack.Delete
import Zbaselib.Lib.RedBlack.Height
import Zbaselib.Lib.RedBlack.Insert
import Zbaselib.Lib.RedBlack.Tree
import Zbaselib.Lib.Ring
import Zbaselib.Lib.Separated
import Zbaselib.Lib.Sine
import Zbaselib.Lib.Slots
import Zbaselib.Lib.Trace
import Zbaselib.Lib.Transition
import Zbaselib.Lib.Words
import Zbaselib.Md5.Collision
import Zbaselib.Md5.Model
import Zbaselib.Md5.Rounds
import Zbaselib.Md5.Stream
import Zbaselib.Rbtree.Delete
import Zbaselib.Rbtree.Fixup
import Zbaselib.Rbtree.Interface
import Zbaselib.Rbtree.Layout
import Zbaselib.Rbtree.Logarithmic
import Zbaselib.Rbtree.Model
import Zbaselib.Rbtree.Order
import Zbaselib.Rbtree.Push
import Zbaselib.Rbtree.Rotate
import Zbaselib.Rbtree.Runs
import Zbaselib.Rbtree.Safety
import Zbaselib.Rbtree.Search
import Zbaselib.Rbtree.Unlink
import Zbaselib.Rbtree.Walk
import Zbaselib.Socket.Calls
import Zbaselib.Socket.Datagrams
import Zbaselib.Socket.Limit
import Zbaselib.Socket.Link
import Zbaselib.Socket.Model
import Zbaselib.Socket.Refinement
import Zbaselib.Socket.Refusal
import Zbaselib.Socket.Rounds
import Zbaselib.Socket.Sendn
import Zbaselib.Socket.Sizes
import Zbaselib.Socket.Stream
import Zbaselib.Threadpool.Accounting
import Zbaselib.Threadpool.Creation
import Zbaselib.Threadpool.Failures
import Zbaselib.Threadpool.Invariant
import Zbaselib.Threadpool.Model
import Zbaselib.Threadpool.Returned
import Zbaselib.Threadpool.Stopping
import Zbaselib.Threadpool.Wakeups
import Zbaselib.Win32Adapters.Layout
import Zbaselib.Win32Adapters.Listing
import Zbaselib.Win32Adapters.Model
import Zbaselib.Win32Cond.Invariant
import Zbaselib.Win32Cond.Model
import Zbaselib.Win32Cond.Wakeups
import Zbaselib.Win32Dir.Canonical
import Zbaselib.Win32Dir.Listing
import Zbaselib.Win32Dir.Model
import Zbaselib.Win32Dir.Path
import Zbaselib.Zlist.Conditional
import Zbaselib.Zlist.Interface
import Zbaselib.Zlist.Iterater
import Zbaselib.Zlist.Manual
import Zbaselib.Zlist.Model
import Zbaselib.Zlist.Operations
import Zbaselib.Zlist.Ownership
import Zbaselib.Zlist.Ring
import Zbaselib.Zlist.Runs
import Zbaselib.Zlist.Spec
