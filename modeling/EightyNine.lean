import EightyNine.Adt89.Returns
import EightyNine.Adt89.Spared
import EightyNine.Bpf.Agree
import EightyNine.Bpf.ByteMap
import EightyNine.Bpf.Calls
import EightyNine.Bpf.Gate
import EightyNine.Bpf.Rfc
import EightyNine.Bwt89.BwtsRange
import EightyNine.Cat89.BuildOk
import EightyNine.Cat89.Check
import EightyNine.Cat89.Cone
import EightyNine.Cat89.FindMemOk
import EightyNine.Cat89.Constructed
import EightyNine.Cksum89.Inet16
import EightyNine.Dl89.Least
import EightyNine.Fsm89.Deterministic
import EightyNine.Fx89.Preserve
import EightyNine.Hm89.RefuseOk
import EightyNine.J89.PrintOk
import EightyNine.J89.RefuseOk
import EightyNine.J89a.Fold
import EightyNine.J89a.Map
import EightyNine.J89a.Object
import EightyNine.Jrpc89.IoOk
import EightyNine.Led89.Reopen
import EightyNine.Llm89.SseOk
import EightyNine.Raft89.Ahead
import EightyNine.Raft89.Cluster
import EightyNine.Raft89.Repair
import EightyNine.Repl89.Runs
import EightyNine.Repl89.Vertical
import EightyNine.Syntax89.WalkOk
import EightyNine.U89.Sizes
import EightyNine.Wasm89.BudgetOk
import EightyNine.Wasm89.IsoRecursive
import EightyNine.Wasm89.Leb
import EightyNine.Wasm89.NumericOk
import EightyNine.Wasm89.Returns
import EightyNine.Wasm89.Throw
import EightyNine.Library.Blocks
