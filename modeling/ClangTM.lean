import ClangTM.TinySTM.Wbctl.Wrap
import ClangTM.TinySTM.Wbetl.Serializability
import ClangTM.TinySTM.Wbetl.Bitmap
import ClangTM.TinySTM.Wbetl.Token
import ClangTM.Rust.NOrec.Serializability
import ClangTM.TL2.Serializability
import ClangTM.Rust.TinySTM.Wbctl.Serializability
import ClangTM.Rust.TL2.Serializability
import ClangTM.Rust.LeftRight.Serializability
import ClangTM.MVLog.Serializability
import ClangTM.MVLog.SequentialRun
import ClangTM.NOrecBF.Refinement
import ClangTM.TscTM.Serializability
import ClangTM.Simulator.Engine.Checkpoint
import ClangTM.Rust.Snapshot
import ClangTM.Rust.Dudetm.RedoLog
import ClangTM.LeftRight.Serializability
import ClangTM.TsxSgl.Elision
import ClangTM.GaccO.TwoPhase
import ClangTM.Queue.Shutdown
import ClangTM.DistributedSGL.Serializability
import ClangTM.Spht.Replay
import ClangTM.LeftRight.QueueMode
import ClangTM.Jvstm.Snapshot
import ClangTM.Plugin.BlockCopy
import ClangTM.Plugin.Intrinsics
import ClangTM.Plugin.AccessWidth
import ClangTM.PersistentSGL.Image
import ClangTM.Simulator.Engine.UseAfterFree
import ClangTM.GaccO.Undo
import ClangTM.TL2.WriteSet
import ClangTM.NOrec.WriteSet
import ClangTM.Rust.NOrec.WriteSet
import ClangTM.Barrier
import ClangTM.SwissTM.WriteLog
import ClangTM.Simulator.TmModel.Solo
import ClangTM.Hooks.Table
