import RxSolutions.Host.CrashSafety
import RxSolutions.Host.Deadlines
import RxSolutions.Host.Reconciliation
import RxSolutions.Host.Lasting
import RxSolutions.Supervisor.Initializers
import RxSolutions.Executor.StopRounds
import RxSolutions.Executor.Sessions
import RxSolutions.Executor.Wal
import RxSolutions.Bt.Bindings
import RxSolutions.Process.Sufficiency
import RxSolutions.Package.Permissions
import RxSolutions.Bt.XmlValidation
import RxSolutions.Bt.Lookahead
import RxSolutions.Melsec.Frames
import RxSolutions.RosJtc.Agreement
import RxSolutions.RosJtc.Once
import RxSolutions.Dhi.Receiver
import RxSolutions.L3Guard.Serve
import RxSolutions.Wire.Agreement
