import Armfortas.Codegen.Theorems.Abi
import Armfortas.Codegen.Theorems.Emit
import Armfortas.Codegen.Theorems.LinearScan
import Armfortas.Codegen.Theorems.RelaxBranches
import Armfortas.Driver.Theorems.DepScan
import Armfortas.Ir.Theorems.Loops
import Armfortas.Ir.Theorems.Verify
import Armfortas.Opt.Theorems.CallGraph
import Armfortas.Opt.Theorems.DeadArg
import Armfortas.Opt.Theorems.DepAnalysis
import Armfortas.Opt.Theorems.Interchange
import Armfortas.Opt.Theorems.JumpThread
import Armfortas.Opt.Theorems.Pass
import Armfortas.Opt.Theorems.Sccp
import Armfortas.Opt.Theorems.SimplifyCfg
import Armfortas.Opt.Theorems.Sroa
import Armfortas.Runtime.Theorems.Assign
import Armfortas.Runtime.Theorems.Collapse
import Armfortas.Runtime.Theorems.Compare
import Armfortas.Runtime.Theorems.Contention
import Armfortas.Runtime.Theorems.Format
import Armfortas.Runtime.Theorems.Layout
import Armfortas.Runtime.Theorems.Ordered
import Armfortas.Runtime.Theorems.Overlay
import Armfortas.Runtime.Theorems.Reduction
import Armfortas.Runtime.Theorems.Schedules
import Armfortas.Runtime.Theorems.Records
import Armfortas.Sema.Theorems.TypeLayout
