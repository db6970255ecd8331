import FreewpcSched.Code.Binary64
import FreewpcSched.Code.Libc
import FreewpcSched.Code.Table
import FreewpcSched.Code.Parse
import FreewpcSched.Code.Emit
import FreewpcSched.Code.Main
import FreewpcSched.Code.Memset
import FreewpcSched.Code.Copy
import FreewpcSched.Code.FreeTimer
import FreewpcSched.Target.Exec
import FreewpcSched.Proofs.Pow2
import FreewpcSched.Proofs.AddTask
import FreewpcSched.Proofs.Invariant
import FreewpcSched.Proofs.Layout
import FreewpcSched.Proofs.Handler
import FreewpcSched.Proofs.Program
import FreewpcSched.Proofs.Input
import FreewpcSched.Proofs.Dispatch
import FreewpcSched.Proofs.Stable
import FreewpcSched.Proofs.Average
import FreewpcSched.Proofs.Double
import FreewpcSched.Proofs.Monotone
import FreewpcSched.Proofs.BestTick
import FreewpcSched.Proofs.Load
import FreewpcSched.Proofs.Advice
import FreewpcSched.Proofs.Memset
import FreewpcSched.Proofs.Copy
import FreewpcSched.Proofs.FreeTimer
