import Transport.Proofs.Bypass.Advance
import Transport.Proofs.Bypass.LookBack
import Transport.Proofs.Bypass.Strays
import Transport.Proofs.Dependence.EdgeTable
import Transport.Proofs.Dependence.LiveOut
import Transport.Proofs.Dependence.RangeComponent
import Transport.Proofs.Dependence.Reach
import Transport.Proofs.Machine.Immediate
import Transport.Proofs.Program.Rejection
import Transport.Proofs.Program.Unrolling
import Transport.Proofs.Resource.Search
import Transport.Proofs.Resource.Units
import Transport.Proofs.Scheduling.Progress
