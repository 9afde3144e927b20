import Avm.Proofs.Code.Assembling
import Avm.Proofs.Code.Editing
import Avm.Proofs.Code.Grammar
import Avm.Proofs.Code.Words
import Avm.Proofs.Emit.Branching
import Avm.Proofs.Emit.Pushing
import Avm.Proofs.Emit.Sparing
import Avm.Proofs.Graph.Finishing
import Avm.Proofs.Interning
import Avm.Proofs.Lift.Agreeing
import Avm.Proofs.Lift.Nullish
import Avm.Proofs.Opt.Circling
import Avm.Proofs.Opt.Deciding
import Avm.Proofs.Opt.Outdating
import Avm.Proofs.Opt.Repeating
import Avm.Proofs.Run.Recalling
import Avm.Proofs.Run.Sharing
import Avm.Proofs.Sizes
