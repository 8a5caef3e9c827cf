import Patchwork.Main
import Patchwork.Proofs.Apply.Blame
import Patchwork.Proofs.Apply.Composition
import Patchwork.Proofs.Apply.Confinement
import Patchwork.Proofs.Apply.Difference
import Patchwork.Proofs.Apply.Effect
import Patchwork.Proofs.Apply.Failure
import Patchwork.Proofs.Apply.Frame
import Patchwork.Proofs.Apply.Independence
import Patchwork.Proofs.Apply.Interruption
import Patchwork.Proofs.Apply.Move
import Patchwork.Proofs.Apply.Quiet
import Patchwork.Proofs.Apply.Refinement
import Patchwork.Proofs.Apply.Reversal
import Patchwork.Proofs.Apply.Splitting
import Patchwork.Proofs.Apply.Trial
import Patchwork.Proofs.Apply.Unwritten
import Patchwork.Proofs.Change.Inverse
import Patchwork.Proofs.Change.Json
import Patchwork.Proofs.Change.Task
import Patchwork.Proofs.Diff.Merging
import Patchwork.Proofs.Diff.Noise
import Patchwork.Proofs.Diff.Opening
import Patchwork.Proofs.Diff.Returns
import Patchwork.Proofs.Diff.WellFormed
import Patchwork.Proofs.Hunk.Bytes
import Patchwork.Proofs.Hunk.Inverse
import Patchwork.Proofs.Hunk.Origins
import Patchwork.Proofs.Hunk.Quoting
import Patchwork.Proofs.Hunk.Returns
import Patchwork.Proofs.Hunk.Simultaneous
import Patchwork.Proofs.Json.Reader
import Patchwork.Proofs.Lines.Canonical
import Patchwork.Proofs.Path.Display
import Patchwork.Proofs.Store.Refusal
