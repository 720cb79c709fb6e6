import QuorumCrypt.Orchestration.OneRound
import QuorumCrypt.Schemes.Soundness

/-!
# Requests whose shares carry a proof

A share for Sg02 or Cks05 is accepted for its proof, and a proof of a false statement may go through by
chance. As long as none of the shares that the executors of a node have taken did, the network has no say
in the answers of the node.
-/

namespace QuorumCrypt

open Rust

variable {K : Curves}

end QuorumCrypt
