import QuorumCrypt.Protocols.WideIds
import QuorumCrypt.Protocols.FrostPrecomputation
import QuorumCrypt.Protocols.FrostIdentity
import QuorumCrypt.Protocols.SignerGroups
import QuorumCrypt.Orchestration.KeyAgreement
import QuorumCrypt.Orchestration.FrostRobustness
import QuorumCrypt.Schemes.Integrity
import QuorumCrypt.Schemes.RoundTrip
import QuorumCrypt.Keys.RsaSigning
import QuorumCrypt.Schemes.Decoding
import QuorumCrypt.Schemes.Canonical
import QuorumCrypt.Schemes.RsaWeights
import QuorumCrypt.Schemes.PolynomialEvaluation
import QuorumCrypt.Keys.KeyLookup
import QuorumCrypt.Keys.FileRoundTrip
import QuorumCrypt.Keys.Atomicity
import QuorumCrypt.Keys.ParameterChecks
import QuorumCrypt.Orchestration.Answers
import QuorumCrypt.Orchestration.CacheCapacity
import QuorumCrypt.Orchestration.SyncResults
import QuorumCrypt.Orchestration.Deadlock
import QuorumCrypt.Orchestration.KeyManager
import QuorumCrypt.Service.RpcRequestHandler
import QuorumCrypt.Orchestration.ProvenShares
import QuorumCrypt.Orchestration.Liveness
import QuorumCrypt.Orchestration.FrostLiveness
