import ProtocolProver.Decimal.Fixed
import ProtocolProver.Main
import ProtocolProver.Service.Basic
import ProtocolProver.Wire.Decode
import ProtocolProver.Wire.Encode
import ProtocolProver.Proofs.Recipes
import ProtocolProver.Proofs.AlgebraicClosure
import ProtocolProver.Proofs.RecordedRuns
import ProtocolProver.Proofs.ModelFiles
import ProtocolProver.Proofs.SearchBudget
import ProtocolProver.Proofs.CompleteUnification
import ProtocolProver.Proofs.GuardMatching
import ProtocolProver.Proofs.EnabledInstances
import ProtocolProver.Proofs.SortFlow
import ProtocolProver.Proofs.OpenNames
import ProtocolProver.Proofs.IsolatedLemmas
import ProtocolProver.Proofs.MostGeneralUnifiers
import ProtocolProver.Proofs.ExhaustedSearch
