import PauliLowering.Main
import PauliLowering.Proofs.CommandEffects
import PauliLowering.Proofs.CorrectRounding
import PauliLowering.Proofs.EnvironmentFaults
import PauliLowering.Proofs.GateCensus
import PauliLowering.Proofs.GroupConsistency
import PauliLowering.Proofs.LineFaults
import PauliLowering.Proofs.LoweringDomain
import PauliLowering.Proofs.NestedBlock
import PauliLowering.Proofs.ParameterField
import PauliLowering.Proofs.ProgramText
import PauliLowering.Proofs.PushRuns
import PauliLowering.Proofs.SequentialFaults
import PauliLowering.Proofs.SettingsLayers
import PauliLowering.Proofs.SupportQueries
import PauliLowering.Proofs.SymbolRoundTrip
import PauliLowering.Proofs.TermLayout
import PauliLowering.Proofs.TermOutcome
