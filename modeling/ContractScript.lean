import ContractScript.Symbol.Reader
import ContractScript.Proofs.MethodTokens
import ContractScript.Proofs.Coverage
import ContractScript.Proofs.Documents
import ContractScript.Proofs.FixedPoint
import ContractScript.Proofs.ScopeTree
import ContractScript.Proofs.ItemOrder
import ContractScript.Proofs.GuardedCalls
import ContractScript.Proofs.BareDeclarations
import ContractScript.Proofs.Grammar
import ContractScript.Proofs.JumpState
import ContractScript.Proofs.Hygiene
import ContractScript.Proofs.DebugMap
import ContractScript.Proofs.Parentheses
import ContractScript.Proofs.Notifications
import ContractScript.Proofs.HashTexts
import ContractScript.Proofs.DocumentNumbers
import ContractScript.Proofs.EncoderRuns
import ContractScript.Proofs.OperationLists
