import TreeMachine.Codegen.Summary
import TreeMachine.Main
import TreeMachine.Proofs.Codegen.Faultless
import TreeMachine.Proofs.SlotReuse
import TreeMachine.Proofs.Termination
import TreeMachine.Proofs.Walk.Soundness
import TreeMachine.Types.Summary
import TreeMachine.Proofs.Acceptance
import TreeMachine.Proofs.Types.Interning
import TreeMachine.Proofs.RoundTrip
import TreeMachine.Proofs.BoxedCalls
import TreeMachine.Proofs.Store.Equivalence
import TreeMachine.Proofs.Store.Separation
import TreeMachine.Proofs.Types.Overrides
import TreeMachine.Proofs.Codegen.Balance
import TreeMachine.Proofs.Arithmetic
import TreeMachine.Proofs.Types.Enums
import TreeMachine.Proofs.Codegen.Closures
import TreeMachine.Proofs.Codegen.Emission
