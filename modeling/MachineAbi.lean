import MachineAbi.Target.Recorded
import MachineAbi.Machine.Text
import MachineAbi.Lowering.Call
import MachineAbi.Proofs.Alignment
import MachineAbi.Proofs.Source.Sealing
import MachineAbi.Proofs.Source.Room
import MachineAbi.Proofs.Source.Identity
import MachineAbi.Proofs.Machine.Sharing
import MachineAbi.Proofs.Machine.Frozen
import MachineAbi.Proofs.Target.Supported
import MachineAbi.Proofs.Passing.Members
import MachineAbi.Proofs.Lowering.Consistency
import MachineAbi.Proofs.Lowering.Calls
import MachineAbi.Proofs.Lowering.Structs
import MachineAbi.Proofs.Aggregate.Building
import MachineAbi.Proofs.Lowering.Order
import MachineAbi.Proofs.Lowering.Repetition
import MachineAbi.Proofs.Lowering.ErrorCodes
import MachineAbi.Proofs.Lowering.Splits
import MachineAbi.Proofs.Lowering.Refusals
import MachineAbi.Proofs.Lowering.Shapes
import MachineAbi.Proofs.Lowering.ByReference
import MachineAbi.Proofs.Passing.RegisterKinds
import MachineAbi.Proofs.Passing.MemoryClass
import MachineAbi.Proofs.Passing.MemberOrder
import MachineAbi.Proofs.Passing.Homogeneous
import MachineAbi.Proofs.Lowering.Enums
import MachineAbi.Proofs.Lowering.InBand
import MachineAbi.Proofs.Decimal
import MachineAbi.Proofs.Machine.Names
import MachineAbi.Proofs.Machine.Written
import MachineAbi.Proofs.Lowering.Attributes
import MachineAbi.Proofs.Lowering.Recursion
import MachineAbi.Proofs.Target.Triples
import MachineAbi.Proofs.Source.ErrorSets
import MachineAbi.Proofs.Passing.Frame
import MachineAbi.Proofs.Lowering.Extension
import MachineAbi.Proofs.Target.AlignTables
import MachineAbi.Proofs.TightPlacement
