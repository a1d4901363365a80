import TypeFour.Addressing
import TypeFour.BoundedFunction
import TypeFour.Main
import TypeFour.Proofs.Addressing
import TypeFour.Proofs.Angles
import TypeFour.Proofs.Arguments
import TypeFour.Proofs.Bits
import TypeFour.Proofs.Blocks
import TypeFour.Proofs.Bound
import TypeFour.Proofs.Clipping
import TypeFour.Proofs.Command
import TypeFour.Proofs.Composition
import TypeFour.Proofs.Copies
import TypeFour.Proofs.DecimalRounding
import TypeFour.Proofs.Deferred
import TypeFour.Proofs.Delivered
import TypeFour.Proofs.Depth
import TypeFour.Proofs.EverySource
import TypeFour.Proofs.Failures
import TypeFour.Proofs.Faults
import TypeFour.Proofs.Finiteness
import TypeFour.Proofs.FloatArithmetic
import TypeFour.Proofs.FloatOrder
import TypeFour.Proofs.FloatRange
import TypeFour.Proofs.FloatRemainder
import TypeFour.Proofs.FloatValue
import TypeFour.Proofs.HalfUp
import TypeFour.Proofs.InStep
import TypeFour.Proofs.IntegerQuotient
import TypeFour.Proofs.Invariants
import TypeFour.Proofs.Lenient
import TypeFour.Proofs.Limits
import TypeFour.Proofs.Linear
import TypeFour.Proofs.Locality
import TypeFour.Proofs.Lockstep
import TypeFour.Proofs.Mapping
import TypeFour.Proofs.Moments
import TypeFour.Proofs.Nesting
import TypeFour.Proofs.NoOps
import TypeFour.Proofs.NumberWords
import TypeFour.Proofs.Numerals
import TypeFour.Proofs.Operands
import TypeFour.Proofs.Outputs
import TypeFour.Proofs.Phrase
import TypeFour.Proofs.Policies
import TypeFour.Proofs.Reading
import TypeFour.Proofs.Recording
import TypeFour.Proofs.Remainder
import TypeFour.Proofs.Renaming
import TypeFour.Proofs.Results
import TypeFour.Proofs.Room
import TypeFour.Proofs.Rotation
import TypeFour.Proofs.Rounding
import TypeFour.Proofs.Scanning
import TypeFour.Proofs.Shifts
import TypeFour.Proofs.Simulation
import TypeFour.Proofs.Slots
import TypeFour.Proofs.Spelling
import TypeFour.Proofs.Stages
import TypeFour.Proofs.Steps
import TypeFour.Proofs.Structured
import TypeFour.Proofs.Truncation
import TypeFour.Proofs.Unchosen
import TypeFour.Proofs.WellFormed
