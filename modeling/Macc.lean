import Macc.Text.Blank
import Macc.Text.Line
import Macc.Text.Numeral
import Macc.Text.Style
import Macc.Instruction.Printing
import Macc.Assembly.Program
import Macc.Image.Flat
import Macc.Image.Hex
import Macc.Machine.Sequencer
import Macc.Machine.Region
import Macc.Assembly.Listing
import Macc.Config.Basic
import Macc.Config.Reader
import Macc.CommandLine.Assemble
import Macc.CommandLine.Simulate
import Macc.Main
import Macc.Proofs.Assembly.Actions
import Macc.Proofs.Assembly.Emission
import Macc.Proofs.Assembly.Checking
import Macc.Proofs.Text.Words
import Macc.Proofs.Assembly.Summands
import Macc.Proofs.Assembly.Reading
import Macc.Proofs.Assembly.Cursor
import Macc.Proofs.Image.Words
import Macc.Proofs.Image.WordAccess
import Macc.Proofs.Assembly.SymbolTable
import Macc.Proofs.Assembly.Relocation
import Macc.Proofs.Assembly.Evaluation
import Macc.Proofs.Assembly.Layout
import Macc.Proofs.Assembly.InstructionWords
import Macc.Proofs.Assembly.InstructionLines
import Macc.Proofs.Assembly.Disassembly
import Macc.Proofs.Instruction.Styling
import Macc.Proofs.Instruction.RoundTrip
import Macc.Proofs.Image.SparseHex
import Macc.Proofs.Image.FlatImage
import Macc.Proofs.CommandLine.HandOver
import Macc.Proofs.Machine.Change
import Macc.Proofs.Machine.Runs
import Macc.Proofs.Image.Overlay
import Macc.Proofs.Machine.Memory
import Macc.Proofs.Machine.Faults
import Macc.Proofs.Machine.Tracing
import Macc.Proofs.Machine.Limits
import Macc.Proofs.Machine.CallStack
import Macc.Proofs.Machine.Likeness
import Macc.Proofs.Machine.Observer
import Macc.Proofs.Machine.Masks
import Macc.Proofs.Machine.WordArithmetic
import Macc.Proofs.Machine.Reachable
import Macc.Proofs.Assembly.View
import Macc.Proofs.Assembly.SymbolPlacement
import Macc.Proofs.Assembly.Continuation
import Macc.Proofs.Assembly.SourceLines
import Macc.Proofs.Assembly.ErrorLines
import Macc.Proofs.Assembly.DataLines
import Macc.Proofs.Machine.Reduction
import Macc.Proofs.Machine.StraightLine
import Macc.Proofs.Toolchain.Labels
import Macc.Proofs.Toolchain.DotProduct
import Macc.Proofs.CommandLine.Outputs
import Macc.Proofs.Machine.EndOfMemory
import Macc.Proofs.Machine.Loads
import Macc.Proofs.Machine.Rotation
import Macc.Proofs.Machine.Frame
import Macc.Proofs.Machine.Vectors
import Macc.Proofs.Machine.CodeCache
import Macc.Proofs.Machine.RepeatedLoads
import Macc.Proofs.Assembly.Operands
import Macc.Proofs.Machine.Accounts
import Macc.Proofs.Machine.Transfers
import Macc.Proofs.Machine.Dumps
import Macc.Proofs.Machine.StateBox
import Macc.Proofs.Assembly.Literals
import Macc.Proofs.Assembly.FailingLines
import Macc.Proofs.Assembly.DataRows
import Macc.Proofs.Assembly.Appearance
import Macc.Proofs.Assembly.Listings
import Macc.Proofs.Assembly.Operations
import Macc.Proofs.Assembly.DanglingSigns
import Macc.Proofs.Assembly.LineEnds
import Macc.Proofs.Image.HexListing
import Macc.Proofs.Image.HexSections
