import Lpl.Cli.FileTree
import Lpl.Machine.Run
import Lpl.Main
import Lpl.Session
import Lpl.Token.Vector
import Lpl.Proofs.Declarations
import Lpl.Proofs.Emission
import Lpl.Proofs.Calls
import Lpl.Proofs.Execution
import Lpl.Proofs.Interpreter
import Lpl.Proofs.Labels
import Lpl.Proofs.Linking
import Lpl.Proofs.Parsing.Basic
import Lpl.Proofs.Parsing.Completeness
import Lpl.Proofs.Parsing.Program
import Lpl.Proofs.Preservation
import Lpl.Proofs.StackHeight
import Lpl.Proofs.Lexing.Tokenize
import Lpl.Proofs.Errors.Program
import Lpl.Proofs.Printing.RoundTrip
import Lpl.Proofs.Acceptance
import Lpl.Proofs.Sessions
import Lpl.Proofs.Layout.Relaid
import Lpl.Proofs.Layout.Parsing
import Lpl.Proofs.Layout.Compiling
import Lpl.Proofs.Blame.Faults
import Lpl.Proofs.Blame.Sites
import Lpl.Proofs.Blame.Located
import Lpl.Proofs.Balance.Slots
import Lpl.Proofs.Balance.Frames
import Lpl.Proofs.Balance.Run
import Lpl.Proofs.Generation
import Lpl.Proofs.Coupling
import Lpl.Proofs.Sections
import Lpl.Proofs.Independence
import Lpl.Proofs.DataLayout
import Lpl.Proofs.WordSize
import Lpl.Proofs.Listing
import Lpl.Proofs.Lines
import Lpl.Proofs.Comparison
import Lpl.Proofs.Switch.Layout
import Lpl.Proofs.Switch.Dispatch
import Lpl.Proofs.Arrays.Blocks
import Lpl.Proofs.Arrays.Allocation
import Lpl.Proofs.Arrays.Access
import Lpl.Proofs.Arrays.ReadOverWrite
import Lpl.Proofs.Arrays.Trees
import Lpl.Proofs.FrameSlots
import Lpl.Proofs.Lexing.Calls
import Lpl.Proofs.Lookahead.Positions
import Lpl.Proofs.Lookahead.Alternatives
import Lpl.Proofs.CommandLine
