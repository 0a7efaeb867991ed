import MiniJava.Main
import MiniJava.Proofs.Assembly.Words
import MiniJava.Proofs.ClassTable.Layout
import MiniJava.Proofs.CommandLine.Build
import MiniJava.Proofs.Compile.Positions
import MiniJava.Proofs.Compile.Spacing
import MiniJava.Proofs.Diagnostic.Caret
import MiniJava.Proofs.Diagnostic.Locate
import MiniJava.Proofs.Execution.Arrays
import MiniJava.Proofs.Execution.Calls
import MiniJava.Proofs.Execution.Objects
import MiniJava.Proofs.Execution.StackDiscipline
import MiniJava.Proofs.Machine.Limits
import MiniJava.Proofs.Machine.WellFormed
import MiniJava.Proofs.Parse.Recovery
import MiniJava.Proofs.Parse.Termination
import MiniJava.Proofs.Simulation.Programs
import MiniJava.Proofs.Tree.Partial
