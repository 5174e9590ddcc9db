import Logo.CommandLine.Folder
import Logo.Main
import Logo.Proofs.Control.Delay
import Logo.Proofs.Control.Gate
import Logo.Proofs.Grammar.Discipline
import Logo.Proofs.Grammar.Errors
import Logo.Proofs.Grammar.Kinds
import Logo.Proofs.Grammar.Lines
import Logo.Proofs.Grammar.Printing
import Logo.Proofs.Machine.Callers
import Logo.Proofs.Machine.Calls
import Logo.Proofs.Machine.Completed
import Logo.Proofs.Machine.Definitions
import Logo.Proofs.Machine.Failing
import Logo.Proofs.Machine.Pausing
import Logo.Proofs.Machine.Pen
import Logo.Proofs.Machine.Renaming
import Logo.Proofs.Machine.Rounds
import Logo.Proofs.Machine.Soundness
import Logo.Proofs.Machine.Stopping
import Logo.Proofs.Machine.Termination
import Logo.Proofs.Token.Cursor
import Logo.Proofs.Token.Rescan
import Logo.Proofs.Token.Value
import Logo.Proofs.Tree.Cursor
import Logo.Proofs.Tree.Description
import Logo.Proofs.Tree.Outline
import Logo.Proofs.Turtle.Canvas
import Logo.Proofs.Turtle.Heading
import Logo.Session.Basic
import Logo.Tree.Cursor
import Logo.Tree.Record
