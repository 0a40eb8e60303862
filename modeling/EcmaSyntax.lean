import EcmaSyntax.Tree.Trace
import EcmaSyntax.Format.Basic
import EcmaSyntax.Main
import EcmaSyntax.Proofs.Tolerance
import EcmaSyntax.Proofs.Lines
import EcmaSyntax.Proofs.MarkupBraces
import EcmaSyntax.Proofs.Elements
import EcmaSyntax.Proofs.Attachment
import EcmaSyntax.Proofs.HiddenLine
import EcmaSyntax.Proofs.Listing
import EcmaSyntax.Proofs.Rivals
import EcmaSyntax.Proofs.CoverGrammar
import EcmaSyntax.Proofs.Jumps
import EcmaSyntax.Proofs.Newlines
import EcmaSyntax.Proofs.ReservedWords
import EcmaSyntax.Proofs.Arrows.Program
import EcmaSyntax.Proofs.Walking
import EcmaSyntax.Proofs.Operators
import EcmaSyntax.Proofs.Numbers
import EcmaSyntax.Proofs.Lexing
import EcmaSyntax.Proofs.Messages
import EcmaSyntax.Proofs.Ownership
import EcmaSyntax.Proofs.Indentation
import EcmaSyntax.Proofs.Formatting
