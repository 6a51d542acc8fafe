import StyleScript.Main
import StyleScript.Proofs.RoundTrip
import StyleScript.Proofs.Accounting
import StyleScript.Proofs.DraftReading
import StyleScript.Proofs.DraftRoundTrip
import StyleScript.Proofs.Declarations
import StyleScript.Proofs.Legibility
import StyleScript.Proofs.Lookups
import StyleScript.Proofs.Diagnostics
import StyleScript.Proofs.Mentions
import StyleScript.Proofs.Respelling
import StyleScript.Proofs.Extension
import StyleScript.Proofs.Concatenation
import StyleScript.Proofs.Strays
import StyleScript.Proofs.Callable
import StyleScript.Proofs.HeadClosing
import StyleScript.Proofs.IntegerText
import StyleScript.Proofs.Termination
import StyleScript.Proofs.Operations
import StyleScript.Proofs.Failures
import StyleScript.Proofs.Invocation
import StyleScript.Proofs.Units
import StyleScript.Proofs.HeadGrammar
import StyleScript.Proofs.ExprFaults
import StyleScript.Proofs.Fallbacks
import StyleScript.Proofs.Quotients
import StyleScript.Proofs.TriviaParts
import StyleScript.Proofs.Forward
