import EmojiScript.Main
import EmojiScript.Proofs.Commands
import EmojiScript.Proofs.Concatenation
import EmojiScript.Proofs.Evaluation.Aliases
import EmojiScript.Proofs.Evaluation.Exact
import EmojiScript.Proofs.Evaluation.Faults
import EmojiScript.Proofs.Evaluation.Halting
import EmojiScript.Proofs.Evaluation.History
import EmojiScript.Proofs.Evaluation.Limits
import EmojiScript.Proofs.Evaluation.NestedCalls
import EmojiScript.Proofs.Evaluation.Prediction
import EmojiScript.Proofs.Evaluation.Reachable
import EmojiScript.Proofs.Evaluation.Recursion
import EmojiScript.Proofs.FaultLocation
import EmojiScript.Proofs.Grammar.Place
import EmojiScript.Proofs.Layout
import EmojiScript.Proofs.Listing
import EmojiScript.Proofs.Parser.Calls
import EmojiScript.Proofs.Parser.Completeness
import EmojiScript.Proofs.Parser.Earliest
import EmojiScript.Proofs.Parser.Lines
import EmojiScript.Proofs.Parser.Rendering
import EmojiScript.Proofs.Scanner.Bounds
import EmojiScript.Proofs.Scanner.Gaps
import EmojiScript.Proofs.Scanner.Precedence
import EmojiScript.Proofs.Scanner.Quotes
import EmojiScript.Proofs.Scanner.Spelling
import EmojiScript.Proofs.Scanner.Tiling
import EmojiScript.Proofs.Token.Names
import EmojiScript.Proofs.Tree.Document
import EmojiScript.Proofs.Tree.SExpr
import EmojiScript.Proofs.Evaluation.Frame
import EmojiScript.Proofs.Evaluation.Independence
import EmojiScript.Proofs.Evaluation.Regrouping
import EmojiScript.Proofs.Numerals
