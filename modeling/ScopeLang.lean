import ScopeLang.Host.Toolkit
import ScopeLang.Main
import ScopeLang.Proofs.Cli.Listing
import ScopeLang.Proofs.Eval.Accounting
import ScopeLang.Proofs.Eval.Ancestry
import ScopeLang.Proofs.Eval.Assignment
import ScopeLang.Proofs.Eval.Interrupted
import ScopeLang.Proofs.Eval.Isolation
import ScopeLang.Proofs.Eval.Provenance
import ScopeLang.Proofs.Eval.Resolution
import ScopeLang.Proofs.Eval.Termination
import ScopeLang.Proofs.Session.Lexical
import ScopeLang.Proofs.Session.Logging
import ScopeLang.Proofs.Session.Refusal
import ScopeLang.Proofs.Session.Split
import ScopeLang.Proofs.Settings.Reading
import ScopeLang.Proofs.Token.Lookahead
import ScopeLang.Proofs.Tree.Climbing
import ScopeLang.Proofs.Tree.Compositional
import ScopeLang.Proofs.Tree.Faithful
import ScopeLang.Proofs.Tree.Progress
import ScopeLang.Proofs.Tree.Shape
