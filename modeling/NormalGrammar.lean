import NormalGrammar.Main
import NormalGrammar.Proofs.Chart.ReadBack
import NormalGrammar.Proofs.CommandLine.Inputs
import NormalGrammar.Proofs.CommandLine.Samples
import NormalGrammar.Proofs.Heights.Passes
import NormalGrammar.Proofs.Indexing
import NormalGrammar.Proofs.Loading.Malformed
import NormalGrammar.Proofs.Loading.Violations
import NormalGrammar.Proofs.Monotonicity
import NormalGrammar.Proofs.Recognition.Extension
import NormalGrammar.Proofs.Recognition.Recording
import NormalGrammar.Proofs.Recognition.Warnings
import NormalGrammar.Proofs.Renaming
import NormalGrammar.Proofs.Sampling.Accounting
import NormalGrammar.Proofs.Sampling.Enumeration
import NormalGrammar.Proofs.Sampling.Shares
