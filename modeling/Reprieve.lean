import Reprieve.Main
import Reprieve.Proofs.Conventions
import Reprieve.Proofs.Respelling
import Reprieve.Proofs.Inheritance
import Reprieve.Proofs.Untagged
import Reprieve.Proofs.Gate
import Reprieve.Proofs.Files
import Reprieve.Proofs.Effects
import Reprieve.Proofs.History
import Reprieve.Proofs.Findings
import Reprieve.Proofs.Decimal
import Reprieve.Proofs.Values
import Reprieve.Proofs.JsonScalars
import Reprieve.Proofs.JsonText
import Reprieve.Proofs.Arguments
import Reprieve.Proofs.Documents
import Reprieve.Proofs.Export
import Reprieve.Proofs.Reordering
import Reprieve.Proofs.Standing
import Reprieve.Proofs.Reports
import Reprieve.Proofs.Independence
import Reprieve.Proofs.Records
import Reprieve.Proofs.Slots
import Reprieve.Proofs.Alternatives
import Reprieve.Proofs.Judgements
import Reprieve.Proofs.Versions
import Reprieve.Proofs.Octets
import Reprieve.Proofs.Blocks
import Reprieve.Proofs.Headings
import Reprieve.Proofs.VersionTexts
import Reprieve.Proofs.InstalledPackages
import Reprieve.Proofs.Comparisons
import Reprieve.Proofs.Roots
import Reprieve.Proofs.Tokens
import Reprieve.Proofs.PlainScalars
import Reprieve.Proofs.Leads
import Reprieve.Proofs.QuotedKeys
import Reprieve.Proofs.FirstTokens
import Reprieve.Proofs.Fallback
