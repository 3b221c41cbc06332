import Florin.Fixture
import Florin.Main
import Florin.Proofs.FixedPoint
import Florin.Proofs.SigilTests
import Florin.Proofs.Statements
import Florin.Proofs.Templates
import Florin.Proofs.Translation
import Florin.Proofs.WellFormed
import Florin.Cursor
import Florin.Proofs.Cursor.Scanners
import Florin.Proofs.Partition
import Florin.Proofs.Cursor.Forms
import Florin.Proofs.Cursor.Run
import Florin.Proofs.Build.Mirror
import Florin.Proofs.Lexical.Interpolation
import Florin.Proofs.AsyncWord
import Florin.Proofs.Build.Guards
import Florin.Proofs.Build.Outputs
import Florin.Proofs.Sites
import Florin.Proofs.ExpressionBody
import Florin.Proofs.Verbatim
import Florin.Proofs.Diagnostics
import Florin.Proofs.Cursor.Extent
import Florin.Proofs.Fixtures
import Florin.Proofs.KeywordTokens
import Florin.Proofs.Lexical.OpenQuotes
