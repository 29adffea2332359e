import BinaryPoint.Main
import BinaryPoint.Proofs.Decimal.Normalization
import BinaryPoint.Proofs.Expression.AreaArguments
import BinaryPoint.Proofs.Expression.Broadcasting
import BinaryPoint.Proofs.Expression.LexicalErrors
import BinaryPoint.Proofs.Expression.LiteralForms
import BinaryPoint.Proofs.Expression.MethodChains
import BinaryPoint.Proofs.Expression.MinusRuns
import BinaryPoint.Proofs.Expression.PieceLexemes
import BinaryPoint.Proofs.Expression.Printed
import BinaryPoint.Proofs.Expression.Quotations
import BinaryPoint.Proofs.Expression.Segmentation
import BinaryPoint.Proofs.Expression.SignedLiterals
import BinaryPoint.Proofs.Expression.Wrapping
import BinaryPoint.Proofs.Machine.Scalars
import BinaryPoint.Proofs.Scalar.Doubles
import BinaryPoint.Proofs.Scalar.Products
import BinaryPoint.Proofs.Shell.OneShot
import BinaryPoint.Proofs.Vec.Areas
import BinaryPoint.Proofs.Vec.Delimiters
import BinaryPoint.Proofs.Vec.DotProducts
import BinaryPoint.Proofs.WideLiteral.Positional
