import FormulaEditor.Editor
import FormulaEditor.Proofs.RoundTrip
import FormulaEditor.Proofs.Tree.Grammar
import FormulaEditor.Proofs.Formula.Readable
import FormulaEditor.Proofs.Alike
import FormulaEditor.Proofs.Bounds
import FormulaEditor.Proofs.Layout
import FormulaEditor.Proofs.Tree.Refusals
import FormulaEditor.Proofs.Line.Unmatched
import FormulaEditor.Proofs.Numerals
import FormulaEditor.Proofs.Tree.Bracketing
import FormulaEditor.Proofs.Tree.Splicing
import FormulaEditor.Proofs.Tree.Deletion
import FormulaEditor.Proofs.Enlarging
import FormulaEditor.Proofs.Undoing
import FormulaEditor.Proofs.Tree.Roaming
import FormulaEditor.Proofs.Tree.Roots
