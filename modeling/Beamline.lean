import Beamline.Interpreter
import Beamline.Proofs.Bytes
import Beamline.Proofs.Clause
import Beamline.Proofs.Commentary
import Beamline.Proofs.Decimal.Double
import Beamline.Proofs.Decimal.Intervals
import Beamline.Proofs.Decimal.Nearest
import Beamline.Proofs.Decimal.Numeral
import Beamline.Proofs.Decimal.Positional
import Beamline.Proofs.Decimal.Rounding
import Beamline.Proofs.Decimal.Scan
import Beamline.Proofs.Deck.Failure
import Beamline.Proofs.Deck.Items
import Beamline.Proofs.Deck.Limits
import Beamline.Proofs.Deck.Members
import Beamline.Proofs.Deck.Raised
import Beamline.Proofs.Deck.Warnings
import Beamline.Proofs.Diagnostic.Transcript
import Beamline.Proofs.Ensures
import Beamline.Proofs.Evaluation.Blame
import Beamline.Proofs.Evaluation.Calls
import Beamline.Proofs.Evaluation.Course
import Beamline.Proofs.Evaluation.Depth
import Beamline.Proofs.Expr.Reader
import Beamline.Proofs.Expr.Written
import Beamline.Proofs.Grove.Basic
import Beamline.Proofs.Grove.Release
import Beamline.Proofs.Interpreter.Formulas
import Beamline.Proofs.Interpreter.Operations
import Beamline.Proofs.Ledger
import Beamline.Proofs.Line.Count
import Beamline.Proofs.Line.Expansion
import Beamline.Proofs.Mirror
import Beamline.Proofs.Plain.Blame
import Beamline.Proofs.Plain.Constants
import Beamline.Proofs.Plain.Deferral
import Beamline.Proofs.Plain.Discipline
import Beamline.Proofs.Plain.Effect
import Beamline.Proofs.Plain.Immediate
import Beamline.Proofs.Plain.Interpretation
import Beamline.Proofs.Plain.Items
import Beamline.Proofs.Plain.Lengths
import Beamline.Proofs.Plain.Levels
import Beamline.Proofs.Plain.Limits
import Beamline.Proofs.Plain.Lookups
import Beamline.Proofs.Plain.Lowered
import Beamline.Proofs.Plain.Meaning
import Beamline.Proofs.Plain.Numbers
import Beamline.Proofs.Plain.Order
import Beamline.Proofs.Plain.Terms
import Beamline.Proofs.Pool.History
import Beamline.Proofs.Pool.Listing
import Beamline.Proofs.Portrait.Actions
import Beamline.Proofs.Portrait.Definition
import Beamline.Proofs.Portrait.Element
import Beamline.Proofs.Portrait.Evaluation
import Beamline.Proofs.Portrait.Lookups
import Beamline.Proofs.Portrait.Lowering
import Beamline.Proofs.Portrait.Meaning
import Beamline.Proofs.Portrait.Reading
import Beamline.Proofs.Portrait.Table
import Beamline.Proofs.Session.Blame
import Beamline.Proofs.Session.Comments
import Beamline.Proofs.Session.Constants
import Beamline.Proofs.Session.Discipline
import Beamline.Proofs.Session.Elements
import Beamline.Proofs.Session.Errors
import Beamline.Proofs.Session.Failure
import Beamline.Proofs.Session.Immediate
import Beamline.Proofs.Session.Layout
import Beamline.Proofs.Session.Lengths
import Beamline.Proofs.Session.Limits
import Beamline.Proofs.Session.Lockstep
import Beamline.Proofs.Session.Meaning
import Beamline.Proofs.Session.Members
import Beamline.Proofs.Session.Names
import Beamline.Proofs.Session.Numbers
import Beamline.Proofs.Session.Order
import Beamline.Proofs.Session.Ownership
import Beamline.Proofs.Session.Plain
import Beamline.Proofs.Session.Policies
import Beamline.Proofs.Session.Queries
import Beamline.Proofs.Session.Reading
import Beamline.Proofs.Session.Rendering
import Beamline.Proofs.Session.Reports
import Beamline.Proofs.Session.Snapshot
import Beamline.Proofs.Session.Spelling
import Beamline.Proofs.Session.Steps
import Beamline.Proofs.Sorting
import Beamline.Proofs.Source.Includes
import Beamline.Proofs.Table.History
import Beamline.Proofs.Table.Listing
