import Bytewise.Audit
import Bytewise.Byte
import Bytewise.ByteSet.Basic
import Bytewise.ByteSet.Edit
import Bytewise.ByteSet.Order
import Bytewise.ByteSet.Shape
import Bytewise.Cursor
import Bytewise.Digits
import Bytewise.Distinct
import Bytewise.Dump
import Bytewise.Expression
import Bytewise.Fault
import Bytewise.Letter
import Bytewise.Listing
import Bytewise.Mask
import Bytewise.Matcher.Basic
import Bytewise.Matcher.Scan
import Bytewise.Matcher.Text
import Bytewise.Proofs.Audit.Agreement
import Bytewise.Proofs.ByteSet.Ascending
import Bytewise.Proofs.ByteSet.Candidates
import Bytewise.Proofs.ByteSet.Coincidence
import Bytewise.Proofs.ByteSet.Collecting
import Bytewise.Proofs.ByteSet.Edits
import Bytewise.Proofs.ByteSet.Overlap
import Bytewise.Proofs.ByteSet.Recognition
import Bytewise.Proofs.Expression.Shortest
import Bytewise.Proofs.Expression.Tokens
import Bytewise.Proofs.Mask.Places
import Bytewise.Proofs.Matcher.Interchange
import Bytewise.Proofs.Matcher.Letters
import Bytewise.Proofs.Matcher.Parameters
import Bytewise.Proofs.Matcher.Reading
import Bytewise.Proofs.Matcher.Steps
import Bytewise.Proofs.Matcher.Views
import Bytewise.Proofs.Sampling.Sizes
import Bytewise.Proofs.Selector.Attempts
import Bytewise.Proofs.Selector.Checked
import Bytewise.Proofs.Selector.Limit
import Bytewise.Proofs.Selector.Log
import Bytewise.Proofs.Selector.Negation
import Bytewise.Proofs.Selector.NormalForm
import Bytewise.Proofs.Selector.Positions
import Bytewise.Proofs.Selector.Preference
import Bytewise.Proofs.Selector.Target
import Bytewise.Proofs.Selector.Text
import Bytewise.Rule
import Bytewise.Sampling
import Bytewise.Selector.Basic
import Bytewise.Selector.Event
import Bytewise.Span
