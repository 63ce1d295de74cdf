import RazorTokens.Alphabet
import RazorTokens.Blob
import RazorTokens.Cursor
import RazorTokens.Embedded
import RazorTokens.Embedded.CodeState
import RazorTokens.Event
import RazorTokens.Nesting
import RazorTokens.Rule
import RazorTokens.Rule.Address
import RazorTokens.Rule.Prose
import RazorTokens.Rule.Region
import RazorTokens.Rule.Trivia
import RazorTokens.Rule.Verbatim
import RazorTokens.Scanner
import RazorTokens.Session
import RazorTokens.Snapshot
import RazorTokens.Span
import RazorTokens.Token
import RazorTokens.Proofs.Persistence
import RazorTokens.Proofs.Resumption
import RazorTokens.Proofs.Extent
import RazorTokens.Proofs.Locality.Text
import RazorTokens.Proofs.Locality
import RazorTokens.Proofs.Brackets
import RazorTokens.Proofs.Admission
import RazorTokens.Proofs.Normalisation
import RazorTokens.Proofs.Progress
import RazorTokens.Proofs.NestedRegions
import RazorTokens.Proofs.Ending
import RazorTokens.Proofs.ProseLoop
import RazorTokens.Proofs.MarkupText
import RazorTokens.Proofs.LiteralAt
import RazorTokens.Proofs.AddressLoop
import RazorTokens.Proofs.LiteralSegments
import RazorTokens.Proofs.RawBody
import RazorTokens.Proofs.Transitions
import RazorTokens.Proofs.CodeTrivia
import RazorTokens.Proofs.OpenersBehindText
import RazorTokens.Proofs.SkippedText
import RazorTokens.Proofs.Writing
import RazorTokens.Proofs.Truncation
import RazorTokens.Proofs.Reading
import RazorTokens.Proofs.Saving
import RazorTokens.Proofs.Positions
import RazorTokens.Proofs.HandOver
