import RetirementVault.Binary.Bits
import RetirementVault.Ledger.Call
import RetirementVault.Main
import RetirementVault.Program.World
import RetirementVault.Projection.Adjustment
import RetirementVault.Projection.Chart
import RetirementVault.Screen.Desk
import RetirementVault.Statement.Basic
import RetirementVault.Proofs.Json.Lexing
import RetirementVault.Proofs.Json.RoundTrip
import RetirementVault.Proofs.Json.Field
import RetirementVault.Proofs.Json.Codec
import RetirementVault.Proofs.Statement.Record
import RetirementVault.Proofs.Ledger.Record
import RetirementVault.Proofs.Ledger.Reload
import RetirementVault.Proofs.Ledger.Answer
import RetirementVault.Proofs.Ledger.Identity
import RetirementVault.Proofs.Ledger.Conservation
import RetirementVault.Proofs.Ledger.Failure
import RetirementVault.Proofs.Ledger.Headroom
import RetirementVault.Proofs.Store.Place
import RetirementVault.Proofs.Store.Stored
import RetirementVault.Proofs.Program.Mishap
import RetirementVault.Proofs.Command.Job
import RetirementVault.Proofs.Command.Effect
import RetirementVault.Proofs.Command.Session
import RetirementVault.Proofs.Ledger.Clients
import RetirementVault.Proofs.Screen.Acting
import RetirementVault.Proofs.Screen.Desk
import RetirementVault.Proofs.Ledger.Signed
import RetirementVault.Proofs.Frontend.Course
import RetirementVault.Proofs.Ledger.Numbering
import RetirementVault.Proofs.Text.Spelling
import RetirementVault.Proofs.Signing.Accepted
import RetirementVault.Proofs.Command.Speech
import RetirementVault.Proofs.Frontend.Agreement
import RetirementVault.Proofs.Program.Crowd
import RetirementVault.Proofs.Command.Conduct
import RetirementVault.Proofs.Command.Crowd
import RetirementVault.Proofs.Command.Serial
import RetirementVault.Proofs.Ledger.Decision
import RetirementVault.Proofs.Text.Reading
import RetirementVault.Proofs.Signing.Encoding
import RetirementVault.Proofs.Screen.Message
import RetirementVault.Proofs.Binary.Shortest
import RetirementVault.Proofs.Binary.Size
import RetirementVault.Proofs.Json.Single
import RetirementVault.Proofs.Projection.Shift
import RetirementVault.Proofs.Projection.Closure
import RetirementVault.Proofs.Signing.Binding
import RetirementVault.Proofs.Text.Order
import RetirementVault.Proofs.Statement.Merge
import RetirementVault.Proofs.Word.Range
import RetirementVault.Proofs.Statement.Summary
import RetirementVault.Proofs.Statement.Price
import RetirementVault.Proofs.Projection.Shape
import RetirementVault.Proofs.Projection.Steps
import RetirementVault.Proofs.Binary.Order
import RetirementVault.Proofs.Projection.Rise
import RetirementVault.Proofs.Sorting
import RetirementVault.Proofs.Projection.Extremes
import RetirementVault.Proofs.Projection.Drawing
import RetirementVault.Proofs.Projection.Axes
import RetirementVault.Proofs.Projection.Ceiling
import RetirementVault.Proofs.Text.Literal
import RetirementVault.Proofs.Ledger.Amount
import RetirementVault.Proofs.Projection.Adjustment
import RetirementVault.Proofs.Projection.Draft
import RetirementVault.Proofs.Money.Amount
import RetirementVault.Proofs.Statement.Veto
import RetirementVault.Proofs.Binary.Exact
import RetirementVault.Proofs.Money.Percent
import RetirementVault.Proofs.Command.Footprint
