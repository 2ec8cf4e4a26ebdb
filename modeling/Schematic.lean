import Schematic.Main
import Schematic.Proofs.CommandLine.Validate
import Schematic.Proofs.Session.Accounts
import Schematic.Proofs.Session.Attempt
import Schematic.Proofs.Session.Effects
import Schematic.Proofs.Session.Forest
import Schematic.Proofs.Session.Identity
import Schematic.Proofs.Session.Instances
import Schematic.Proofs.Session.History
import Schematic.Proofs.Session.Sharing
import Schematic.Proofs.Store.Legality
import Schematic.Proofs.Session.Rearrangement
import Schematic.Proofs.Session.Selection
import Schematic.Proofs.Json.Numeral
import Schematic.Proofs.Json.Scanning
import Schematic.Proofs.Json.RoundTrip
import Schematic.Proofs.Payload.RoundTrip
import Schematic.Proofs.Payload.Validity
import Schematic.Proofs.Payload.NormalForm
import Schematic.Proofs.Payload.Reading
import Schematic.Proofs.Payload.Schema
import Schematic.Proofs.Attribute.Consensus
import Schematic.Proofs.Session.Agreement
import Schematic.Proofs.Session.Writing
