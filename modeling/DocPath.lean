import DocPath.Main
import DocPath.Proofs.Command.Walk
import DocPath.Proofs.Json.RoundTrip
import DocPath.Proofs.Path.Ending
import DocPath.Proofs.Path.Lexemes
import DocPath.Proofs.Path.Parentheses
import DocPath.Proofs.Path.Regular
import DocPath.Proofs.Path.RoundTrip
import DocPath.Proofs.Path.Strings
import DocPath.Proofs.Pattern.Whole
import DocPath.Proofs.Query.Records
import DocPath.Proofs.Query.Results
import DocPath.Proofs.Query.Scope
import DocPath.Proofs.Query.Sweep
import DocPath.Proofs.Query.Walk
import DocPath.Proofs.Script.Data
import DocPath.Proofs.Script.Joining
import DocPath.Proofs.Script.RoundTrip
import DocPath.Proofs.Update.Fields
import DocPath.Proofs.Update.Growth
import DocPath.Proofs.Update.Keep
import DocPath.Proofs.Update.Lockstep
import DocPath.Proofs.Update.Modify
import DocPath.Proofs.Update.Obstacles
import DocPath.Proofs.Update.OnePlace
import DocPath.Proofs.Update.Prune
import DocPath.Proofs.Update.Refusals
import DocPath.Proofs.Update.Repeat
import DocPath.Proofs.Update.Set
import DocPath.Proofs.Update.Termination
import DocPath.Proofs.Update.Waiting
import DocPath.Proofs.Value.Equality
import DocPath.Proofs.Script.Rereading
