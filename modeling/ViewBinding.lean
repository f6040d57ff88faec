import ViewBinding.Session
import ViewBinding.Proofs.Look
import ViewBinding.Proofs.Look.Reading
import ViewBinding.Proofs.Look.Later
import ViewBinding.Proofs.Plain
import ViewBinding.Proofs.Valid
import ViewBinding.Proofs.Changes
import ViewBinding.Proofs.FanOut
import ViewBinding.Proofs.Interpolation
import ViewBinding.Proofs.Mount.Alike
import ViewBinding.Proofs.Calls
import ViewBinding.Proofs.TwoWay
import ViewBinding.Proofs.Waiting
import ViewBinding.Proofs.Documents.Doubles
import ViewBinding.Proofs.Walks.Trees
import ViewBinding.Proofs.Mirrors.Mirror
import ViewBinding.Proofs.Guests.Apart
import ViewBinding.Proofs.Look.Again
import ViewBinding.Proofs.Inert
import ViewBinding.Proofs.Ripple.Propagation
import ViewBinding.Proofs.Look.Tracking
import ViewBinding.Proofs.Rounds
import ViewBinding.Proofs.Assigns.Stops
import ViewBinding.Proofs.Assigns.Aliases
import ViewBinding.Proofs.Spans
import ViewBinding.Proofs.WriteBack
import ViewBinding.Proofs.Ledger
import ViewBinding.Proofs.Relics.Mounts
import ViewBinding.Proofs.Texts.Templates
import ViewBinding.Proofs.Texts.Paths
import ViewBinding.Proofs.Texts.Directives
import ViewBinding.Proofs.Snapshots.Rebuilt
import ViewBinding.Proofs.Tending.Settled
