import Stencil.Template.Cursor
import Stencil.Main
import Stencil.Proofs.Lower.Balance
import Stencil.Proofs.Lower.Constants
import Stencil.Proofs.Render.Imports
import Stencil.Proofs.Lower.BranchKeys
import Stencil.Proofs.Template.Spacing
import Stencil.Proofs.Template.RoundTrip
import Stencil.Proofs.Lower.KeptTexts
import Stencil.Proofs.Render.Placement
import Stencil.Proofs.Render.Rehoisting
import Stencil.Proofs.Lower.Assets
import Stencil.Proofs.Project.Outputs
import Stencil.Proofs.Lower.NameSpans
import Stencil.Proofs.Script.Descent
import Stencil.Proofs.Script.Free
import Stencil.Proofs.Lower.Handlers
import Stencil.Proofs.Lower.Merging
import Stencil.Proofs.Template.Condensing
import Stencil.Proofs.Template.Isolation
import Stencil.Proofs.Template.Shorthands
import Stencil.Proofs.Lower.StableSlots
import Stencil.Proofs.Lower.TextRuns
import Stencil.Proofs.Dom.Style
import Stencil.Proofs.Template.Consuming
import Stencil.Proofs.Text.Lines
import Stencil.Proofs.Lower.Siblings
import Stencil.Proofs.Script.Tiling
