import MulticastMesh.Main
import MulticastMesh.Proofs.Tables.Covering.Routes
import MulticastMesh.Proofs.Placing.Safety
import MulticastMesh.Proofs.Flow.Routed
import MulticastMesh.Proofs.Flow.Hints
import MulticastMesh.Proofs.Keys.Apart
import MulticastMesh.Proofs.Keys.Reordered
import MulticastMesh.Proofs.Routing.Reordered
import MulticastMesh.Proofs.Slicing.Sliced
import MulticastMesh.Proofs.Tables.Exact
import MulticastMesh.Proofs.Mesh.Links
import MulticastMesh.Proofs.Layout.Registry
import MulticastMesh.Proofs.Format.Design
import MulticastMesh.Proofs.Tables.Fewest
import MulticastMesh.Proofs.Keys.Lowest
import MulticastMesh.Proofs.Keys.Alone
import MulticastMesh.Proofs.Routing.Committed
import MulticastMesh.Proofs.Routing.Reach.Routers
import MulticastMesh.Proofs.Tables.Covering.Stages
import MulticastMesh.Proofs.Tables.Settled
import MulticastMesh.Proofs.Routing.Reach.Grafts
import MulticastMesh.Proofs.Slicing.Components
import MulticastMesh.Proofs.Slicing.Longest
import MulticastMesh.Proofs.Routing.Entries
import MulticastMesh.Proofs.Placing.Returns
import MulticastMesh.Proofs.Placing.Endings
import MulticastMesh.Proofs.Placing.Wholes
import MulticastMesh.Proofs.Placing.Patches
import MulticastMesh.Proofs.Placing.Exhaustion
import MulticastMesh.Proofs.Keys.Counting
import MulticastMesh.Proofs.Tables.Overlaps
