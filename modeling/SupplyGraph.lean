import SupplyGraph.Main
import SupplyGraph.Proofs.Engine.Session
import SupplyGraph.Proofs.Query.Grammar
import SupplyGraph.Proofs.Query.Racing
import SupplyGraph.Proofs.Query.Ranking
import SupplyGraph.Proofs.Service.Atomicity
import SupplyGraph.Proofs.Graph.Discovery
import SupplyGraph.Proofs.Query.LeafByLeaf
import SupplyGraph.Proofs.Query.Printing
import SupplyGraph.Proofs.Engine.EdgeSets
import SupplyGraph.Proofs.Query.Offsets
import SupplyGraph.Proofs.Query.Positions
import SupplyGraph.Proofs.Engine.Ingestion
import SupplyGraph.Proofs.Engine.Linking
import SupplyGraph.Proofs.Engine.Precision
import SupplyGraph.Proofs.Graph.Layers
import SupplyGraph.Proofs.Graph.Aliases
import SupplyGraph.Proofs.Format.RoundTrip
import SupplyGraph.Proofs.Engine.CustomData
import SupplyGraph.Proofs.Store.NameIndex
import SupplyGraph.Proofs.Engine.Ids
import SupplyGraph.Proofs.Engine.Interruption
import SupplyGraph.Proofs.Format.MessagePack
import SupplyGraph.Proofs.Service.Frames
import SupplyGraph.Proofs.Service.Replies
import SupplyGraph.Proofs.Service.Rearrangement
import SupplyGraph.Proofs.Graph.Acyclicity
