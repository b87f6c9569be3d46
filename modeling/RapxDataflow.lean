import RapxDataflow.Mir
import RapxDataflow.Graph
import RapxDataflow.Graph.Build
import RapxDataflow.Graph.WellFormed
import RapxDataflow.Graph.Progress
import RapxDataflow.Graph.Trace
import RapxDataflow.Graph.Seq
import RapxDataflow.Graph.Place
import RapxDataflow.Graph.Flow
import RapxDataflow.Graph.Acyclic
import RapxDataflow.Query
import RapxDataflow.Query.Search
import RapxDataflow.Query.Connected
import RapxDataflow.Query.Adjacency
import RapxDataflow.Query.Equivalent
import RapxDataflow.Query.Safety
import RapxDataflow.CallGraph
import RapxDataflow.Query.CallOperand
import RapxDataflow.Query.Walk
import RapxDataflow.Query.Dataflow
import RapxDataflow.Rap
import RapxDataflow.Rap.Simulation
import RapxDataflow.Rap.Spec
