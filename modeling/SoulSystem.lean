import SoulSystem.Ccos.ColdIndex.Clone
import SoulSystem.Ccos.Memory.ColdRoundTrip
import SoulSystem.Ccos.External.Assertion
import SoulSystem.Ccos.Session.MergedView
import SoulSystem.Ccos.Session.CatchUp
import SoulSystem.Scheduler.AgentScheduler
import SoulSystem.Ipc.BusFifo
import SoulSystem.Ipc.BusProgress
import SoulSystem.Journal.AppendSafety
import SoulSystem.Journal.Calls
import SoulSystem.Journal.Sessions
import SoulSystem.Circuit.Breaker
import SoulSystem.Shm.BusRegion
import SoulSystem.Shm.BusDelivery
import SoulSystem.Shm.BusSlots
import SoulSystem.Sandbox.Accepted
import SoulSystem.Sandbox.EgressSafety
import SoulSystem.Licensing.Verify
import SoulSystem.Scirust.Transformer.Model
import SoulSystem.Hierarchy.TypeIndex
import SoulSystem.Agent.ProvenanceRuns
import SoulSystem.Goals.Accesses
import SoulSystem.Scirust.Safetensors.RoundTrip
import SoulSystem.Ccos.External.Reopen
import SoulSystem.Storage.KnnSearch
import SoulSystem.Scirust.Convolution.Transpose
import SoulSystem.Ccos.GraphReplay
import SoulSystem.Ccos.Memory.Cycles
import SoulSystem.Ccos.Memory.Beliefs
import SoulSystem.Ccos.Memory.CausalCone
import SoulSystem.Ccos.Windows.Feedback
import SoulSystem.Scirust.Fixed.Statistics
import SoulSystem.Scirust.Fixed.Display
import SoulSystem.Scirust.Linalg.Determinant
import SoulSystem.Scirust.Transcendental.Overflow
import SoulSystem.Scirust.Transcendental.Classification
import SoulSystem.Scirust.Solvers.CliqueBound
import SoulSystem.Scirust.Symbolic.Simplify
import SoulSystem.Scirust.Symbolic.Derivative
import SoulSystem.Scirust.Symbolic.CharacterOffsets
import SoulSystem.Scirust.Symbolic.Printing
import SoulSystem.Scirust.Symbolic.PolynomialFit
import SoulSystem.Scirust.Units
import SoulSystem.Scirust.Views.Runs
import SoulSystem.Goals.Subtrees
import SoulSystem.Ccos.Sanitizer.Defang
import SoulSystem.Ccos.ContextScheduler
import SoulSystem.Licensing.Malleability
import SoulSystem.Workflow.ModelOutput
import SoulSystem.Hierarchy.Search
