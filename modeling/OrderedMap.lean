import OrderedMap.Benchmark.Script
import OrderedMap.Datum
import OrderedMap.Main
import OrderedMap.Map.Assembly
import OrderedMap.Store
import OrderedMap.Proofs.Tree.Basic
import OrderedMap.Proofs.Tree.RedBlack
import OrderedMap.Proofs.Tree.Course
import OrderedMap.Proofs.Tree.Climb
import OrderedMap.Proofs.Tree.Refill
import OrderedMap.Proofs.Tree.Unhook
import OrderedMap.Proofs.Tree.Seek
import OrderedMap.Proofs.Tree.Relabel
import OrderedMap.Proofs.Tree.Fitting
import OrderedMap.Proofs.Arena.Forest
import OrderedMap.Proofs.Arena.Links
import OrderedMap.Proofs.Arena.Slots
import OrderedMap.Proofs.Arena.Bears
import OrderedMap.Proofs.Arena.Turn
import OrderedMap.Proofs.Arena.Ascent
import OrderedMap.Proofs.Arena.Pivot
import OrderedMap.Proofs.Arena.Ways
import OrderedMap.Proofs.Arena.Walk
import OrderedMap.Proofs.Arena.Stepping
import OrderedMap.Proofs.Arena.PostWalk
import OrderedMap.Proofs.Arena.Emptying
import OrderedMap.Proofs.Map.Setting
import OrderedMap.Proofs.Map.Settling
import OrderedMap.Proofs.Map.Refilling
import OrderedMap.Proofs.Map.Exchange
import OrderedMap.Proofs.Map.Restoring
import OrderedMap.Proofs.Map.Removal
import OrderedMap.Proofs.Map.Search
import OrderedMap.Proofs.Map.Landing
import OrderedMap.Proofs.Map.Placing
import OrderedMap.Proofs.Map.Items
import OrderedMap.Proofs.Map.Actions
import OrderedMap.Proofs.Map.Auditing
import OrderedMap.Proofs.Map.Reading
import OrderedMap.Proofs.Map.Iterating
import OrderedMap.Proofs.Map.Operating
import OrderedMap.Proofs.Map.Storing
import OrderedMap.Proofs.Map.WellFormed
import OrderedMap.Proofs.Map.Fate
import OrderedMap.Proofs.Map.Tracking
import OrderedMap.Proofs.Map.Ordered
import OrderedMap.Proofs.Map.Room
import OrderedMap.Proofs.Roll.Basic
import OrderedMap.Proofs.Roll.Order
import OrderedMap.Proofs.Store.Steps
import OrderedMap.Proofs.Store.WellFormed
import OrderedMap.Proofs.Store.Tracking
import OrderedMap.Proofs.Store.Positions
import OrderedMap.Proofs.Store.Revival
import OrderedMap.Proofs.Store.Refinement
import OrderedMap.Proofs.Store.Handouts
import OrderedMap.Proofs.Store.Slots
import OrderedMap.Proofs.Map.Defences
import OrderedMap.Proofs.Store.Faults
import OrderedMap.Proofs.Map.Releases
import OrderedMap.Proofs.Map.Stock
import OrderedMap.Proofs.Store.Conservation
import OrderedMap.Proofs.Map.Checking
import OrderedMap.Proofs.Map.Convicting
import OrderedMap.Proofs.Tree.Guise
import OrderedMap.Proofs.Arena.Guise
import OrderedMap.Proofs.Map.Guise
import OrderedMap.Proofs.Map.Exact
import OrderedMap.Proofs.Map.Twins
import OrderedMap.Proofs.Roll.Guise
import OrderedMap.Proofs.Map.Tandem
import OrderedMap.Proofs.Map.Newcomers
import OrderedMap.Proofs.Map.Mirror
import OrderedMap.Proofs.Store.Sweep
import OrderedMap.Proofs.Store.Mirror
import OrderedMap.Proofs.Store.Errands
import OrderedMap.Proofs.Store.Renewal
import OrderedMap.Proofs.Store.Interleaving
import OrderedMap.Proofs.Store.BothEnds
import OrderedMap.Proofs.Store.Rebalancing
import OrderedMap.Proofs.Store.Clearing
import OrderedMap.Proofs.Tree.Size
import OrderedMap.Proofs.Map.Comparing
import OrderedMap.Proofs.Store.Searching
import OrderedMap.Proofs.Store.Recoloring
import OrderedMap.Proofs.Store.Excision
import OrderedMap.Proofs.Store.Stepping
import OrderedMap.Proofs.Store.Agreement
import OrderedMap.Proofs.Store.Insertion
import OrderedMap.Proofs.Store.Harvesting
import OrderedMap.Proofs.Benchmark.Work
