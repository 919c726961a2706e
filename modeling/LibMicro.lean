import LibMicro.TransitionSystem
import LibMicro.Ownership
import LibMicro.Rendezvous
import LibMicro.ByteStream
import LibMicro.Truncation
import LibMicro.FloatingPoint
import LibMicro.DescriptorTable
import LibMicro.DescriptorProgram
import LibMicro.DescriptorGraph
import LibMicro.Blocks
import LibMicro.CrossedRing
import LibMicro.ForLoop
import LibMicro.WhileLoop
import LibMicro.RangeCount
import LibMicro.Stride
import LibMicro.Rounds
import LibMicro.Regions
import LibMicro.OrderStatistics
import LibMicro.LeastSquares
import LibMicro.Binning
import LibMicro.Text
import LibMicro.Decimal
import LibMicro.Ramp
import LibMicro.Barrier.Model
import LibMicro.Barrier.Refinement
import LibMicro.Barrier.Correctness
import LibMicro.Harness.Model
import LibMicro.Harness.Projection
import LibMicro.Harness.Agreement
import LibMicro.Harness.Samples
import LibMicro.Harness.Termination
import LibMicro.Harness.Completion
import LibMicro.Harness.Overrun
import LibMicro.Harness.Tsd
import LibMicro.Processes.Model
import LibMicro.Processes.Family
import LibMicro.Processes.Failure
import LibMicro.Processes.Threads
import LibMicro.Children.Model
import LibMicro.Children.Together
import LibMicro.Pipe.Model
import LibMicro.Pipe.Exchange
import LibMicro.Pipe.ReadAll
import LibMicro.Pipe.Descriptors
import LibMicro.Pipe.Leaks
import LibMicro.Polling.Model
import LibMicro.Polling.Pairs
import LibMicro.Polling.Expected
import LibMicro.PointerChain.Model
import LibMicro.PointerChain.Turns
import LibMicro.PointerChain.Inside
import LibMicro.Pages.Model
import LibMicro.Pages.Touched
import LibMicro.Tattle.Model
import LibMicro.Tattle.Cleanup
import LibMicro.Getenv.Model
import LibMicro.Getenv.Padding
import LibMicro.Malloc.Model
import LibMicro.Malloc.Sizes
import LibMicro.Sockets.Model
import LibMicro.Sockets.Balance
import LibMicro.Siglongjmp.Model
import LibMicro.Siglongjmp.Context
import LibMicro.Mprotect.Model
import LibMicro.Mprotect.Faults
import LibMicro.Copies.Model
import LibMicro.Copies.Rotation
import LibMicro.Cascade.Model
import LibMicro.Cascade.Ports
import LibMicro.Cascade.Locks
import LibMicro.Cascade.Order
import LibMicro.Cascade.Protocol
import LibMicro.Cascade.Flock
import LibMicro.Cascade.FileLock
import LibMicro.Cascade.Exclusion
import LibMicro.Cascade.Cond
import LibMicro.Cascade.CondLock
import LibMicro.Cascade.Ring
import LibMicro.Cascade.CondRing
import LibMicro.Cascade.CondRefinement
import LibMicro.Cascade.CondProgress
import LibMicro.Stats.Model
import LibMicro.Stats.Rounded
import LibMicro.Stats.Crunch
import LibMicro.Stats.Recorded
import LibMicro.Stats.Scaling
import LibMicro.Stats.Histogram
import LibMicro.Stats.RoundedScale
import LibMicro.Stats.Divisors
import LibMicro.Stats.Counts
import LibMicro.Stats.Bars
import LibMicro.Stats.FitLine
import LibMicro.Sizes.Model
import LibMicro.Sizes.Strtoll
import LibMicro.Sizes.Grammar
import LibMicro.Sizes.Narrow
import LibMicro.Multiview.Model
import LibMicro.Multiview.Reading
import LibMicro.Multiview.Sort
import LibMicro.Multiview.Exchange
import LibMicro.Multiview.Status
import LibMicro.Multiview.Colormap
import LibMicro.Output.Model
import LibMicro.Output.Table
import LibMicro.Output.Bench
import LibMicro.Multiview.Headers
import LibMicro.Output.Headers
import LibMicro.Multiview.Page
import LibMicro.Harness.Bounded
import LibMicro.Harness.Phased
import LibMicro.Cascade.Run
import LibMicro.Cascade.Indices
import LibMicro.Descriptors.Limit
import LibMicro.CommandLine.Settled
import LibMicro.Exec.Chain
