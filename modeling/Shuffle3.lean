import Shuffle3.Foundations.Swaps
import Shuffle3.Foundations.Blocks
import Shuffle3.Foundations.Fills
import Shuffle3.Foundations.Rounding
import Shuffle3.Foundations.Floating
import Shuffle3.Foundations.Single
import Shuffle3.Foundations.Bytes
import Shuffle3.Foundations.Stacks
import Shuffle3.Foundations.Streams
import Shuffle3.Foundations.Extremes
import Shuffle3.Foundations.Inverses
import Shuffle3.V2.Rng
import Shuffle3.V2.MinMax
import Shuffle3.Foundations.Cycles
import Shuffle3.V2.Shuffle
import Shuffle3.V2.Permutations
import Shuffle3.V2.Work
import Shuffle3.V2.Seeding
import Shuffle3.Foundations.Bounds
import Shuffle3.V2.Ranges
import Shuffle3.V2.Between
import Shuffle3.V2.FullRange
import Shuffle3.Foundations.BitPolynomials
import Shuffle3.V2.Xoroshiro
import Shuffle3.V2.Jump
import Shuffle3.V2.Reversible
import Shuffle3.V2.FileVector
import Shuffle3.V2.Spill
import Shuffle3.V2.Builds
import Shuffle3.V1.Array
import Shuffle3.V1.Rng
import Shuffle3.V1.Passes
import Shuffle3.V1.Simulation
import Shuffle3.V1.Agreement
import Shuffle3.V1.Main
import Shuffle3.V2.Draws
import Shuffle3.V2.Coverage
import Shuffle3.Foundations.Ownership
import Shuffle3.V2.BackingStores
import Shuffle3.V2.Map
import Shuffle3.Foundations.Mappings
import Shuffle3.Foundations.Tallies
import Shuffle3.V2.Scopes
import Shuffle3.V2.Program
import Shuffle3.Foundations.Journals
import Shuffle3.V2.Kills
import Shuffle3.Foundations.BitPowers
import Shuffle3.Foundations.Periods
import Shuffle3.V2.Period
import Shuffle3.V2.LongStage
import Shuffle3.V2.Methods
import Shuffle3.Foundations.Counts
import Shuffle3.V2.Frequencies
import Shuffle3.V1.PtrStore
import Shuffle3.V1.Dump
import Shuffle3.V1.Stdin
import Shuffle3.V1.Program
import Shuffle3.V1.Discipline
