import PdsSearch.Lib.Checked
import PdsSearch.Lib.Machine
import PdsSearch.Lib.AnyOrder
import PdsSearch.Lib.GroupRing
import PdsSearch.Lib.Cycle
import PdsSearch.Lib.Descent
import PdsSearch.Lib.FirstOccurrence
import PdsSearch.Lib.UniformChoice
import PdsSearch.Lib.DiagonalForm
import PdsSearch.Lib.MachineInt
import PdsSearch.Table
import PdsSearch.ErrorCalc
import PdsSearch.SearchTools
import PdsSearch.Streams
import PdsSearch.Transposed
import PdsSearch.Histogram
import PdsSearch.ErrorSpec
import PdsSearch.Candidate
import PdsSearch.SelectStart
import PdsSearch.RandomGens
import PdsSearch.StartSet
import PdsSearch.Invariant
import PdsSearch.Safety
import PdsSearch.Scan
import PdsSearch.Neighbours
import PdsSearch.Naive
import PdsSearch.Termination
import PdsSearch.Variants
import PdsSearch.GroupError
import PdsSearch.Swap
import PdsSearch.ErrorAgree
import PdsSearch.Conservation
import PdsSearch.Relabel
import PdsSearch.MachineError
import PdsSearch.FourthPowers
import PdsSearch.MachineSearch
import PdsSearch.WrappedSearch
import PdsSearch.Lib.CommutingPairs
import PdsSearch.ProbCommute
import PdsSearch.Lib.Text
import PdsSearch.TableFile
import PdsSearch.SearchMany
import PdsSearch.CheckPDS
import PdsSearch.Lib.ParallelFor
import PdsSearch.Lib.KeySort
import PdsSearch.SortAsData
import PdsSearch.SortedFile
import PdsSearch.RunInput
import PdsSearch.IsPds
import PdsSearch.AlternateCheck
import PdsSearch.AlternateAccepts
import PdsSearch.Lib.Printing
import PdsSearch.CheckRun
import PdsSearch.ConvolutionTable
import PdsSearch.Convolution
import PdsSearch.IncidenceMatrices
import PdsSearch.CodeRank
import PdsSearch.GenTables
import PdsSearch.TrialRuns
import PdsSearch.MachineTask
import PdsSearch.Chances
import PdsSearch.OneGroup
import PdsSearch.Search64
import PdsSearch.Pipeline
import PdsSearch.GroupFile
