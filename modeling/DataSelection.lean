import DataSelection.Filter.Approximation
import DataSelection.Filter.Budgets
import DataSelection.Filter.FeatureStats
import DataSelection.Filter.SentenceCounters
import DataSelection.Filter.Termination
import DataSelection.WittenBell.Model
import DataSelection.WittenBell.Substitution
import DataSelection.Shuffling.ShuffleLines
import DataSelection.Mining.GoogleParser
import DataSelection.Mining.NewSentences
import DataSelection.EntropyFilter.Tracking
import DataSelection.EntropyFilter.Entropy
import DataSelection.EntropyFilter.Safety
import DataSelection.Numbers.Decimals
import DataSelection.Numbers.Phrases
import DataSelection.Numbers.Agreement
import DataSelection.Bnf.Convert
import DataSelection.Bnf.NumBnf
import DataSelection.Multisub.Recompiling
import DataSelection.Splitting.SplitCorpus
import DataSelection.Multisub.Substitution
import DataSelection.Library.ErasingScan
import DataSelection.Mining.LargeNumbers
import DataSelection.Library.CumulativeScan
import DataSelection.Mining.QueryDraws
import DataSelection.Mining.QueryWeights
import DataSelection.Mining.Dates
import DataSelection.Library.PartialSort
import DataSelection.MostFrequent.MostFreqWords
import DataSelection.Library.Doubling
import DataSelection.Submitting.CondorSubmit
import DataSelection.Library.DeviceStream
import DataSelection.Reading.CorpusLoops
import DataSelection.Interpolation.Interpolate
import DataSelection.Library.Exits
import DataSelection.Pruning.UnigramLimit
import DataSelection.Timeouts.TimedCalls
import DataSelection.Filter.NgramScan
import DataSelection.Filter.DiminishingReturns
import DataSelection.Library.Splicing
import DataSelection.Mining.Splices
import DataSelection.Mitlm.Merging
import DataSelection.Jsgf.Sentences
import DataSelection.Mitlm.LeftBranches
import DataSelection.Mitlm.Perplexity
import DataSelection.Library.Records
import DataSelection.Mitlm.Limiting
import DataSelection.Mitlm.ParallelModels
