import VowpalWabbit.AllReduce.Fold
import VowpalWabbit.AutoML.ModelFile
import VowpalWabbit.Cache.Oversized
import VowpalWabbit.Cache.Transparency
import VowpalWabbit.Config.InlineHex
import VowpalWabbit.Config.Redefine
import VowpalWabbit.Continuous.Density
import VowpalWabbit.Continuous.Leaves
import VowpalWabbit.CsoaaLdf.Training
import VowpalWabbit.Csv.Passes
import VowpalWabbit.Csv.RoundTrip
import VowpalWabbit.Driver.Consumed
import VowpalWabbit.EpsilonDecay.Runs
import VowpalWabbit.Explore.LearnLabels
import VowpalWabbit.Explore.RegCb
import VowpalWabbit.Explore.SynthCover
import VowpalWabbit.FeatureGroup.Sort
import VowpalWabbit.Flatbuffer.Framing
import VowpalWabbit.Flatbuffer.Roots
import VowpalWabbit.Interactions.Duplicates
import VowpalWabbit.Interactions.Interact
import VowpalWabbit.Interactions.Permutations
import VowpalWabbit.Interactions.Splitting
import VowpalWabbit.IoBuf.Writing
import VowpalWabbit.Merge.Compatibility
import VowpalWabbit.Merge.Counterparts
import VowpalWabbit.ModelUtils.Truncation
import VowpalWabbit.MultiModel.Reduction
import VowpalWabbit.Multilabel
import VowpalWabbit.Primitives.CommandLine
import VowpalWabbit.Queue
import VowpalWabbit.Slates.Pairing
import VowpalWabbit.Slim.Reload
import VowpalWabbit.SpanningTree.Clusters
import VowpalWabbit.SpanningTree.Order
import VowpalWabbit.Tournament.Finals
import VowpalWabbit.Tournament.Inversion
import VowpalWabbit.Trees.Bandwidth
import VowpalWabbit.Trees.MemoryTree
import VowpalWabbit.Trees.PltNodes
import VowpalWabbit.Trees.RecallStatistics
import VowpalWabbit.Trees.Restored
