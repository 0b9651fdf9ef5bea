import Mhm2Proxy.Kmer
import Mhm2Proxy.KmerIndex
import Mhm2Proxy.GetNextStep
import Mhm2Proxy.ConstructFrags
import Mhm2Proxy.WalkSpelling
import Mhm2Proxy.Ownership
import Mhm2Proxy.TraverseDirn
import Mhm2Proxy.SumDepths
import Mhm2Proxy.WalkRefinement
import Mhm2Proxy.ConstructInvariant
import Mhm2Proxy.FragmentKmers
import Mhm2Proxy.FragmentPaths
import Mhm2Proxy.WindowKeys
import Mhm2Proxy.CleanLinks
import Mhm2Proxy.ConnectFrags
import Mhm2Proxy.Traversal
import Mhm2Proxy.Istream
import Mhm2Proxy.ContigsFile
import Mhm2Proxy.ShuffleReads
import Mhm2Proxy.ShuffleCids
import Mhm2Proxy.ContigIds
import Mhm2Proxy.PackedReads
import Mhm2Proxy.LocalAssm
import Mhm2Proxy.MerVotes
import Mhm2Proxy.MerWalk
import Mhm2Proxy.ProcessAlns
import Mhm2Proxy.ReadStores
import Mhm2Proxy.MergeReads
import Mhm2Proxy.MergeFiles
