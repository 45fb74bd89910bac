import CsoLabs.Foundation.CInt
import CsoLabs.Foundation.CString
import CsoLabs.Foundation.Occurrences
import CsoLabs.Rkgrep.Matchers
import CsoLabs.Foundation.Transition
import CsoLabs.Rkgrep.RollingHash
import CsoLabs.Rkgrep.RkMatch
import CsoLabs.Rkgrep.NaiveMatch
import CsoLabs.Rwlock.Model
import CsoLabs.Rwlock.Exclusion
import CsoLabs.Rwlock.WakeUps
import CsoLabs.Rwlock.Priority
import CsoLabs.Foundation.ByteMemory
import CsoLabs.Foundation.DoublyLinked
import CsoLabs.Foundation.Intervals
import CsoLabs.Foundation.Program
import CsoLabs.Malloc.Model
import CsoLabs.Malloc.Headers
import CsoLabs.Malloc.ListOps
import CsoLabs.Malloc.FreeList
import CsoLabs.Malloc.Merging
import CsoLabs.Malloc.Layout
import CsoLabs.Malloc.Calls
import CsoLabs.Malloc.Allocation
import CsoLabs.Malloc.Runs
import CsoLabs.Malloc.HeapInvariant
import CsoLabs.Malloc.Isolation
import CsoLabs.Malloc.Coalescing
import CsoLabs.Malloc.OutOfMemory
import CsoLabs.Foundation.SinglyLinked
import CsoLabs.Hashtable.Hash
import CsoLabs.Hashtable.Table
import CsoLabs.Hashtable.Chains
import CsoLabs.Hashtable.Updates
import CsoLabs.Hashtable.Rehash
import CsoLabs.Hashtable.Operations
import CsoLabs.Hashtable.FiniteMap
import CsoLabs.Foundation.Holders
import CsoLabs.Hashtable.Concurrent
import CsoLabs.Hashtable.Linearization
import CsoLabs.Hashtable.StaleSlot
import CsoLabs.Foundation.CStringOrder
import CsoLabs.Foundation.SearchTree
import CsoLabs.SortedTree.Model
import CsoLabs.SortedTree.Nodes
import CsoLabs.SortedTree.SortedSet
import CsoLabs.Foundation.Bitmap
import CsoLabs.Rkgrep.Bloom
import CsoLabs.Rkgrep.BloomFilter
import CsoLabs.Rkgrep.BloomMatch
import CsoLabs.Rkgrep.BloomSafety
import CsoLabs.Malloc.Realloc
import CsoLabs.Malloc.Truncation
import CsoLabs.Malloc.Placement
import CsoLabs.Rwlock.Holding
import CsoLabs.Foundation.Linearizability
import CsoLabs.Hashtable.Threads
import CsoLabs.Hashtable.Discipline
import CsoLabs.Hashtable.Interleaving
import CsoLabs.Hashtable.Progress
import CsoLabs.Hashtable.ResizeFree
import CsoLabs.Hashtable.Destroy
import CsoLabs.Hashtable.SignedKeys
import CsoLabs.Rkgrep.BloomBitmap
import CsoLabs.Rkgrep.Rolling
import CsoLabs.Foundation.Fields
import CsoLabs.StringToken.Model
import CsoLabs.StringToken.Tokens
import CsoLabs.Rkgrep.PrintMatch
import CsoLabs.Foundation.CArray
import CsoLabs.Bmgrep.Model
import CsoLabs.Bmgrep.Search
import CsoLabs.Malloc.Undo
import CsoLabs.Malloc.Checkheap
import CsoLabs.Hashtable.Room
import CsoLabs.Hashtable.Growth
import CsoLabs.Hashtable.PrimeSizes
import CsoLabs.BubbleSort.Sort
import CsoLabs.Sieve.Model
import CsoLabs.Sieve.Primes
import CsoLabs.LinkedList.Model
import CsoLabs.LinkedList.Removal
import CsoLabs.SortedTree.Traversals
import CsoLabs.SortedTree.Deletion
import CsoLabs.SortedTree.Uninitialised
import CsoLabs.Bmgrep.GoodSuffix
import CsoLabs.Malloc.Break
import CsoLabs.Malloc.Package
import CsoLabs.MallocNaive.Model
import CsoLabs.MallocNaive.Chunks
import CsoLabs.MallocNaive.Calls
import CsoLabs.MallocNaive.Runs
import CsoLabs.MallocNaive.Behaviour
import CsoLabs.Mdriver.Model
import CsoLabs.Mdriver.Ranges
import CsoLabs.Mdriver.Holding
import CsoLabs.Mdriver.Playing
import CsoLabs.Mdriver.Evaluation
import CsoLabs.Mdriver.Utilisation
import CsoLabs.Foundation.Scanf
import CsoLabs.Mdriver.TraceFile
import CsoLabs.Rkgrep.Modes
