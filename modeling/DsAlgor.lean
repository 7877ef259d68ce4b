import DsAlgor.Lib.CArray
import DsAlgor.Lib.Levels
import DsAlgor.Lib.Chain
import DsAlgor.Lib.PtrTree
import DsAlgor.Lib.Outcome
import DsAlgor.Lib.BitArray
import DsAlgor.Lib.Bytes
import DsAlgor.Lib.Undo
import DsAlgor.BplusTree.Defs
import DsAlgor.BplusTree.Search
import DsAlgor.BplusTree.KeySearch
import DsAlgor.BplusTree.Node
import DsAlgor.BplusTree.Above
import DsAlgor.BplusTree.Split
import DsAlgor.BplusTree.Insert
import DsAlgor.BplusTree.Rebalance
import DsAlgor.BplusTree.Remove
import DsAlgor.BplusTree.Leaf
import DsAlgor.BplusTree.Stored
import DsAlgor.BplusTree.LeafInsert
import DsAlgor.BplusTree.LeafRemove
import DsAlgor.BplusTree.Map
import DsAlgor.BplusTree.Runs
import DsAlgor.BplusTree.WellFormed
import DsAlgor.BplusTree.Range
import DsAlgor.BplusTree.Atomic
import DsAlgor.BplusTree.MinOrder
import DsAlgor.SkipRank.Defs
import DsAlgor.SkipRank.Rows
import DsAlgor.SkipRank.Insert
import DsAlgor.SkipRank.Remove
import DsAlgor.SkipRank.Spans
import DsAlgor.Cuckoo.Defs
import DsAlgor.Cuckoo.Table
import DsAlgor.Cuckoo.Collide
import DsAlgor.Cuckoo.Store
import DsAlgor.Cuckoo.Rehash
import DsAlgor.Cuckoo.Map
import DsAlgor.Cuckoo.Runs
import DsAlgor.Cuckoo.Address
import DsAlgor.Cuckoo.Failure
import DsAlgor.SimpleDb.Text
import DsAlgor.SimpleDb.Journal
import DsAlgor.SimpleDb.Rollback
import DsAlgor.Elevator.Car
import DsAlgor.Lib.Events
import DsAlgor.Elevator.Mutex
import DsAlgor.BlockingQueue
import DsAlgor.LfuCache
import DsAlgor.ConstantDataStructure
import DsAlgor.Lib.BinarySearch
import DsAlgor.Lib.CInt
import DsAlgor.HitCounter
import DsAlgor.ReadBlock
import DsAlgor.Leveldb.Bloom
import DsAlgor.Leveldb.FilterBlock
import DsAlgor.Lib.PinnedCache
import DsAlgor.Lib.HashChains
import DsAlgor.Leveldb.HandleTable
import DsAlgor.Leveldb.TableMap
import DsAlgor.Leveldb.Cache
import DsAlgor.Leveldb.CacheModel
import DsAlgor.Leveldb.CacheRuns
import DsAlgor.Leveldb.Arena
import DsAlgor.ObBloomFilter.Probes
import DsAlgor.ObBloomFilter.Serialize
import DsAlgor.Lib.Recency
import DsAlgor.LruCache
import DsAlgor.ToftLruCache
import DsAlgor.Census.Table
import DsAlgor.Census.Map
import DsAlgor.SkipList.Linked
import DsAlgor.SkipList.Insert
import DsAlgor.SkipList.Remove
import DsAlgor.SkipList.Runs
import DsAlgor.Rocksdb.Search
import DsAlgor.Rocksdb.Insert
import DsAlgor.Rocksdb.Iterator
import DsAlgor.Hashtable.Table
import DsAlgor.Hashtable.Runs
import DsAlgor.Hashtable.Iterator
import DsAlgor.Bptree.Defs
import DsAlgor.Bptree.Node
import DsAlgor.Bptree.Held
import DsAlgor.Bptree.Insert
import DsAlgor.Bptree.InsertLeaf
import DsAlgor.Bptree.BulkLoad
import DsAlgor.Bptree.BulkLevels
import DsAlgor.Bptree.Delete
import DsAlgor.Bptree.DeleteInner
import DsAlgor.Bptree.DeleteLeaf
import DsAlgor.Bptree.Find
import DsAlgor.Bptree.RemoveKey
import DsAlgor.Bptree.Operations
import DsAlgor.Bptree.Map
import DsAlgor.Bptree.Separators
import DsAlgor.Bptree.Query
import DsAlgor.Bptree.Loaded
import DsAlgor.Bptree.Bare
import DsAlgor.Bptree.Split
import DsAlgor.Bptree.Count
import DsAlgor.Bptree.Scan
import DsAlgor.Bptree.Sample
import DsAlgor.Bptree.Iterator
import DsAlgor.Lib.Checked
import DsAlgor.SkipRank.Search
import DsAlgor.SkipRank.Built
import DsAlgor.SkipRank.Lookup
import DsAlgor.SkipRank.Unset
import DsAlgor.SkipRank.Range
import DsAlgor.SkipRank.Sweep
import DsAlgor.SkipRank.RemoveRange
import DsAlgor.SkipRank.Positions
import DsAlgor.SkipRank.RankOk
import DsAlgor.SkipRank.RemoveRank
import DsAlgor.Cuckoo.Relocate
import DsAlgor.QuickSort.Partition
import DsAlgor.QuickSort.Sides
import DsAlgor.QuickSort.Exchange
import DsAlgor.QuickSort.Sorts
import DsAlgor.HeapSort.Chain
import DsAlgor.HeapSort.Sorts
import DsAlgor.MergeSort.Merge
import DsAlgor.MergeSort.Sorts
import DsAlgor.Lib.Buckets
import DsAlgor.RadixSort.Sorts
import DsAlgor.Class5.MergeSort
import DsAlgor.Lib.Select
import DsAlgor.QuickSelect
import DsAlgor.Class5.Halving
import DsAlgor.Class5.BinarySearch
import DsAlgor.Class5.MatrixSearch
import DsAlgor.Class5.RotateArraySearch
import DsAlgor.Lib.PriorityQueue
import DsAlgor.Class5.KthLargest
import DsAlgor.Homework.FindMedian
import DsAlgor.Class3.SortStack
import DsAlgor.Lib.Brackets
import DsAlgor.Class3.IsValidParenthesis
import DsAlgor.Atoi
import DsAlgor.Homework.MathExpression
import DsAlgor.Lib.Traversals
import DsAlgor.Lib.Pointers
import DsAlgor.Class4.RebuildBinaryTree
import DsAlgor.Class4.ConvertToList
import DsAlgor.Class2.ReverseListII
import DsAlgor.Class2.CloneListWithRandomPointer2
import DsAlgor.Class8.FindMissingNum
import DsAlgor.Homework.NutsAndBolts
import DsAlgor.Lib.LevelOrder
import DsAlgor.Class4.Lca
import DsAlgor.Class4.IsBst
import DsAlgor.Class4.FindRightNeighbor
import DsAlgor.TraverseTree
import DsAlgor.TreeTraversal
import DsAlgor.BinaryTreeIterator
import DsAlgor.Lib.TopologicalOrder
import DsAlgor.TopologicialSort
import DsAlgor.Lib.Search
import DsAlgor.GraphSearch
import DsAlgor.Lib.Components
import DsAlgor.Lib.Grid
import DsAlgor.Homework.ConnectedComponents
import DsAlgor.Lib.Enumerate
import DsAlgor.Class6.WordBreak
import DsAlgor.Class7.PalindromePartition
import DsAlgor.Exercise.PalindromeCut
import DsAlgor.Exercise.UniquePermute
import DsAlgor.Exercise.PermuteWithDups
import DsAlgor.Exercise.UniqueSubsets
import DsAlgor.Lib.Coins
import DsAlgor.Exercise.CoinChange
import DsAlgor.Lib.Signed
import DsAlgor.Exercise.CoinChange2
import DsAlgor.Class6.JumpGame2
import DsAlgor.Class6.Lcs
import DsAlgor.Class7.WordLadder
import DsAlgor.Lib.Runs
import DsAlgor.Class1.LongestConsecutive
import DsAlgor.Class8.Power
import DsAlgor.Lib.Majority
import DsAlgor.Class8.MajorityNum2
import DsAlgor.Homework.MajorityNum3
import DsAlgor.Class8.SubarraySumClosest
import DsAlgor.Class8.ThreeSum
import DsAlgor.Class6.UniqueBinaryTree
import DsAlgor.Class8.BuyStock3
import DsAlgor.Lib.Covering
import DsAlgor.Lib.Cursor
import DsAlgor.FindShortestSubstring
import DsAlgor.Lib.Deletion
import DsAlgor.RemoveKDigits
