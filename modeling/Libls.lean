import Libls.Library.Prog
import Libls.Library.LinkedTree
import Libls.Library.LinkedTreeOps
import Libls.Library.LinkedTreeMoves
import Libls.AvlBalance
import Libls.AvlRebalance
import Libls.AvlRuns
import Libls.Library.HeapOrder
import Libls.PrioTree
import Libls.PrioShape
import Libls.PrioMoves
import Libls.PrioRuns
import Libls.Library.Memory
import Libls.ArrayHeap
import Libls.ArrayHeapMoves
import Libls.ArrayHeapRuns
import Libls.FileLines
import Libls.FileLinesRuns
import Libls.Strings
import Libls.Csv
import Libls.CsvPasses
import Libls.CsvRoundTrip
import Libls.FdTable
import Libls.FdTableRuns
import Libls.RbTree
import Libls.RbBalance
import Libls.RbInsert
import Libls.RbEraseColor
import Libls.RbErase
import Libls.RbMap
import Libls.Timers
import Libls.TimerRuns
import Libls.Library.Runs
import Libls.RunLoop
import Libls.RunLoopIlc
import Libls.RunLoopStop
import Libls.RunLoopDrain
import Libls.Base64
import Libls.Base64RoundTrip
import Libls.Percent
import Libls.PercentRoundTrip
import Libls.Ini
import Libls.IniRoundTrip
import Libls.Bitmaps
import Libls.BitmapOps
import Libls.BitmapShifts
import Libls.BitmapUnused
import Libls.BitmapInline
import Libls.Library.Numerals
import Libls.Printf
import Libls.BitmapHex
import Libls.BitmapHexRoundTrip
import Libls.FindBit
import Libls.Library.Ranges
import Libls.BitmapList
import Libls.BitmapListRoundTrip
import Libls.FdTableAccess
import Libls.Base64Grammar
import Libls.Base64Bounds
import Libls.CsvReader
import Libls.CsvReaderRuns
import Libls.CsvEnd
import Libls.PercentInPlace
import Libls.TimerPass
import Libls.TimerTimeout
import Libls.TimerRearm
import Libls.RunLoopEvents
import Libls.ArrayHeapGrowth
import Libls.FileLinesNul
import Libls.LineAccess
import Libls.LineSafety
import Libls.AvlWalk
import Libls.AvlPostorder
import Libls.StringVectors
import Libls.BitmapListReads
import Libls.BitmapHexReads
import Libls.BitmapWeight
import Libls.BitmapMaps
import Libls.BitmapOnto
import Libls.BitmapRemap
import Libls.ZeroArea
import Libls.BitmapRegions
import Libls.Library.Holdings
import Libls.BitmapRegionRuns
import Libls.Library.LinkedRings
import Libls.ListHeads
import Libls.ListHeadOps
import Libls.ListHeadJoins
import Libls.ListHeadRuns
import Libls.ListHeadWalks
import Libls.Library.SlotLists
import Libls.HashLists
import Libls.HashListOps
import Libls.HashListRuns
import Libls.Library.Aggregates
import Libls.RbAugmented
import Libls.RbAugmentedValues
import Libls.RbAugmentedErase
import Libls.RbAugmentedRuns
import Libls.RbSort
import Libls.RbWalk
import Libls.RbPostorder
import Libls.Jhash
import Libls.Hexdump
import Libls.HexdumpLines
import Libls.BitmapEdits
import Libls.BitmapCalls
import Libls.BitmapSets
import Libls.AtomicBits
import Libls.AtomicBitRuns
